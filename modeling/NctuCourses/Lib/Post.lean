import Mathlib.Tactic.Common

namespace NctuCourses.Lib

variable {σ α β : Type}

/-- Run from `s`, the program ends with a result and a state that satisfy `Q`. -/
def Post (m : StateM σ α) (s : σ) (Q : α → σ → Prop) : Prop := Q (m.run s).run.1 (m.run s).run.2

section Rules

variable {m k : StateM σ α} {f : α → StateM σ β} {s t : σ} {a : α} {Q R : α → σ → Prop}

@[simp] theorem post_pure : Post (pure a) s Q ↔ Q a s := Iff.rfl

@[simp] theorem post_bind {Q : β → σ → Prop} :
    Post (m >>= f) s Q ↔ Post m s fun a t => Post (f a) t Q := Iff.rfl

@[simp] theorem post_get {Q : σ → σ → Prop} : Post get s Q ↔ Q s s := Iff.rfl

@[simp] theorem post_set {Q : PUnit → σ → Prop} : Post (set t) s Q ↔ Q ⟨⟩ t := Iff.rfl

@[simp] theorem post_modify {g : σ → σ} {Q : PUnit → σ → Prop} : Post (modify g) s Q ↔ Q ⟨⟩ (g s) :=
  Iff.rfl

theorem post_ite {c : Prop} [Decidable c] :
    Post (if c then m else k) s Q ↔ (c → Post m s Q) ∧ (¬ c → Post k s Q) := by
  split <;> simp [*]

theorem Post.mono (h : Post m s Q) (hQ : ∀ a t, Q a t → R a t) : Post m s R := hQ _ _ h

/-- A call followed by the rest of the program: what the call guarantees is all the rest may use. -/
theorem Post.bind {R : β → σ → Prop} (h : Post m s Q) (hf : ∀ a t, Q a t → Post (f a) t R) :
    Post (m >>= f) s R := hf _ _ h

end Rules

section Abort

variable {ε : Type} {m k : ExceptT ε (StateM σ) α} {f : α → ExceptT ε (StateM σ) β} {s : σ} {a : α}
  {Q R : Except ε α → σ → Prop}

/-- The same for a program that can stop early. -/
def PostX (m : ExceptT ε (StateM σ) α) (s : σ) (Q : Except ε α → σ → Prop) : Prop := Post m.run s Q

theorem postX_pure : PostX (pure a : ExceptT ε (StateM σ) α) s Q ↔ Q (.ok a) s := Iff.rfl

theorem postX_ite {c : Prop} [Decidable c] :
    PostX (if c then m else k) s Q ↔ (c → PostX m s Q) ∧ (¬ c → PostX k s Q) := by
  split <;> simp [*]

theorem PostX.mono (h : PostX m s Q) (hQ : ∀ r t, Q r t → R r t) : PostX m s R := hQ _ _ h

theorem postX_bind {R : Except ε β → σ → Prop} :
    PostX (m >>= f) s R ↔ PostX m s fun r t => match r with
    | .ok a => PostX (f a) t R
    | .error e => R (.error e) t := by
  unfold PostX
  rw [ExceptT.run_bind, post_bind]
  refine iff_of_eq (congrArg _ (funext fun r => funext fun t => ?_))
  cases r <;> rfl

/-- A call followed by the rest of the program, which an early stop skips. -/
theorem PostX.bind {R : Except ε β → σ → Prop} (h : PostX m s Q)
    (hok : ∀ a t, Q (.ok a) t → PostX (f a) t R) (herr : ∀ e t, Q (.error e) t → R (.error e) t) :
    PostX (m >>= f) s R := by
  rw [postX_bind]
  refine h.mono fun r t hr => ?_
  cases r with
  | ok a => exact hok a t hr
  | error e => exact herr e t hr

end Abort

end NctuCourses.Lib
