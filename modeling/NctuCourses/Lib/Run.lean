import Mathlib.Tactic.Common

namespace NctuCourses.Lib

/-- The states reached from `s₀` by taking labelled steps in the order of the list. -/
inductive Reach {σ ε : Type*} (step : σ → ε → σ → Prop) (s₀ : σ) : List ε → σ → Prop
  | init : Reach step s₀ [] s₀
  | snoc {es : List ε} {e : ε} {s t : σ} :
      Reach step s₀ es s → step s e t → Reach step s₀ (es ++ [e]) t

namespace Reach

variable {σ ε : Type*} {step : σ → ε → σ → Prop} {s₀ : σ}

theorem historyInvariant {I : List ε → σ → Prop} (h0 : I [] s₀)
    (hs : ∀ es s e t, I es s → step s e t → I (es ++ [e]) t)
    {es : List ε} {s : σ} (h : Reach step s₀ es s) : I es s := by
  induction h with
  | init => exact h0
  | snoc _ hstep ih => exact hs _ _ _ _ ih hstep

/-- Invariant rule: what holds at the start and is kept by every step
holds at every state reached. -/
theorem invariant {I : σ → Prop} (h0 : I s₀) (hs : ∀ s e t, I s → step s e t → I t)
    {es : List ε} {s : σ} (h : Reach step s₀ es s) : I s :=
  h.historyInvariant (I := fun _ => I) h0 (fun _ => hs)

theorem mono {step' : σ → ε → σ → Prop} (hle : ∀ s e t, step s e t → step' s e t)
    {es : List ε} {s : σ} (h : Reach step s₀ es s) : Reach step' s₀ es s := by
  induction h with
  | init => exact .init
  | snoc _ hstep ih => exact ih.snoc (hle _ _ _ hstep)

theorem trans {es fs : List ε} {s t : σ} (h : Reach step s₀ es s) (k : Reach step s fs t) :
    Reach step s₀ (es ++ fs) t := by
  induction k with
  | init => simpa using h
  | snoc _ hstep ih => rw [← List.append_assoc]; exact ih.snoc hstep

end Reach

/-- A run with all its states: step `i` leads from `s i` to `s (i + 1)` under the label `e i`. -/
def Path {σ ε : Type*} (step : σ → ε → σ → Prop) (n : Nat) (s : Nat → σ) (e : Nat → ε) : Prop :=
  ∀ i < n, step (s i) (e i) (s (i + 1))

theorem Path.reach {σ ε : Type*} {step : σ → ε → σ → Prop} {n : Nat} {s : Nat → σ} {e : Nat → ε}
    (h : Path step n s e) {i : Nat} (hi : i ≤ n) :
    Reach step (s 0) ((List.range i).map e) (s i) := by
  induction i with
  | zero => exact .init
  | succ i ih =>
    rw [List.range_succ, List.map_append]
    exact (ih (by omega)).snoc (h i (by omega))

end NctuCourses.Lib
