import Mathlib.Tactic.Common

namespace NctuCourses.Lib

/-- A computation that is given fuel returns `a` from some amount of fuel on. -/
def Converges {α : Type*} (f : Nat → Option α) (a : α) : Prop := ∃ n, ∀ k, n ≤ k → f k = some a

namespace Converges

variable {α β σ : Type*}

theorem pure (a : α) : Converges (fun _ => some a) a := ⟨0, fun _ _ => rfl⟩

theorem of_eq {f : Nat → Option α} {a : α} (h : ∀ k, f k = some a) : Converges f a :=
  ⟨0, fun k _ => h k⟩

theorem bind {f : Nat → Option α} {g : Nat → α → Option β} {a : α} {b : β} (hf : Converges f a)
    (hg : Converges (fun k => g k a) b) : Converges (fun k => (f k).bind (g k)) b := by
  obtain ⟨n, hn⟩ := hf
  obtain ⟨m, hm⟩ := hg
  refine ⟨max n m, fun k hk => ?_⟩
  change (f k).bind (g k) = some b
  rw [hn k (by omega)]
  exact hm k (by omega)

theorem map {f : Nat → Option α} {a : α} (hf : Converges f a) (g : α → β) :
    Converges (fun k => (f k).map g) (g a) := by
  obtain ⟨n, hn⟩ := hf
  refine ⟨n, fun k hk => ?_⟩
  change (f k).map g = some (g a)
  rw [hn k hk]
  rfl

theorem succ {f g : Nat → Option α} {a : α} (he : ∀ k, f (k + 1) = g k) (hg : Converges g a) :
    Converges f a := by
  obtain ⟨n, hn⟩ := hg
  refine ⟨n + 1, fun k hk => ?_⟩
  obtain ⟨j, rfl⟩ : ∃ j, k = j + 1 := ⟨k - 1, by omega⟩
  rw [he]
  exact hn j (by omega)

theorem unique {f : Nat → Option α} {a b : α} (ha : Converges f a) (hb : Converges f b) :
    a = b := by
  obtain ⟨n, hn⟩ := ha
  obtain ⟨m, hm⟩ := hb
  exact Option.some.inj ((hn (max n m) (by omega)).symm.trans (hm (max n m) (by omega)))

/-- A loop over a list, with an invariant over the part that has been done. -/
theorem foldlM (l : List α) (step : Nat → σ → α → Option σ) (s₀ : σ) (I : List α → σ → Prop)
    (h0 : I [] s₀)
    (hs : ∀ done x rest s, l = done ++ x :: rest → I done s →
      ∃ s', Converges (fun k => step k s x) s' ∧ I (done ++ [x]) s') :
    ∃ s, Converges (fun k => l.foldlM (step k) s₀) s ∧ I l s := by
  have main : ∀ rest done s, l = done ++ rest → I done s →
      ∃ s', Converges (fun k => rest.foldlM (step k) s) s' ∧ I l s' := by
    intro rest
    induction rest with
    | nil =>
      intro done s hl hI
      rw [List.append_nil] at hl
      exact ⟨s, of_eq fun k => rfl, hl ▸ hI⟩
    | cons x rest ih =>
      intro done s hl hI
      obtain ⟨s₁, hc, hI₁⟩ := hs done x rest s hl hI
      obtain ⟨s', hc', hI'⟩ := ih (done ++ [x]) s₁ (by simpa using hl) hI₁
      refine ⟨s', ?_, hI'⟩
      simp only [List.foldlM_cons]
      exact hc.bind hc'
  exact main l [] s₀ rfl h0

end Converges

end NctuCourses.Lib
