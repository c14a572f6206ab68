import Mathlib.Logic.Function.Iterate
import Mathlib.Data.List.Nodup

namespace NctuCourses.Lib

/-- Threads that each work on a part of the state of their own: however their steps are interleaved,
a part has seen the steps of its thread only. -/
theorem foldl_interleave {ι σ τ : Type*} [BEq ι] [LawfulBEq ι] {step : σ → ι → σ} {part : ι → σ → τ}
    {own : ι → τ → τ} (hown : ∀ s i, part i (step s i) = own i (part i s))
    (hother : ∀ s i j, i ≠ j → part j (step s i) = part j s) (schedule : List ι) (s : σ) (i : ι) :
    part i (schedule.foldl step s) = (own i)^[schedule.count i] (part i s) := by
  induction schedule generalizing s with
  | nil => rfl
  | cons j schedule ih =>
    rw [List.foldl_cons, ih]
    by_cases hj : (j == i) = true
    · obtain rfl := eq_of_beq hj
      rw [hown, List.count_cons_self, Function.iterate_succ_apply]
    · have hne : j ≠ i := fun he => hj (he ▸ beq_self_eq_true j)
      rw [hother s j i hne, List.count_cons_of_ne hne]

/-- A loop whose turn `j` works on part `j` only. -/
theorem foldl_elements {σ τ : Type*} {step : σ → Nat → σ} {part : Nat → σ → τ} (own : Nat → τ → τ)
    (hown : ∀ s i, part i (step s i) = own i (part i s))
    (hother : ∀ s i j, i ≠ j → part j (step s i) = part j s) (js : List Nat) (hjs : js.Nodup)
    (s : σ) (j : Nat) :
    part j (js.foldl step s) = if j ∈ js then own j (part j s) else part j s := by
  rw [foldl_interleave hown hother]
  split_ifs with hj
  · rw [List.count_eq_one_of_mem hjs hj, Function.iterate_one]
  · rw [List.count_eq_zero_of_not_mem hj, Function.iterate_zero, id]

end NctuCourses.Lib
