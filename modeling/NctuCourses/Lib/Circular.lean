import Mathlib.Data.Nat.ModEq
import Mathlib.Logic.Function.Basic

namespace NctuCourses.Lib

/-- A circular buffer of `n` cells holds the elements of `l`, the first
at `r`. The cell `w` is free. -/
structure Circular {α : Type*} (n : Nat) (buf : Nat → α) (r w : Nat) (l : List α) : Prop where
  r_lt : r < n
  w_eq : w = (r + l.length) % n
  length_lt : l.length < n
  cell : ∀ i a, l[i]? = some a → buf ((r + i) % n) = a

/-- The next index, as a loop around the buffer computes it. -/
theorem next_eq_mod {n i : Nat} (h : i < n) : (if i + 1 = n then 0 else i + 1) = (i + 1) % n := by
  split_ifs with hi
  · rw [hi, Nat.mod_self]
  · rw [Nat.mod_eq_of_lt (by omega)]

theorem cell_ne {n r i j : Nat} (hi : i < n) (hj : j < n) (hne : i ≠ j) :
    (r + i) % n ≠ (r + j) % n := by
  intro h
  have hmod : i ≡ j [MOD n] := Nat.ModEq.add_left_cancel' r h
  exact hne (Nat.ModEq.eq_of_lt_of_lt hmod hi hj)

namespace Circular

variable {α : Type*} {n : Nat} {buf : Nat → α} {r w : Nat} {l : List α}

theorem w_lt (h : Circular n buf r w l) : w < n := by
  rw [h.w_eq]
  exact Nat.mod_lt _ (Nat.zero_lt_of_lt h.r_lt)

theorem nil (h : r < n) : Circular n buf r r ([] : List α) :=
  ⟨h, (Nat.mod_eq_of_lt h).symm, Nat.zero_lt_of_lt h, nofun⟩

theorem eq_iff (h : Circular n buf r w l) : r = w ↔ l = [] := by
  constructor
  · intro hrw
    by_contra hl
    have hpos : 0 < l.length := List.length_pos_iff.mpr hl
    refine cell_ne h.length_lt (Nat.zero_lt_of_lt h.r_lt) hpos.ne' (r := r) ?_
    rw [← h.w_eq, ← hrw, Nat.add_zero, Nat.mod_eq_of_lt h.r_lt]
  · rintro rfl
    rw [h.w_eq, List.length_nil, Nat.add_zero, Nat.mod_eq_of_lt h.r_lt]

theorem write (h : Circular n buf r w l) (a : α) : Circular n (Function.update buf w a) r w l := by
  refine ⟨h.r_lt, h.w_eq, h.length_lt, ?_⟩
  intro i b hb
  have hi : i < l.length := (List.getElem?_eq_some_iff.mp hb).1
  rw [Function.update_of_ne, h.cell i b hb]
  rw [h.w_eq]
  exact cell_ne (hi.trans h.length_lt) h.length_lt hi.ne

theorem put (h : Circular n buf r w l) (hroom : l.length + 1 < n) (a : α) :
    Circular n (Function.update buf w a) r ((w + 1) % n) (l ++ [a]) := by
  refine ⟨h.r_lt, ?_, ?_, ?_⟩
  · rw [h.w_eq, Nat.mod_add_mod, List.length_append, List.length_singleton, Nat.add_assoc]
  · rw [List.length_append, List.length_singleton]
    exact hroom
  · intro i b hb
    rcases Nat.lt_trichotomy i l.length with hi | rfl | hi
    · rw [List.getElem?_append_left hi] at hb
      exact (h.write a).cell i b hb
    · rw [List.getElem?_concat_length] at hb
      rw [← h.w_eq, Function.update_self]
      exact Option.some.inj hb
    · rw [List.getElem?_eq_none (by rw [List.length_append, List.length_singleton]; omega)] at hb
      cases hb

theorem first {a : α} (h : Circular n buf r w (a :: l)) : buf r = a := by
  have h0 := h.cell 0 a rfl
  rwa [Nat.add_zero, Nat.mod_eq_of_lt h.r_lt] at h0

theorem drop {a : α} (h : Circular n buf r w (a :: l)) : Circular n buf ((r + 1) % n) w l := by
  refine ⟨Nat.mod_lt _ (Nat.zero_lt_of_lt h.r_lt), ?_, Nat.lt_of_succ_lt h.length_lt, ?_⟩
  · rw [h.w_eq, Nat.mod_add_mod, List.length_cons, Nat.add_assoc, Nat.add_comm 1]
  · intro i b hb
    rw [Nat.mod_add_mod, Nat.add_assoc, Nat.add_comm 1]
    exact h.cell (i + 1) b hb

end Circular

end NctuCourses.Lib
