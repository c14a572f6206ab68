import Mathlib.Data.BitVec
import Mathlib.Tactic.Common

namespace NctuCourses.Lib

/-- Bit `k` of a sequence of bytes, the lowest bit of byte 0 first. -/
def bitAt (b : Nat → BitVec 8) (k : Nat) : Bool := (b (k / 8)).getLsbD (k % 8)

/-- The number in the `w` bits from bit `o` on. -/
def field (b : Nat → BitVec 8) (o w : Nat) : Nat := Nat.ofBits fun i : Fin w => bitAt b (o + i)

/-- `b'` is `b` with the `w` bits from bit `o` on replaced by those of `x`. -/
def Placed (b b' : Nat → BitVec 8) (o w x : Nat) : Prop :=
  ∀ k, bitAt b' k = if o ≤ k ∧ k < o + w then x.testBit (k - o) else bitAt b k

section

variable {b b' : Nat → BitVec 8} {o o' w w' x : Nat}

theorem field_lt : field b o w < 2 ^ w := Nat.ofBits_lt_two_pow _

theorem testBit_field (i : Nat) :
    (field b o w).testBit i = (decide (i < w) && bitAt b (o + i)) := by
  rw [field, Nat.testBit_ofBits]
  split <;> simp [*]

theorem field_congr (h : ∀ i < w, bitAt b' (o + i) = bitAt b (o + i)) :
    field b' o w = field b o w := by
  unfold field
  congr 1
  funext i
  exact h i i.isLt

theorem field_eq_of_testBit (h : ∀ i, x.testBit i = (decide (i < w) && bitAt b (o + i))) :
    x = field b o w := by
  refine Nat.eq_of_testBit_eq fun i => ?_
  rw [h, testBit_field]

/-- The low `w` bits of a machine word are those from bit `o` on, and its other bits are 0. -/
def Reads {n : Nat} (b : Nat → BitVec 8) (o w : Nat) (v : BitVec n) : Prop :=
  ∀ j, v.getLsbD j = (decide (j < w) && bitAt b (o + j))

theorem Reads.toNat {n : Nat} {v : BitVec n} (h : Reads b o w v) : v.toNat = field b o w :=
  field_eq_of_testBit h

theorem bitAt_add (n i : Nat) : bitAt b (8 * n + i) = (b (n + i / 8)).getLsbD (i % 8) := by
  rw [bitAt, show (8 * n + i) / 8 = n + i / 8 by omega, show (8 * n + i) % 8 = i % 8 by omega]

theorem reads_byte {n : Nat} (hn : 8 ≤ n) (i : Nat) : Reads b (8 * i) 8 ((b i).setWidth n) := by
  intro j
  rw [bitAt_add, BitVec.getLsbD_setWidth]
  by_cases hj : j < 8
  · simp [hj, Nat.div_eq_of_lt hj, Nat.mod_eq_of_lt hj, show j < n by omega]
  · simp [hj, BitVec.getLsbD_of_ge (b i) j (by omega)]

theorem Reads.cons {n i : Nat} {v : BitVec n} (h : Reads b (8 * (i + 1)) w v) (hw : w + 8 ≤ n) :
    Reads b (8 * i) (w + 8) (v <<< 8 ||| (b i).setWidth n) := by
  intro j
  rw [BitVec.getLsbD_or, BitVec.getLsbD_shiftLeft, BitVec.getLsbD_setWidth]
  by_cases hj : j < 8
  · simp [hj, bitAt_add, Nat.div_eq_of_lt hj, Nat.mod_eq_of_lt hj,
      show j < n by omega, show j < w + 8 by omega]
  · obtain ⟨k, rfl⟩ := Nat.exists_eq_add_of_le (Nat.le_of_not_lt hj)
    rw [h, BitVec.getLsbD_of_ge (b i) (8 + k) (by omega), show 8 * (i + 1) + (8 + k - 8) =
      8 * i + (8 + k) by omega]
    by_cases hk : k < w
    · simp [hk, show 8 + k < n by omega, show 8 + k < w + 8 by omega]
    · simp [hk, show ¬ 8 + k < w + 8 by omega]

theorem Reads.shiftRight {n k : Nat} {v : BitVec n} (h : Reads b o (k + w) v) :
    Reads b (o + k) w (v >>> k) := by
  intro j
  rw [BitVec.getLsbD_ushiftRight, h, Nat.add_assoc]
  simp

theorem Reads.mask {n : Nat} {v m : BitVec n} (h : Reads b o w v) (hw : w' ≤ w)
    (hm : m = (BitVec.allOnes w').setWidth n) (hn : w' ≤ n) : Reads b o w' (v &&& m) := by
  intro j
  rw [hm, BitVec.getLsbD_and, h, BitVec.getLsbD_setWidth, BitVec.getLsbD_allOnes]
  by_cases hj : j < w'
  · simp [hj, show j < w by omega, show j < n by omega]
  · simp [hj]

namespace Placed

theorem field_eq (h : Placed b b' o w x) : field b' o w = x % 2 ^ w := by
  refine (field_eq_of_testBit fun i => ?_).symm
  rw [Nat.testBit_mod_two_pow, h]
  by_cases hi : i < w
  · simp [hi]
  · simp [hi]

theorem append {b'' : Nat → BitVec 8} {y z : Nat} (h : Placed b b' o w x)
    (k : Placed b' b'' (o + w) w' y) (hx : ∀ i < w, z.testBit i = x.testBit i)
    (hy : ∀ i < w', z.testBit (w + i) = y.testBit i) :
    Placed b b'' o (w + w') z := by
  intro j
  rw [k, h]
  by_cases h1 : o + w ≤ j ∧ j < o + w + w'
  · rw [if_pos h1, if_pos (by omega), ← hy _ (by omega)]
    congr 1
    omega
  · rw [if_neg h1]
    by_cases h2 : o ≤ j ∧ j < o + w
    · rw [if_pos h2, if_pos (by omega), hx _ (by omega)]
    · rw [if_neg h2, if_neg (by omega)]

end Placed

theorem bitAt_update (n : Nat) (v : BitVec 8) (k : Nat) :
    bitAt (Function.update b n v) k = if k / 8 = n then v.getLsbD (k % 8) else bitAt b k := by
  unfold bitAt Function.update
  split <;> simp_all

theorem testBit_byte {n : Nat} (v : BitVec n) (k : Nat) {j : Nat} (hj : j < 8) :
    v.toNat.testBit (k + j) = ((v >>> k).setWidth 8 : BitVec 8).toNat.testBit j := by
  simp only [BitVec.testBit_toNat, BitVec.getLsbD_setWidth, BitVec.getLsbD_ushiftRight,
    hj, decide_true, Bool.true_and]

theorem placed_byte (n : Nat) (v : BitVec 8) :
    Placed b (Function.update b n v) (8 * n) 8 v.toNat := by
  intro k
  rw [bitAt_update, BitVec.testBit_toNat]
  by_cases h : k / 8 = n
  · rw [if_pos h, if_pos (by omega), show k - 8 * n = k % 8 by omega]
  · rw [if_neg h, if_neg (by omega)]

theorem placed_low {n : Nat} (v : BitVec n) (i : Nat) :
    Placed b (Function.update b i (v.setWidth 8)) (8 * i) 8 v.toNat := by
  intro k
  rw [placed_byte i (v.setWidth 8) k]
  split
  · simpa using (testBit_byte v 0 (j := k - 8 * i) (by omega)).symm
  · rfl

theorem Placed.snoc {n i : Nat} {v : BitVec n} (h : Placed b b' (8 * i) (8 * w) v.toNat) :
    Placed b (Function.update b' (i + w) ((v >>> (8 * w)).setWidth 8)) (8 * i)
      (8 * w + 8) v.toNat := by
  refine h.append ?_ (fun _ _ => rfl) fun j hj => testBit_byte v (8 * w) hj
  rw [← Nat.mul_add]
  exact placed_byte (i + w) _

end

end NctuCourses.Lib
