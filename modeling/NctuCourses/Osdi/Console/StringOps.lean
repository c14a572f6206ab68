import NctuCourses.Osdi.Console.Kbd
import Mathlib.Tactic.IntervalCases
import Mathlib.Tactic.Ring
import Mathlib.Tactic.Positivity

namespace NctuCourses.Osdi.Console

/-- Memory by address. -/
abbrev Ram := Int → Byte

/-- `rep stosl` or `rep stosb`: `count` units, each with the low bytes of `eax`. -/
def repStos (unit d : Int) (eax : Word) (count : Int) (mem : Ram) : Ram := fun a =>
  if d ≤ a ∧ a < d + unit * count then (eax >>> (8 * ((a - d) % unit).toNat)).setWidth 8 else mem a

def memset (v : Int) (c : Word) (n : Int) (mem : Ram) : Ram :=
  if n = 0 then mem
  else if v % 4 = 0 ∧ n % 4 = 0 then
    let c := c &&& 0xFF
    repStos 4 v (c <<< 24 ||| c <<< 16 ||| c <<< 8 ||| c) (n / 4) mem
  else repStos 1 v c n mem

/-- One unit of `rep movs`. -/
def movs (unit d s : Int) (mem : Ram) : Ram :=
  fun a => if d ≤ a ∧ a < d + unit then mem (s + (a - d)) else mem a

/-- `cld; rep movs`. -/
def movsUp (unit : Int) : Nat → Int → Int → Ram → Ram
  | 0, _, _, mem => mem
  | count + 1, d, s, mem => movsUp unit count (d + unit) (s + unit) (movs unit d s mem)

/-- `std; rep movs`. -/
def movsDown (unit : Int) : Nat → Int → Int → Ram → Ram
  | 0, _, _, mem => mem
  | count + 1, d, s, mem => movsDown unit count (d - unit) (s - unit) (movs unit d s mem)

def memmove (dst src n : Int) (mem : Ram) : Ram :=
  if src < dst ∧ src + n > dst then
    let s := src + n
    let d := dst + n
    if s % 4 = 0 ∧ d % 4 = 0 ∧ n % 4 = 0 then movsDown 4 (n / 4).toNat (d - 4) (s - 4) mem
    else movsDown 1 n.toNat (d - 1) (s - 1) mem
  else if src % 4 = 0 ∧ dst % 4 = 0 ∧ n % 4 = 0 then movsUp 4 (n / 4).toNat dst src mem
  else movsUp 1 n.toNat dst src mem

def memcpy (dst src n : Int) (mem : Ram) : Ram := memmove dst src n mem

/-- Every byte of the word that `memset` stores is the low byte of its argument. -/
theorem fill_byte (c : Word) {i : Nat} (hi : i < 4) :
    (((c &&& 0xFF) <<< 24 ||| (c &&& 0xFF) <<< 16 ||| (c &&& 0xFF) <<< 8 ||| (c &&& 0xFF)) >>>
      (8 * i)).setWidth 8 =
      c.setWidth 8 := by
  have hbyte : ∀ k, (c &&& 0xFF).getLsbD k = (decide (k < 8) && c.getLsbD k) := by
    intro k
    have h255 : (0xFF : Word) = BitVec.setWidth 32 (BitVec.allOnes 8) := by decide
    rw [BitVec.getLsbD_and, h255, BitVec.getLsbD_setWidth, BitVec.getLsbD_allOnes]
    by_cases hk : k < 8
    · simp [hk, Nat.lt_trans hk]
    · simp [hk]
  apply BitVec.eq_of_getLsbD_eq
  intro j hj
  simp only [BitVec.getLsbD_setWidth, BitVec.getLsbD_ushiftRight, BitVec.getLsbD_or,
    BitVec.getLsbD_shiftLeft, hbyte]
  -- of the four copies only the one for this byte reaches bit `j`
  interval_cases i <;> grind

theorem memset_apply (v : Int) (c : Word) (n : Int) (mem : Ram) (a : Int) :
    memset v c n mem a = if v ≤ a ∧ a < v + n then c.setWidth 8 else mem a := by
  by_cases h0 : n = 0
  · rw [memset, if_pos h0, if_neg (by omega)]
  · rw [memset, if_neg h0]
    split_ifs with h ha ha
    · rw [repStos, if_pos (by omega), fill_byte c (by omega)]
    · rw [repStos, if_neg (by omega)]
    · rw [repStos, if_pos (by omega), Int.emod_one]
      rfl
    · rw [repStos, if_neg (by omega)]

theorem movsUp_apply {unit : Int} (hunit : 0 ≤ unit) (count : Nat) {d s : Int} (h : d ≤ s)
    (mem : Ram) (a : Int) :
    movsUp unit count d s mem a = if d ≤ a ∧ a < d + unit * count then mem (s + (a - d))
    else mem a := by
  induction count generalizing d s mem with
  | zero => rw [movsUp, if_neg (by simp)]
  | succ count ih =>
    have hmul : unit * ((count + 1 : Nat) : Int) = unit + unit * count := by push_cast; ring
    have hpos : 0 ≤ unit * (count : Int) := by positivity
    rw [movsUp, ih (by omega), hmul]
    simp only [movs]
    split_ifs <;> first | rfl | omega | (congr 1; omega)

theorem memcpy_apply {dst src n : Int} (hn : 0 ≤ n) (h : dst ≤ src) (mem : Ram) (a : Int) :
    memcpy dst src n mem a = if dst ≤ a ∧ a < dst + n then mem (src + (a - dst)) else mem a := by
  rw [memcpy, memmove, if_neg (by omega)]
  split_ifs with h4 ha ha
  · rw [movsUp_apply (by decide) _ h, if_pos (by omega)]
  · rw [movsUp_apply (by decide) _ h, if_neg (by omega)]
  · rw [movsUp_apply (by decide) _ h, if_pos (by omega)]
  · rw [movsUp_apply (by decide) _ h, if_neg (by omega)]

end NctuCourses.Osdi.Console
