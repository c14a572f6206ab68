import Mathlib.Data.BitVec
import Mathlib.Logic.Function.Basic
import Mathlib.Tactic.Common

namespace NctuCourses.Lib.X64

abbrev Word := BitVec 64

abbrev Memory := Word → BitVec 8

/-- The `n` bytes at `a` and the `k` bytes at `b` have none in common. -/
def Apart (a : Word) (n : Nat) (b : Word) (k : Nat) : Prop := n ≤ (b - a).toNat ∧ k ≤ (a - b).toNat

theorem Apart.symm {a b : Word} {n k : Nat} (h : Apart a n b k) : Apart b k a n := ⟨h.2, h.1⟩

theorem Apart.sub {a b a' b' : Word} {n k n' k' : Nat} (h : Apart a n b k) (hn : 0 < n')
    (hk : 0 < k') (ha : (a' - a).toNat + n' ≤ n) (hb : (b' - b).toNat + k' ≤ k) :
    Apart a' n' b' k' := by
  obtain ⟨h1, h2⟩ := h
  constructor
  · bv_omega
  · bv_omega

theorem outside_sub {x a b : Word} {n k : Nat} (h : n ≤ (x - a).toNat)
    (hb : (b - a).toNat + k ≤ n) :
    k ≤ (x - b).toNat := by
  bv_omega

theorem Apart.outside {a b : Word} {n k i : Nat} (h : Apart a n b k) (hi : i < n) :
    k ≤ (a + BitVec.ofNat 64 i - b).toNat := by
  obtain ⟨h1, h2⟩ := h
  bv_omega

namespace Memory

variable (m : Memory)

/-- The number in the `n` bytes at `a`, the lowest byte first. -/
def readLe : Nat → Word → Nat
  | 0, _ => 0
  | n + 1, a => (m a).toNat + 256 * readLe n (a + 1)

def writeLe : Nat → Word → Nat → Memory
  | 0, _, _ => m
  | n + 1, a, v => Function.update (writeLe n (a + 1) (v / 256)) a (BitVec.ofNat 8 v)

def load (a : Word) : Word := BitVec.ofNat 64 (m.readLe 8 a)

def store (a v : Word) : Memory := m.writeLe 8 a v.toNat

variable {m} {m' : Memory} {n : Nat} {a b x v : Word}

theorem writeLe_outside {v : Nat} (hx : n ≤ (x - a).toNat) : m.writeLe n a v x = m x := by
  induction n generalizing a v with
  | zero => rfl
  | succ n ih =>
    have hne : x ≠ a := by
      intro he
      rw [he, BitVec.sub_self] at hx
      simp at hx
    rw [writeLe, Function.update_of_ne hne]
    apply ih
    bv_omega

theorem readLe_congr (h : ∀ i < n, m (a + BitVec.ofNat 64 i) = m' (a + BitVec.ofNat 64 i)) :
    m.readLe n a = m'.readLe n a := by
  induction n generalizing a with
  | zero => rfl
  | succ n ih =>
    have h0 := h 0 (by omega)
    rw [BitVec.add_zero] at h0
    rw [readLe, readLe, h0, ih]
    intro i hi
    have h1 := h (i + 1) (by omega)
    rwa [BitVec.ofNat_add, BitVec.add_comm (BitVec.ofNat 64 i), ← BitVec.add_assoc] at h1

theorem readLe_writeLe {v : Nat} (hn : n ≤ 2 ^ 64) :
    (m.writeLe n a v).readLe n a = v % 256 ^ n := by
  induction n generalizing a v with
  | zero => simp [readLe, Nat.mod_one]
  | succ n ih =>
    have hrest : (m.writeLe (n + 1) a v).readLe n (a + 1) = (m.writeLe n (a + 1) (v / 256)).readLe n
        (a + 1) := by
      apply readLe_congr
      intro i hi
      apply Function.update_of_ne
      bv_omega
    rw [readLe, hrest, ih (by omega), writeLe, Function.update_self, BitVec.toNat_ofNat,
      show 256 ^ (n + 1) = 256 * 256 ^ n from Nat.pow_succ', Nat.mod_mul]

theorem store_outside (hx : 8 ≤ (x - a).toNat) : m.store a v x = m x := writeLe_outside hx

@[simp] theorem load_store_self : (m.store a v).load a = v := by
  rw [load, store, readLe_writeLe (by omega)]
  apply BitVec.eq_of_toNat_eq
  rw [BitVec.toNat_ofNat]
  omega

end Memory

/-- The `n` bytes at `a` are the same. -/
def Agree (m m' : Memory) (a : Word) (n : Nat) : Prop :=
  ∀ i < n, m (a + BitVec.ofNat 64 i) = m' (a + BitVec.ofNat 64 i)

namespace Agree

variable {m m' m'' : Memory} {a b v : Word} {n : Nat}

theorem refl (m : Memory) (a : Word) (n : Nat) : Agree m m a n := fun _ _ => rfl

theorem sub {k : Nat} (h : Agree m m' a n) (hb : (b - a).toNat + k ≤ n) : Agree m m' b k := by
  intro i hi
  have hi := h ((b - a).toNat + i) (by omega)
  rwa [BitVec.ofNat_add, BitVec.ofNat_toNat, BitVec.setWidth_eq, ← BitVec.add_assoc,
    BitVec.add_comm a, BitVec.sub_add_cancel] at hi

theorem load (h : Agree m m' a n) (hb : (b - a).toNat + 8 ≤ n) : m.load b = m'.load b := by
  rw [Memory.load, Memory.load, Memory.readLe_congr (h.sub hb)]

theorem store (m : Memory) (v : Word) (h : Apart a n b 8) : Agree (m.store b v) m a n := by
  intro i hi
  apply Memory.store_outside
  exact h.outside hi

end Agree

theorem Memory.load_store_apart {m : Memory} {a b v : Word} (h : Apart a 8 b 8) :
    (m.store b v).load a = m.load a :=
  (Agree.store m v h).load (by simp)

-- From here on memory is known by the lemmas above only.
attribute [irreducible] Memory.load Memory.store

end NctuCourses.Lib.X64
