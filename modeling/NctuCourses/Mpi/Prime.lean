import Mathlib.NumberTheory.PrimeCounting
import NctuCourses.Lib.Cint
import NctuCourses.Lib.Stride

namespace NctuCourses.Mpi

open NctuCourses.Lib

/-- The loop of `isprime` from the divisor `i` on. -/
def noDivisorFrom (n i : Nat) : Bool :=
  if i ≤ Nat.sqrt n then if n % i = 0 then false else noDivisorFrom n (i + 2) else true
termination_by Nat.sqrt n + 1 - i

def isprime (n : Nat) : Bool := if 10 < n then noDivisorFrom n 3 else false

/-- One turn of the loop of a rank: the primes so far and the last of them. -/
def tally (s : Int × Nat) (n : Nat) : Option (Int × Nat) :=
  if isprime n then (cint (s.1 + 1)).map fun pc => (pc, n) else some s

/-- What a rank has in `pc` and `result` after its loop. The bounds of the loop are computed in
`int`, the second of them only once the loop is entered. -/
def scan (size limit rank : Nat) (fuel : Nat) : Option (Int × Nat) :=
  (cint (rank * 2)).bind fun twice => (cint (11 + twice)).bind fun first =>
    if first.toNat ≤ limit then
      (cint (2 * size)).bind fun stride =>
        strideLoop 64 tally stride.toNat (limit + 1) fuel first.toNat (0, 11)
    else some (0, 11)

/-- The candidates of a rank. -/
def candidates (size limit rank : Nat) : List Nat := indices (11 + 2 * rank) (2 * size) (limit + 1)

theorem noDivisorFrom_eq_true {n i : Nat} (hi : i % 2 = 1) :
    noDivisorFrom n i = true ↔ ∀ j, i ≤ j → j % 2 = 1 → j ≤ Nat.sqrt n → ¬ j ∣ n := by
  fun_induction noDivisorFrom n i with
  | case1 i hle h0 =>
    refine ⟨fun h => absurd h (by decide), ?_⟩
    intro h
    exact absurd (Nat.dvd_of_mod_eq_zero h0) (h i (le_refl i) hi hle)
  | case2 i hle h0 ih =>
    rw [ih (by omega)]
    constructor
    · intro h j hij hj hjn
      by_cases hj' : j = i
      · rw [hj', Nat.dvd_iff_mod_eq_zero]
        exact h0
      · exact h j (by omega) hj hjn
    · intro h j hij
      exact h j (by omega)
  | case3 i hgt =>
    refine ⟨fun _ j hij _ hjn => absurd (hij.trans hjn) hgt, fun _ => rfl⟩

/-- Odd trial division up to the square root decides primality of the odd numbers above 10. -/
theorem isprime_iff {n : Nat} (hn : 10 < n) (hodd : n % 2 = 1) : isprime n = true ↔ n.Prime := by
  rw [isprime, if_pos hn, noDivisorFrom_eq_true (by decide), Nat.prime_def_le_sqrt]
  constructor
  · intro h
    refine ⟨by omega, ?_⟩
    intro m hm hle hdvd
    obtain ⟨c, rfl⟩ := hdvd
    have hm2 : m % 2 = 1 := by
      by_contra heven
      have hzero : m % 2 = 0 := by omega
      rw [Nat.mul_mod, hzero, Nat.zero_mul] at hodd
      exact absurd hodd (by decide)
    exact h m (by omega) hm2 hle ⟨c, rfl⟩
  · intro ⟨_, h⟩ j hj _ hle
    exact h j (by omega) hle

theorem foldl_last_eq_max {l : List Nat} {p : Nat → Bool} (hl : l.Pairwise (· < ·)) {m : Nat}
    (hm : ∀ n ∈ l, m ≤ n) :
    l.foldl (fun r n => if p n then n else r) m = (l.filter p).foldl max m := by
  induction l generalizing m with
  | nil => rfl
  | cons n l ih =>
    rw [List.pairwise_cons] at hl
    rw [List.foldl_cons]
    by_cases hp : p n
    · rw [List.filter_cons_of_pos hp, List.foldl_cons, if_pos hp,
        Nat.max_eq_right (hm n List.mem_cons_self)]
      exact ih hl.2 fun j hj => (hl.1 j hj).le
    · rw [List.filter_cons_of_neg hp, if_neg hp]
      exact ih hl.2 fun j hj => hm j (List.mem_cons_of_mem _ hj)

theorem foldlM_tally (l : List Nat) {pc : Int} (result : Nat) (h0 : 0 ≤ pc)
    (h : pc + (l.countP isprime : Nat) < 2 ^ 31) :
    l.foldlM tally (pc, result) =
      some (pc + (l.countP isprime : Nat), l.foldl (fun r n => if isprime n then n else r)
        result) := by
  induction l generalizing pc result with
  | nil => simp
  | cons n l ih =>
    rw [List.foldlM_cons, List.foldl_cons, tally]
    by_cases hp : isprime n
    · rw [List.countP_cons_of_pos hp] at h ⊢
      rw [if_pos hp, if_pos hp, cint_some.mpr ⟨rfl, by omega, by push_cast at h; omega⟩]
      change l.foldlM tally (pc + 1, n) = _
      rw [ih n (by omega) (by push_cast at h ⊢; omega)]
      congr 2
      push_cast
      omega
    · rw [List.countP_cons_of_neg hp] at h ⊢
      rw [if_neg hp, if_neg hp]
      exact ih result h0 h

/-- The part of a rank: how many of its candidates are prime, and the greatest of these. -/
def part (size limit rank : Nat) : Int × Nat :=
  (((candidates size limit rank).countP isprime : Nat),
    ((candidates size limit rank).filter isprime).foldl max 11)

theorem scan_eq {size rank : Nat} (hfit : size + 5 ≤ 2 ^ 30) (hrank : rank < size)
    (limit fuel : Nat) :
    scan size limit rank fuel =
      if 11 + 2 * rank ≤ limit then strideLoop 64 tally (2 * size) (limit + 1) fuel
        (11 + 2 * rank) (0, 11)
      else some (0, 11) := by
  have hfirst : (11 + (rank : Int) * 2).toNat = 11 + 2 * rank := by omega
  have hstride : (2 * (size : Int)).toNat = 2 * size := by omega
  unfold scan
  rw [cint_some.mpr ⟨rfl, by omega, by omega⟩, Option.bind_some,
    cint_some.mpr ⟨rfl, by omega, by omega⟩, Option.bind_some, hfirst,
    cint_some.mpr ⟨rfl, by omega, by omega⟩, Option.bind_some, hstride]

theorem scan_converges {size limit rank : Nat} (hfit : size + 5 ≤ 2 ^ 30) (hrank : rank < size)
    (hlimit : limit + 2 * size < 2 ^ 64) (hcount : (part size limit rank).1 < 2 ^ 31) :
    Converges (scan size limit rank) (part size limit rank) := by
  have hcount' : (((candidates size limit rank).countP isprime : Nat) : Int) < 2 ^ 31 := hcount
  rw [funext (scan_eq hfit hrank limit)]
  by_cases hle : 11 + 2 * rank ≤ limit
  · simp only [if_pos hle]
    apply strideLoop_converges (by omega) (by omega)
    have hfold := foldlM_tally (candidates size limit rank) 11 (le_refl 0) (by omega)
    have hlast := foldl_last_eq_max (p := isprime) (m := 11)
      (pairwise_indices (i := 11 + 2 * rank) (k := 2 * size) (n := limit + 1) (by omega))
        fun n hn => by
        have := ((mem_indices (by omega)).mp hn).1
        omega
    rw [Int.zero_add] at hfold
    exact hfold.trans (congrArg (fun r => some (_, r)) hlast)
  · simp only [if_neg hle]
    have hnil : candidates size limit rank = [] := indices_of_ge (by omega) (by omega)
    rw [part, hnil]
    exact .pure _

/-- From rank `2 ^ 30 - 5` on the first candidate is beyond `int`. -/
theorem scan_overflow {size limit rank : Nat} (h : 2 ^ 30 ≤ rank + 5) (fuel : Nat) :
    scan size limit rank fuel = none := by
  have hno : ∀ x : Int, 2 ^ 31 ≤ x → cint x = none := fun x hx => if_neg (by omega)
  unfold scan
  cases htwice : cint (rank * 2) with
  | none => rfl
  | some twice =>
    rw [Option.bind_some, ← (cint_some.mp htwice).1, hno _ (by omega)]
    rfl

/-- The candidates of the ranks below `i`. -/
def candidatesBelow (size limit i : Nat) : List Nat :=
  (List.range i).flatMap (candidates size limit)

theorem candidatesBelow_succ (size limit i : Nat) :
    candidatesBelow size limit (i + 1) = candidatesBelow size limit i ++
      candidates size limit i := by
  rw [candidatesBelow, List.range_succ, List.flatMap_append]
  simp [candidatesBelow]

/-- All ranks together test the odd numbers from 11 to the limit, each once. -/
theorem candidatesBelow_perm {size : Nat} (hsize : 1 ≤ size) (limit : Nat) :
    (candidatesBelow size limit size).Perm (indices 11 2 (limit + 1)) :=
  indices_perm (by decide) hsize

theorem isprime_of_mem {limit n : Nat} (h : n ∈ indices 11 2 (limit + 1)) :
    isprime n = true ↔ n.Prime := by
  obtain ⟨hle, _, h0⟩ := (mem_indices (by decide)).mp h
  exact isprime_iff (by omega) (by omega)

/-- The primes up to the limit are the four below 11 and the prime candidates. -/
theorem primes_perm {limit : Nat} (hlimit : 11 ≤ limit) :
    ((List.range (limit + 1)).filter fun n => n.Prime).Perm
      ([2, 3, 5, 7] ++ (indices 11 2 (limit + 1)).filter isprime) := by
  have hge : ∀ {n}, n ∈ (indices 11 2 (limit + 1)).filter isprime → 11 ≤ n := fun h =>
    ((mem_indices (by decide)).mp (List.mem_of_mem_filter h)).1
  apply (List.perm_ext_iff_of_nodup (List.nodup_range.filter _) ?_).mpr
  · intro n
    rw [List.mem_filter, List.mem_append, List.mem_filter, List.mem_range, decide_eq_true_eq]
    by_cases hsmall : n < 11
    · have hnot : n ∉ indices 11 2 (limit + 1) := fun h => by
        have := ((mem_indices (by decide)).mp h).1
        omega
      have hlt : n < limit + 1 := by omega
      simp only [hlt, true_and, hnot, false_and, or_false]
      interval_cases n <;> decide
    · have hlist : n ∉ [2, 3, 5, 7] := by simp; omega
      simp only [hlist, false_or]
      constructor
      · intro ⟨hlt, hp⟩
        have hodd : n % 2 = 1 := (hp.eq_two_or_odd).resolve_left (by omega)
        have hmem : n ∈ indices 11 2 (limit + 1) :=
          (mem_indices (by decide)).mpr ⟨by omega, hlt, by omega⟩
        exact ⟨hmem, (isprime_of_mem hmem).mpr hp⟩
      · intro ⟨hmem, hp⟩
        exact ⟨((mem_indices (by decide)).mp hmem).2.1, (isprime_of_mem hmem).mp hp⟩
  · rw [List.nodup_append]
    refine ⟨by decide, (nodup_indices (by decide)).filter _, ?_⟩
    intro a ha b hb hab
    have := hge hb
    simp at ha
    omega

/-- With the four primes that no rank tests, the counts of all ranks are the number of primes. -/
theorem countP_candidates {size limit : Nat} (hsize : 1 ≤ size) (hlimit : 11 ≤ limit) :
    (candidatesBelow size limit size).countP isprime + 4 = limit.primeCounting := by
  have hcount : limit.primeCounting = ((List.range (limit + 1)).filter fun n =>
      n.Prime).length := by
    rw [Nat.primeCounting, Nat.primeCounting', Nat.count_eq_card_filter_range]
    rfl
  rw [hcount, (primes_perm hlimit).length_eq, (candidatesBelow_perm hsize limit).countP_eq,
    List.countP_eq_length_filter, List.length_append, Nat.add_comm]
  rfl

end NctuCourses.Mpi
