import Mathlib.Data.List.Nodup
import Mathlib.Tactic
import NctuCourses.Lib.Fuel

namespace NctuCourses.Lib

/-- The numbers `i`, `i + k`, `i + 2 k`, … below `n`. -/
def indices (i k n : Nat) : List Nat := List.range' i ((n - i + (k - 1)) / k) k

section

variable {i k n : Nat}

theorem indices_of_ge (hk : 0 < k) (h : n ≤ i) : indices i k n = [] := by
  have hlen : (n - i + (k - 1)) / k = 0 := by
    rw [Nat.sub_eq_zero_of_le h]
    exact Nat.div_eq_of_lt (by omega)
  rw [indices, hlen, List.range'_zero]

theorem indices_of_lt (hk : 0 < k) (h : i < n) : indices i k n = i :: indices (i + k) k n := by
  have hlen : (n - i + (k - 1)) / k = (n - (i + k) + (k - 1)) / k + 1 := by
    by_cases hik : i + k ≤ n
    · rw [← Nat.add_div_right _ hk]
      congr 1
      omega
    · rw [Nat.sub_eq_zero_of_le (by omega : n ≤ i + k), Nat.div_eq_of_lt
        (by omega : 0 + (k - 1) < k)]
      exact Nat.div_eq_of_lt_le (by omega) (by omega)
  rw [indices, hlen, List.range'_succ]
  rfl

theorem mem_indices (hk : 0 < k) {j : Nat} :
    j ∈ indices i k n ↔ i ≤ j ∧ j < n ∧ (j - i) % k = 0 := by
  rw [indices, List.mem_range']
  constructor
  · intro ⟨t, ht, hj⟩
    have hlt : k * t + k ≤ n - i + (k - 1) := by
      have := (Nat.le_div_iff_mul_le hk).mp ht
      rw [Nat.succ_mul, Nat.mul_comm] at this
      exact this
    refine ⟨by omega, by omega, ?_⟩
    rw [hj, Nat.add_sub_cancel_left, Nat.mul_mod_right]
  · intro ⟨hij, hjn, hmod⟩
    have hdiv := Nat.div_add_mod (j - i) k
    refine ⟨(j - i) / k, ?_, by omega⟩
    rw [Nat.lt_iff_add_one_le, Nat.le_div_iff_mul_le hk, Nat.add_mul, Nat.mul_comm]
    omega

theorem nodup_indices (hk : 0 < k) : (indices i k n).Nodup := List.nodup_range' k hk

theorem pairwise_indices (hk : 0 < k) : (indices i k n).Pairwise (· < ·) :=
  List.pairwise_lt_range' k hk

theorem indices_zero_one (n : Nat) : indices 0 1 n = List.range n := by
  rw [indices, List.range_eq_range']
  simp

/-- A progression is shared out, element by element in turn, among `m`
progressions of `m` times its step. -/
theorem indices_perm (hk : 0 < k) {m : Nat} (hm : 0 < m) :
    ((List.range m).flatMap fun r => indices (i + k * r) (k * m) n).Perm (indices i k n) := by
  have hkm : 0 < k * m := Nat.mul_pos hk hm
  have hturn : ∀ {r j}, r < m → j ∈ indices (i + k * r) (k * m) n →
      ∃ q, j = i + k * (r + m * q) := by
    intro r j hr hj
    obtain ⟨hle, _, h0⟩ := (mem_indices hkm).mp hj
    obtain ⟨q, hq⟩ := Nat.dvd_of_mod_eq_zero h0
    refine ⟨q, ?_⟩
    rw [Nat.mul_add, ← Nat.mul_assoc]
    omega
  apply (List.perm_ext_iff_of_nodup ?_ (nodup_indices hk)).mpr
  · intro j
    rw [List.mem_flatMap, mem_indices hk]
    constructor
    · intro ⟨r, hr, hj⟩
      obtain ⟨q, rfl⟩ := hturn (List.mem_range.mp hr) hj
      refine ⟨by omega, ((mem_indices hkm).mp hj).2.1, ?_⟩
      rw [Nat.add_sub_cancel_left, Nat.mul_mod_right]
    · intro ⟨hij, hjn, h0⟩
      obtain ⟨t, ht⟩ := Nat.dvd_of_mod_eq_zero h0
      have hsplit : k * t = k * (t % m) + k * m * (t / m) := by
        rw [Nat.mul_assoc, ← Nat.mul_add, Nat.mod_add_div]
      refine ⟨t % m, List.mem_range.mpr (Nat.mod_lt t hm), (mem_indices hkm).mpr
        ⟨by omega, hjn, ?_⟩⟩
      rw [show j - (i + k * (t % m)) = k * m * (t / m) by omega, Nat.mul_mod_right]
  · rw [List.nodup_flatMap]
    refine ⟨fun _ _ => nodup_indices hkm, ?_⟩
    apply List.Nodup.pairwise_of_forall_ne List.nodup_range
    intro r hr r' hr' hne j hj hj'
    have hrm := List.mem_range.mp hr
    have hrm' := List.mem_range.mp hr'
    obtain ⟨q, hq⟩ := hturn hrm hj
    obtain ⟨q', hq'⟩ := hturn hrm' hj'
    have heq : r + m * q = r' + m * q' := Nat.eq_of_mul_eq_mul_left hk (by omega)
    have hmod := congrArg (· % m) heq
    simp only [Nat.add_mul_mod_self_left, Nat.mod_eq_of_lt hrm, Nat.mod_eq_of_lt hrm'] at hmod
    exact hne hmod

end

/-- `for (; i < n; i += k) step(i)` over a `w`-bit unsigned counter. -/
def strideLoop {σ : Type*} (w : Nat) (step : σ → Nat → Option σ) (k n : Nat) :
    Nat → Nat → σ → Option σ
  | 0, _, _ => none
  | fuel + 1, i, s =>
    if i < n then (step s i).bind (strideLoop w step k n fuel ((i + k) % 2 ^ w)) else some s

/-- A loop whose counter cannot wrap takes the numbers of its progression one after the other. -/
theorem strideLoop_converges {σ : Type*} {w k n : Nat} {step : σ → Nat → Option σ} (hk : 0 < k)
    (hw : n + k ≤ 2 ^ w) {i : Nat} {s t : σ} (h : (indices i k n).foldlM step s = some t) :
    Converges (fun fuel => strideLoop w step k n fuel i s) t := by
  induction hd : n - i using Nat.strong_induction_on generalizing i s with
  | _ d ih =>
    by_cases hi : i < n
    · rw [indices_of_lt hk hi, List.foldlM_cons] at h
      obtain ⟨u, hu, hrest⟩ := Option.bind_eq_some_iff.mp h
      have hnext := ih (n - (i + k)) (by omega) hrest rfl
      apply hnext.succ
      intro fuel
      change (if i < n then (step s i).bind (strideLoop w step k n fuel ((i + k) % 2 ^ w))
        else some s) = _
      rw [if_pos hi, hu, Nat.mod_eq_of_lt (by omega)]
      rfl
    · rw [indices_of_ge hk (by omega)] at h
      apply Converges.succ (g := fun _ => some t) ?_ (.pure t)
      intro fuel
      change (if i < n then (step s i).bind (strideLoop w step k n fuel ((i + k) % 2 ^ w))
        else some s) = _
      rw [if_neg hi]
      exact h

end NctuCourses.Lib
