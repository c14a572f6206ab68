import NctuCourses.Lib.Fuel
import NctuCourses.Osdi.Disk.Ide

namespace NctuCourses.Osdi.Disk

open NctuCourses.Lib

/-- A status that shows no error and that data can be transferred. -/
def Good (status : BitVec 8) : Prop :=
  status &&& srErr = 0#8 ∧ status &&& srDf = 0#8 ∧ status &&& srDrq ≠ 0#8
  deriving Decidable

/-- Read from number `i` on, the status is busy up to number `k`. -/
structure ReadyAt (env : Env) (i k : Nat) : Prop where
  le : i ≤ k
  ready : env.status k &&& srBsy = 0#8
  busy : ∀ j, i ≤ j → j < k → env.status j &&& srBsy ≠ 0#8

/-- How often a polling reads the status after the first that is not busy. -/
def extra (advancedCheck : Bool) : Nat := if advancedCheck then 1 else 0

/-- Polled `n` times from read number `i` on, the controller shows no error;
the next read is number `j`. -/
inductive Clean (env : Env) (advancedCheck : Bool) : Nat → Nat → Nat → Prop
  | zero (i : Nat) : Clean env advancedCheck 0 i i
  | succ {n i k j : Nat} (hready : ReadyAt env i k)
      (hgood : Good (env.status (k + extra advancedCheck)))
      (hrest : Clean env advancedCheck n (k + extra advancedCheck + 1) j) :
      Clean env advancedCheck (n + 1) i j

namespace Machine

/-- The machine after read number `k` of the status. -/
def readTo (m : Machine) (k : Nat) : Machine := { m with reads := k + 1 }

end Machine

variable {env : Env} {m m' : Machine}

theorem ReadyAt.unique {i k k' : Nat} (h : ReadyAt env i k) (h' : ReadyAt env i k') : k = k' := by
  by_contra hne
  cases Nat.lt_or_gt_of_ne hne with
  | inl hlt => exact h'.busy k h.le hlt h.ready
  | inr hlt => exact h.busy k' h'.le hlt h'.ready

theorem ReadyAt.rfl {i : Nat} (h : env.status i &&& srBsy = 0#8) : ReadyAt env i i :=
  ⟨le_rfl, h, fun j hj hlt => absurd hj (by omega)⟩

theorem Clean.of_good (hready : ∀ i, env.status i &&& srBsy = 0#8)
    (hgood : ∀ i, Good (env.status i)) (advancedCheck : Bool) (n i : Nat) :
    ∃ j, Clean env advancedCheck n i j := by
  induction n generalizing i with
  | zero => exact ⟨i, .zero i⟩
  | succ n ih =>
    obtain ⟨j, hj⟩ := ih (i + extra advancedCheck + 1)
    exact ⟨j, .succ (.rfl (hready i)) (hgood _) hj⟩

theorem waitBusy_succ (env : Env) (fuel : Nat) (m : Machine) :
    waitBusy env (fuel + 1) m =
      if env.status m.reads &&& srBsy ≠ 0#8 then waitBusy env fuel (m.readTo m.reads)
      else some (m.readTo m.reads) := rfl

theorem waitBusy_inv {fuel : Nat} (h : waitBusy env fuel m = some m') :
    ∃ k, ReadyAt env m.reads k ∧ m' = m.readTo k := by
  induction fuel generalizing m with
  | zero => cases h
  | succ fuel ih =>
    rw [waitBusy_succ] at h
    split at h
    next hbusy =>
      obtain ⟨k, hk, rfl⟩ := ih h
      have hle : m.reads + 1 ≤ k := hk.le
      refine ⟨k, ⟨by omega, hk.ready, ?_⟩, rfl⟩
      intro j hj hjk
      by_cases he : j = m.reads
      · rw [he]
        exact hbusy
      · exact hk.busy j (show m.reads + 1 ≤ j by omega) hjk
    next hready =>
      obtain rfl := Option.some.inj h
      exact ⟨m.reads, .rfl (not_not.mp hready), rfl⟩

theorem waitBusy_converges {k : Nat} (h : ReadyAt env m.reads k) :
    Converges (fun fuel => waitBusy env fuel m) (m.readTo k) := by
  obtain ⟨n, hn⟩ : ∃ n, k = m.reads + n := ⟨k - m.reads, by have := h.le; omega⟩
  induction n generalizing m with
  | zero =>
    refine ⟨1, fun fuel hfuel => ?_⟩
    obtain ⟨fuel, rfl⟩ : ∃ j, fuel = j + 1 := ⟨fuel - 1, by omega⟩
    obtain rfl : k = m.reads := by omega
    change waitBusy env (fuel + 1) m = _
    rw [waitBusy_succ, if_neg (not_not.mpr h.ready)]
  | succ n ih =>
    have hbusy := h.busy m.reads le_rfl (by omega)
    have hrest : ReadyAt env (m.readTo m.reads).reads k :=
      ⟨show m.reads + 1 ≤ k by omega, h.ready, fun j hj => h.busy j (show m.reads ≤ j from by
        have : m.reads + 1 ≤ j := hj
        omega)⟩
    have hstep : ∀ fuel, waitBusy env (fuel + 1) m = waitBusy env fuel (m.readTo m.reads) := by
      intro fuel
      rw [waitBusy_succ, if_pos hbusy]
    exact Converges.succ hstep (ih hrest (show k = m.reads + 1 + n by omega))

theorem pollCode_eq_zero {status : BitVec 8} : pollCode status = 0#8 ↔ Good status := by
  rw [pollCode, Good]
  by_cases h1 : status &&& srErr = 0#8
  · by_cases h2 : status &&& srDf = 0#8
    · by_cases h3 : status &&& srDrq = 0#8
      · simp [h1, h2, h3]
      · simp [h1, h2, h3]
    · simp [h1, h2]
  · simp [h1]

theorem idePolling_eq (env : Env) (fuel : Nat) (advancedCheck : Bool) (m : Machine) :
    idePolling env fuel advancedCheck m = (waitBusy env fuel m).map fun m =>
      (if advancedCheck then pollCode (env.status m.reads) else 0,
        { m with reads := m.reads + extra advancedCheck }) := by
  cases hw : waitBusy env fuel m with
  | none => simp [idePolling, hw]
  | some m₁ =>
    cases advancedCheck with
    | false => simp [idePolling, hw, extra]
    | true =>
      simp only [idePolling, hw, Option.bind_eq_bind, Option.bind_some, readStatus, extra, if_true,
        Option.map_some]

theorem idePolling_inv {fuel : Nat} {advancedCheck : Bool} {err : BitVec 8}
    (h : idePolling env fuel advancedCheck m = some (err, m')) :
    ∃ k, ReadyAt env m.reads k ∧ m' = m.readTo (k + extra advancedCheck) ∧
      err = if advancedCheck then pollCode (env.status (k + 1)) else 0 := by
  rw [idePolling_eq] at h
  obtain ⟨m₁, hw, he⟩ := Option.map_eq_some_iff.mp h
  obtain ⟨k, hk, rfl⟩ := waitBusy_inv hw
  cases he
  refine ⟨k, hk, ?_, rfl⟩
  simp only [Machine.readTo]
  congr 1
  omega

theorem idePolling_converges {k : Nat} (h : ReadyAt env m.reads k) (advancedCheck : Bool) :
    Converges (fun fuel => idePolling env fuel advancedCheck m)
      (if advancedCheck then pollCode (env.status (k + 1)) else 0,
        m.readTo (k + extra advancedCheck)) := by
  have hw := (waitBusy_converges h).map fun m =>
      (if advancedCheck then pollCode (env.status m.reads) else 0,
        { m with reads := m.reads + extra advancedCheck })
  simp only [idePolling_eq]
  have hm : { m.readTo k with reads := (m.readTo k).reads + extra advancedCheck } =
      m.readTo (k + extra advancedCheck) := by
    simp only [Machine.readTo]
    congr 1
    omega
  rw [hm] at hw
  exact hw

end NctuCourses.Osdi.Disk
