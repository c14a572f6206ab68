import NctuCourses.Osdi.Disk.Transfer

namespace NctuCourses.Osdi.Disk

open NctuCourses.Lib

variable {env : Env} {m m' : Machine}

theorem Clean.succ_iff {advancedCheck : Bool} {n i k : Nat} (hk : ReadyAt env i k) :
    (∃ j, Clean env advancedCheck (n + 1) i j) ↔
      Good (env.status (k + extra advancedCheck)) ∧
        ∃ j, Clean env advancedCheck n (k + extra advancedCheck + 1) j := by
  constructor
  · intro ⟨j, h⟩
    cases h with
    | succ hready hgood hrest =>
      obtain rfl := hready.unique hk
      exact ⟨hgood, j, hrest⟩
  · intro ⟨hgood, j, hrest⟩
    exact ⟨j, .succ hk hgood hrest⟩

section Polled

variable (channel slavebit numsects data : BitVec 8) (reg : Reg) (a : Address) (edi : Word)
  (k : Nat)

@[simp] theorem record_readTo_polled :
    ((m.readTo k).record env).polled = m.polled ++ [env.status k] := rfl

@[simp] theorem insw_polled : (m.insw channel edi).polled = m.polled := by
  simp only [Machine.insw]
  split <;> rfl

@[simp] theorem insw_reads : (m.insw channel edi).reads = m.reads := by
  simp only [Machine.insw]
  split <;> rfl

@[simp] theorem outsw_polled : (m.outsw channel edi).polled = m.polled := by
  simp only [Machine.outsw]
  split <;> rfl

@[simp] theorem outsw_reads : (m.outsw channel edi).reads = m.reads := by
  simp only [Machine.outsw]
  split <;> rfl

@[simp] theorem ideWrite_polled : (ideWrite channel reg data m).polled = m.polled := by
  simp only [ideWrite]
  split <;> rfl

@[simp] theorem writeParameters_polled :
    (writeParameters channel slavebit numsects a m).polled = m.polled := by
  simp only [writeParameters]
  split <;> simp

end Polled

/-- No sector of the current call was polled with a status that shows an error. -/
def Machine.AllGood (m : Machine) : Prop := ∀ status ∈ m.polled, Good status

theorem allGood_append {l : List (BitVec 8)} {status : BitVec 8} :
    (∀ b ∈ l ++ [status], Good b) ↔ (∀ b ∈ l, Good b) ∧ Good status := by
  simp only [List.mem_append, List.mem_singleton, or_imp, forall_and, forall_eq]

section Loops

variable {fuel n : Nat} {channel err : BitVec 8} {edi : Word}

theorem pioRead_allGood (h : pioRead env fuel channel edi n m = some (err, m')) :
    m'.AllGood ↔ m.AllGood ∧ ∃ j, Clean env true n m.reads j := by
  induction n generalizing m with
  | zero =>
    cases h
    exact ⟨fun hm => ⟨hm, _, .zero _⟩, And.left⟩
  | succ n ih =>
    rw [pioRead] at h
    obtain ⟨⟨code, m₁⟩, hpoll, h⟩ := Option.bind_eq_some_iff.mp h
    obtain ⟨k, hk, rfl, hcode⟩ := idePolling_inv hpoll
    have hzero : code = 0#8 ↔ Good (env.status (k + 1)) := by
      rw [hcode, if_pos rfl, pollCode_eq_zero]
    rw [Clean.succ_iff hk]
    dsimp only at h
    by_cases hgood : Good (env.status (k + 1))
    · rw [if_neg (not_not.mpr (hzero.mpr hgood))] at h
      rw [ih h, insw_reads, Machine.AllGood, insw_polled, record_readTo_polled,
        allGood_append, and_assoc]
      rfl
    · -- The loop ends here, with the bad status as the last one recorded.
      rw [if_pos (show code ≠ 0#8 from mt hzero.mp hgood)] at h
      cases h
      constructor
      · intro hall
        exact absurd (allGood_append.mp hall).2 hgood
      · intro hall
        exact absurd hall.2.1 hgood

theorem pioWrite_allGood (h : pioWrite env fuel channel edi n m = some m') :
    m'.AllGood ↔ m.AllGood ∧ ∃ j, Clean env false n m.reads j := by
  induction n generalizing m with
  | zero =>
    cases h
    exact ⟨fun hm => ⟨hm, _, .zero _⟩, And.left⟩
  | succ n ih =>
    rw [pioWrite] at h
    obtain ⟨⟨code, m₁⟩, hpoll, h⟩ := Option.bind_eq_some_iff.mp h
    obtain ⟨k, hk, rfl, -⟩ := idePolling_inv hpoll
    rw [Clean.succ_iff hk, ih h, outsw_reads, Machine.AllGood, outsw_polled, record_readTo_polled,
      allGood_append, and_assoc]
    rfl

end Loops

/-- From the first read of the status on, `n` sectors can be polled without an error. -/
def Undisturbed (env : Env) (advancedCheck : Bool) (n i : Nat) : Prop :=
  ∀ k, ReadyAt env i k → ∃ j, Clean env advancedCheck n (k + 1) j

theorem undisturbed_iff {advancedCheck : Bool} {n i k : Nat} (hk : ReadyAt env i k) :
    Undisturbed env advancedCheck n i ↔ ∃ j, Clean env advancedCheck n (k + 1) j := by
  constructor
  · intro h
    exact h k hk
  · intro h k' hk'
    rwa [hk'.unique hk]

section Access

variable {fuel drive : Nat} {numsects err : BitVec 8} {lba edi : Word} {write : Bool}

theorem ideAtaAccess_allGood (hm : m.polled = [])
    (h : ideAtaAccess env fuel write drive lba numsects edi m = some (err, m')) :
    m'.AllGood ↔ Undisturbed env (!write) numsects.toNat m.reads := by
  rw [ideAtaAccess] at h
  obtain ⟨m₁, hwait, h⟩ := Option.bind_eq_some_iff.mp h
  obtain ⟨k, hk, rfl⟩ := waitBusy_inv hwait
  rw [ideWrite_reads] at hk
  rw [undisturbed_iff hk]
  have hstart : (started (env.devices drive) write lba numsects k m).AllGood := by
    simp [Machine.AllGood, started, Machine.readTo, hm]
  have hreads : (started (env.devices drive) write lba numsects k m).reads = k + 1 := by
    simp [started, Machine.readTo]
  cases write with
  | false =>
    have hloop := pioRead_allGood (m := started (env.devices drive) false lba numsects k m) h
    rw [hloop, hreads]
    exact and_iff_right hstart
  | true =>
    obtain ⟨m₂, hpio, h⟩ := Option.bind_eq_some_iff.mp h
    obtain ⟨⟨code, m₃⟩, hpoll, h⟩ := Option.bind_eq_some_iff.mp h
    obtain ⟨l, -, rfl, -⟩ := idePolling_inv hpoll
    cases h
    have hloop := pioWrite_allGood (m := started (env.devices drive) true lba numsects k m) hpio
    rw [hreads] at hloop
    simp only [Machine.AllGood, Machine.readTo, ideWrite_polled] at hloop ⊢
    rw [hloop]
    exact and_iff_right hstart

theorem accessError_allGood (hm : m.polled = [])
    (h : accessError env fuel write drive numsects lba edi m = some (err, m')) :
    m'.AllGood ↔ ((env.devices drive).type = .ata →
      Undisturbed env (!write) numsects.toNat m.reads) := by
  rw [accessError] at h
  cases htype : (env.devices drive).type with
  | ata =>
    simp only [htype] at h
    rw [ideAtaAccess_allGood hm h]
    exact ⟨fun h _ => h, fun h => h rfl⟩
  | atapi =>
    simp only [htype] at h
    cases write with
    | false => cases h
    | true =>
      cases h
      simp [Machine.AllGood, hm]

theorem ideTransferSectors_allGood {r : Int} (hm : m.polled = []) (hdrive : drive ≤ 3)
    (hpresent : (env.devices drive).reserved ≠ 0#8)
    (hbelow : ∀ k < numsects.toNat, lba.toNat + k < (env.devices drive).size.toNat)
    (h : ideTransferSectors write env fuel drive numsects lba edi m = some (r, m')) :
    m'.AllGood ↔ ((env.devices drive).type = .ata →
      Undisturbed env (!write) numsects.toNat m.reads) := by
  rw [ideTransferSectors] at h
  dsimp only at h
  rw [if_neg (not_absent hdrive hpresent)] at h
  split at h
  next hrange =>
    -- The end can be out of range only when there is no sector to transfer.
    have hzero : numsects.toNat = 0 := by
      by_contra hne
      have hlast := hbelow (numsects.toNat - 1) (by omega)
      exact end_le_size (show lba.toNat + numsects.toNat ≤ _ by omega) hrange.1
    cases h
    rw [hzero]
    constructor
    · intro _ _ k _
      exact ⟨k + 1, .zero _⟩
    · intro _
      simp [Machine.AllGood, hm]
  next =>
    obtain ⟨⟨err, m₂⟩, haccess, h⟩ := Option.bind_eq_some_iff.mp h
    cases h
    have hgood := accessError_allGood hm haccess
    exact hgood

end Access

/-- What a file system takes for granted when a transfer is reported as done. -/
structure Reliable (env : Env) (sector count : Word) (m' : Machine) : Prop where
  present : (env.devices diskId).reserved ≠ 0#8
  below : ∀ k < count.toNat, sector.toNat + k < (env.devices diskId).size.toNat
  good : m'.AllGood

/-- A call for sectors of a drive that is there, with a controller that shows no error. The driver
transfers as many sectors as the low byte of `count` says. -/
structure Faultless (env : Env) (advancedCheck : Bool) (sector count : Word) : Prop where
  present : (env.devices diskId).reserved ≠ 0#8
  below : ∀ k < count.toNat, sector.toNat + k < (env.devices diskId).size.toNat
  quiet : (env.devices diskId).type = .ata → Undisturbed env advancedCheck (count.toNat % 256) 0

theorem reliable_iff {fuel : Nat} {write : Bool} {sector count buff : Word} {r : Int}
    (h : ideTransferSectors write env fuel diskId (count.setWidth 8) sector buff m.newCall =
      some (r, m')) :
    Reliable env sector count m' ↔ Faultless env (!write) sector count := by
  have hcount : (count.setWidth 8).toNat = count.toNat % 256 := BitVec.toNat_setWidth 8 count
  have hgood : (env.devices diskId).reserved ≠ 0#8 →
      (∀ k < count.toNat, sector.toNat + k < (env.devices diskId).size.toNat) →
      (m'.AllGood ↔ ((env.devices diskId).type = .ata →
        Undisturbed env (!write) (count.toNat % 256) 0)) := by
    intro hpresent hbelow
    rw [← hcount]
    apply ideTransferSectors_allGood (m := m.newCall) rfl (by decide) hpresent ?_ h
    intro k hk
    apply hbelow k
    omega
  constructor
  · intro hr
    exact ⟨hr.present, hr.below, (hgood hr.present hr.below).mp hr.good⟩
  · intro hf
    exact ⟨hf.present, hf.below, (hgood hf.present hf.below).mpr hf.quiet⟩

/-- A call that returns `RES_OK` can be relied on exactly when there was nothing to report: the
result is the same for every call. -/
theorem ok_reliable (env : Env) (fuel : Nat) (buff sector count : Word) (m : Machine) :
    (∀ r m', diskRead env fuel buff sector count m = some (r, m') →
      ((r = .ok → Reliable env sector count m') ↔ Faultless env true sector count)) ∧
    (∀ r m', diskWrite env fuel buff sector count m = some (r, m') →
      ((r = .ok → Reliable env sector count m') ↔ Faultless env false sector count)) := by
  constructor
  · intro r m' h
    rw [diskRead_eq] at h
    obtain ⟨⟨code, m₁⟩, hsects, he⟩ := Option.map_eq_some_iff.mp h
    cases he
    rw [forall_prop_of_true rfl]
    exact reliable_iff hsects
  · intro r m' h
    rw [diskWrite_eq] at h
    obtain ⟨⟨code, m₁⟩, hsects, he⟩ := Option.map_eq_some_iff.mp h
    cases he
    rw [forall_prop_of_true rfl]
    exact reliable_iff hsects

theorem ok_reliable_quiet : ∃ m', diskRead quietDrive 1 512 7 1 blockNumbers = some (.ok, m') ∧
    Reliable quietDrive 7 1 m' := by
  refine ⟨_, rfl, ((ok_reliable quietDrive 1 512 7 1 blockNumbers).1 .ok _ rfl).mpr ?_ rfl⟩
  refine ⟨by decide, by decide, ?_⟩
  intro _ k _
  exact Clean.of_good quietDrive_ready quietDrive_good true _ (k + 1)

/-- The drive shows an error for the sector, and the read is reported as done. -/
theorem ok_unreliable :
    ∃ m', diskRead { quietDrive with status := fun _ => 0x51 } 1 512 7 1 blockNumbers =
    some (.ok, m') ∧ ¬Reliable { quietDrive with status := fun _ => 0x51 } 7 1 m' := by
  refine ⟨_, rfl, ?_⟩
  intro h
  exact absurd (h.good 0x51 (List.mem_singleton_self _)) (by decide)

end NctuCourses.Osdi.Disk
