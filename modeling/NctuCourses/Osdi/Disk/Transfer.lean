import NctuCourses.Osdi.Disk.Address
import NctuCourses.Osdi.Disk.Polling

namespace NctuCourses.Osdi.Disk

open NctuCourses.Lib

variable {env : Env}

theorem overlay_overlay (mem : Word → BitVec 8) (a : Word) (s s' : Sector) :
    overlay (overlay mem a s) a s' = overlay mem a s' := by
  funext x
  by_cases h : (x - a).toNat < 512
  · simp only [overlay, dif_pos h]
  · simp only [overlay, dif_neg h]

theorem overlay_of_lt (mem : Word → BitVec 8) (a : Word) (s : Sector) {j : Nat} (h : j < 512) :
    overlay mem a s (a + BitVec.ofNat 32 j) = s ⟨j, h⟩ := by
  have hj : (a + BitVec.ofNat 32 j - a).toNat = j := by
    rw [add_sub_cancel_left, BitVec.toNat_ofNat]
    omega
  simp only [overlay, hj, h, dif_pos]

theorem overlay_of_ge (mem : Word → BitVec 8) (a : Word) (s : Sector) {j : Nat} (h : 512 ≤ j)
    (hj : j < 2 ^ 32) :
    overlay mem a s (a + BitVec.ofNat 32 j) = mem (a + BitVec.ofNat 32 j) := by
  have hj : (a + BitVec.ofNat 32 j - a).toNat = j := by
    rw [add_sub_cancel_left, BitVec.toNat_ofNat]
    omega
  rw [overlay, dif_neg (by omega)]

/-- The disks after `n` sectors from `next` on have all been written with `s`. -/
def filled (disks : BitVec 8 → Bool → Nat → Sector) (channel : BitVec 8) (slave : Bool)
    (next n : Nat) (s : Sector) : BitVec 8 → Bool → Nat → Sector := fun c sl i =>
  if c = channel ∧ sl = slave ∧ next ≤ i ∧ i < next + n then s else disks c sl i

theorem filled_filled (disks : BitVec 8 → Bool → Nat → Sector) (channel : BitVec 8) (slave : Bool)
    (next n : Nat) (s : Sector) :
    filled (filled disks channel slave next 1 s) channel slave (next + 1) n s =
      filled disks channel slave next (n + 1) s := by
  funext c sl i
  simp only [filled]
  by_cases hd : c = channel ∧ sl = slave
  · obtain ⟨rfl, rfl⟩ := hd
    simp only [true_and]
    split_ifs <;> first | rfl | omega
  · rw [if_neg fun h => hd ⟨h.1, h.2.1⟩, if_neg fun h => hd ⟨h.1, h.2.1⟩, if_neg fun h =>
      hd ⟨h.1, h.2.1⟩]

theorem insw_eq {m : Machine} {channel : BitVec 8} {t : Transfer} (edi : Word)
    (ht : m.transfer channel = t) (hread : t.write = false) (hleft : 0 < t.left) :
    m.insw channel edi = { m with
      mem := overlay m.mem edi (m.disks channel t.slave t.next)
      transfer := Function.update m.transfer channel
        { t with next := t.next + 1, left := t.left - 1 } } := by
  simp only [Machine.insw, ht]
  rw [if_pos ⟨hread, hleft⟩]

theorem outsw_eq {m : Machine} {channel : BitVec 8} {t : Transfer} (edi : Word)
    (ht : m.transfer channel = t) (hwrite : t.write = true) (hleft : 0 < t.left) :
    m.outsw channel edi = { m with
      disks := filled m.disks channel t.slave t.next 1 (sectorAt m.mem edi)
      transfer := Function.update m.transfer channel
        { t with next := t.next + 1, left := t.left - 1 } } := by
  have hdisks : (fun c s n => if c = channel ∧ s = t.slave ∧ n = t.next then sectorAt m.mem edi
      else m.disks c s n) = filled m.disks channel t.slave t.next 1 (sectorAt m.mem edi) := by
    funext c s n
    have hn : n = t.next ↔ t.next ≤ n ∧ n < t.next + 1 := by omega
    simp only [filled, hn]
  simp only [Machine.outsw, ht]
  rw [if_pos ⟨hwrite, hleft⟩, hdisks]

/-- The loop of a PIO read leaves the last sector at `edi`, whatever their number. -/
theorem pioRead_converges {channel : BitVec 8} {n i j : Nat} {m : Machine} {t : Transfer}
    (edi : Word) (ht : m.transfer channel = t) (hread : t.write = false) (hleft : n ≤ t.left)
    (hi : m.reads = i) (h : Clean env true n i j) :
    ∃ m', Converges (fun fuel => pioRead env fuel channel edi n m) (0, m') ∧ m'.disks = m.disks ∧
      m'.mem = if n = 0 then m.mem else overlay m.mem edi
        (m.disks channel t.slave (t.next + n - 1)) := by
  induction h generalizing m t with
  | zero i => exact ⟨m, Converges.pure _, rfl, rfl⟩
  | @succ n i k j hready hgood _ ih =>
    have hpoll := idePolling_converges (hi ▸ hready) true
    have hcode : pollCode (env.status (k + 1)) = 0#8 := pollCode_eq_zero.mpr hgood
    rw [if_pos rfl, hcode] at hpoll
    have hins := insw_eq (m := (m.readTo (k + 1)).record env) edi ht hread (by omega)
    obtain ⟨m', hconv, hdisks, hmem⟩ := @ih (((m.readTo (k + 1)).record env).insw channel edi)
      { t with next := t.next + 1, left := t.left - 1 } (by rw [hins]; simp) hread
      (show n ≤ t.left - 1 by omega) (by rw [hins]; rfl)
    rw [hins] at hdisks hmem
    refine ⟨m', ?_, hdisks, ?_⟩
    · exact hpoll.bind hconv
    · rw [hmem, if_neg (Nat.succ_ne_zero n)]
      dsimp only
      split
      next hn => rw [hn]; rfl
      next hn =>
        have hlast : t.next + 1 + n - 1 = t.next + (n + 1) - 1 := by omega
        rw [overlay_overlay, hlast]
        rfl

/-- The loop of a PIO write puts the sector at `edi` into all of them. -/
theorem pioWrite_converges {channel : BitVec 8} {n i j : Nat} {m : Machine} {t : Transfer}
    (edi : Word) (ht : m.transfer channel = t) (hwrite : t.write = true) (hleft : n ≤ t.left)
    (hi : m.reads = i) (h : Clean env false n i j) :
    ∃ m', Converges (fun fuel => pioWrite env fuel channel edi n m) m' ∧ m'.mem = m.mem ∧
      m'.reads = j ∧ m'.disks = filled m.disks channel t.slave t.next n (sectorAt m.mem edi) := by
  induction h generalizing m t with
  | zero i =>
    refine ⟨m, Converges.pure _, rfl, hi, ?_⟩
    funext c s x
    rw [filled, if_neg (by omega)]
  | @succ n i k j hready hgood _ ih =>
    have hpoll := idePolling_converges (hi ▸ hready) false
    have hout := outsw_eq (m := (m.readTo k).record env) edi ht hwrite (by omega)
    obtain ⟨m', hconv, hmem, hreads, hdisks⟩ := @ih (((m.readTo k).record env).outsw channel edi)
      { t with next := t.next + 1, left := t.left - 1 } (by rw [hout]; simp) hwrite
      (show n ≤ t.left - 1 by omega) (by rw [hout]; rfl)
    rw [hout] at hmem hdisks
    refine ⟨m', hpoll.bind hconv, hmem, hreads, ?_⟩
    rw [hdisks]
    exact filled_filled m.disks channel t.slave t.next n (sectorAt m.mem edi)

section Registers

variable (channel slavebit numsects data : BitVec 8) (reg : Reg) (a : Address) (m : Machine)

@[simp] theorem ideWrite_mem : (ideWrite channel reg data m).mem = m.mem := by
  simp only [ideWrite]
  split <;> rfl

@[simp] theorem ideWrite_disks : (ideWrite channel reg data m).disks = m.disks := by
  simp only [ideWrite]
  split <;> rfl

@[simp] theorem ideWrite_reads : (ideWrite channel reg data m).reads = m.reads := by
  simp only [ideWrite]
  split <;> rfl

theorem ideWrite_command :
    (ideWrite channel .command data m).transfer channel =
      begun (Function.update (m.regs channel) .command data) data := by
  simp [ideWrite]

@[simp] theorem writeParameters_mem :
    (writeParameters channel slavebit numsects a m).mem = m.mem := by
  simp only [writeParameters]
  split <;> simp

@[simp] theorem writeParameters_disks :
    (writeParameters channel slavebit numsects a m).disks = m.disks := by
  simp only [writeParameters]
  split <;> simp

@[simp] theorem writeParameters_reads :
    (writeParameters channel slavebit numsects a m).reads = m.reads := by
  simp only [writeParameters]
  split <;> simp

end Registers

theorem Holds.command {r : Reg → BitVec 8} {slavebit numsects : BitVec 8} {a : Address}
    (hr : Holds r slavebit numsects a) (cmd : BitVec 8) :
    Holds (Function.update r .command cmd) slavebit numsects a where
  hddevsel := by simpa using hr.hddevsel
  seccount0 := by simpa using hr.seccount0
  lba0 := by simpa using hr.lba0
  lba1 := by simpa using hr.lba1
  lba2 := by simpa using hr.lba2
  ext := by simpa using hr.ext

/-- The machine when the command has been sent, after read number `k` of the status. -/
def started (d : IdeDevice) (write : Bool) (lba : Word) (numsects : BitVec 8) (k : Nat)
    (m : Machine) : Machine :=
  ideWrite d.channel .command (transferCommand write (selectAddress d lba).mode)
    (writeParameters d.channel d.drive numsects (selectAddress d lba)
      ((ideWrite d.channel .control 0x02 m).readTo k))

/-- An ATA drive as `ide_initialize` finds it. -/
structure AtaDrive (d : IdeDevice) : Prop where
  present : d.reserved ≠ 0#8
  ata : d.type = .ata
  drive : d.drive = 0#8 ∨ d.drive = 1#8

/-- The sectors before `n` are those that the driver can name: without
LBA, a cylinder has 16 bits. -/
def Named (d : IdeDevice) (n : Nat) : Prop :=
  d.capabilities &&& 0x200#16 = 0#16 → n ≤ 65536 * 16 * 63

section Access

variable {d : IdeDevice} {lba : Word} {numsects : BitVec 8} {m : Machine} (edi : Word)

theorem started_transfer (hd : AtaDrive d) (hn : numsects ≠ 0#8) (hlba : Named d (lba.toNat + 1))
    (write : Bool) (k : Nat) : (started d write lba numsects k m).transfer d.channel =
      ⟨write, d.drive = 1#8, lba.toNat, numsects.toNat⟩ := by
  rw [started, ideWrite_command]
  apply begun_address ((writeParameters_holds ..).command _) hd.drive hn
  intro hcap
  have := hlba hcap
  omega

theorem ideAtaAccess_read {drive k j : Nat} (hd : AtaDrive (env.devices drive))
    (hn : numsects ≠ 0#8) (hlba : Named (env.devices drive) (lba.toNat + 1))
    (hready : ReadyAt env m.reads k) (hclean : Clean env true numsects.toNat (k + 1) j) :
    ∃ m', Converges (fun fuel => ideAtaAccess env fuel false drive lba numsects edi m) (0, m') ∧
      m'.disks = m.disks ∧ m'.mem = overlay m.mem edi (m.disks (env.devices drive).channel
        ((env.devices drive).drive = 1#8) (lba.toNat + numsects.toNat - 1)) := by
  have hne : numsects.toNat ≠ 0 := by
    intro h
    exact hn (BitVec.eq_of_toNat_eq h)
  have hwait : ReadyAt env (ideWrite (env.devices drive).channel .control 0x02 m).reads k := by
    rw [ideWrite_reads]
    exact hready
  have hreads : (started (env.devices drive) false lba numsects k m).reads = k + 1 := by
    simp [started, Machine.readTo]
  obtain ⟨m', hconv, hdisks, hmem⟩ := pioRead_converges edi
    (started_transfer (m := m) hd hn hlba false k) rfl le_rfl hreads hclean
  rw [if_neg hne] at hmem
  refine ⟨m', (waitBusy_converges hwait).bind hconv, ?_, ?_⟩
  · simpa [started, Machine.readTo] using hdisks
  · simpa [started, Machine.readTo] using hmem

theorem ideAtaAccess_write {drive k j l : Nat} (hd : AtaDrive (env.devices drive))
    (hn : numsects ≠ 0#8) (hlba : Named (env.devices drive) (lba.toNat + 1))
    (hready : ReadyAt env m.reads k) (hclean : Clean env false numsects.toNat (k + 1) j)
    (hflush : ReadyAt env j l) :
    ∃ m', Converges (fun fuel => ideAtaAccess env fuel true drive lba numsects edi m) (0, m') ∧
      m'.mem = m.mem ∧ m'.disks = filled m.disks (env.devices drive).channel
        ((env.devices drive).drive = 1#8) lba.toNat numsects.toNat (sectorAt m.mem edi) := by
  have hwait : ReadyAt env (ideWrite (env.devices drive).channel .control 0x02 m).reads k := by
    rw [ideWrite_reads]
    exact hready
  have hreads : (started (env.devices drive) true lba numsects k m).reads = k + 1 := by
    simp [started, Machine.readTo]
  obtain ⟨m₁, hconv, hmem, hj, hdisks⟩ := pioWrite_converges edi
    (started_transfer (m := m) hd hn hlba true k) rfl le_rfl hreads hclean
  have hpoll := idePolling_converges (m := ideWrite (env.devices drive).channel .command
    (flushCommand (selectAddress (env.devices drive) lba).mode) m₁) (k :=
    l) (by rwa [ideWrite_reads, hj]) false
  refine ⟨_, (waitBusy_converges hwait).bind (hconv.bind (hpoll.bind (Converges.pure _))), ?_, ?_⟩
  · simpa [started, Machine.readTo] using hmem
  · simpa [started, Machine.readTo] using hdisks

theorem not_absent {drive : Nat} (hdrive : drive ≤ 3) (hpresent : d.reserved ≠ 0#8) :
    ¬(drive > 3 ∨ d.reserved = 0#8) := by
  intro h
  cases h with
  | inl h => omega
  | inr h => exact hpresent h

/-- A range that ends on the drive is not taken for one that does not. -/
theorem end_le_size (hsize : lba.toNat + numsects.toNat ≤ d.size.toNat) :
    ¬lba + numsects.setWidth 32 > d.size := by
  intro h
  have hlt : d.size.toNat < (lba + numsects.setWidth 32).toNat := h
  have := d.size.isLt
  rw [BitVec.toNat_add, BitVec.toNat_setWidth, Nat.mod_eq_of_lt (by omega),
    Nat.mod_eq_of_lt (by omega)] at hlt
  omega

theorem ideTransferSectors_ata {drive : Nat} (hdrive : drive ≤ 3)
    (hd : AtaDrive (env.devices drive))
    (hsize : lba.toNat + numsects.toNat ≤ (env.devices drive).size.toNat) (write : Bool)
    (fuel : Nat) :
    ideTransferSectors write env fuel drive numsects lba edi m =
      (ideAtaAccess env fuel write drive lba numsects edi m).map fun r =>
        (-((idePrintError env r.1).toNat : Int),
          { r.2 with ideStatus := idePrintError env r.1 }) := by
  rw [ideTransferSectors]
  dsimp only
  rw [if_neg (not_absent hdrive hd.present), if_neg fun h => end_le_size hsize h.1, accessError]
  simp only [hd.ata]
  cases ideAtaAccess env fuel write drive lba numsects edi m <;> rfl

end Access

/-- Whether a drive that is present is the second one of its channel. -/
def IdeDevice.slave (d : IdeDevice) : Bool := d.drive = 1#8

/-- The statuses of a read of `n` sectors show no error. -/
def QuietRead (env : Env) (n : Nat) : Prop := ∃ k j, ReadyAt env 0 k ∧ Clean env true n (k + 1) j

/-- The statuses of a write of `n` sectors show no error; it ends with a flush. -/
def QuietWrite (env : Env) (n : Nat) : Prop :=
  ∃ k j l, ReadyAt env 0 k ∧ Clean env false n (k + 1) j ∧ ReadyAt env j l

/-- A range of sectors that one call is asked for and that is on the drive. -/
structure InRange (d : IdeDevice) (sector count : Word) : Prop where
  pos : 1 ≤ count.toNat
  le : count.toNat ≤ 255
  size : sector.toNat + count.toNat ≤ d.size.toNat

theorem Named.first {d : IdeDevice} {sector count : Word} (h : Named d (sector.toNat + count.toNat))
    (hr : InRange d sector count) : Named d (sector.toNat + 1) := by
  intro hcap
  have := h hcap
  have := hr.pos
  omega

theorem InRange.setWidth {d : IdeDevice} {sector count : Word} (h : InRange d sector count) :
    (count.setWidth 8).toNat = count.toNat := by
  have := h.le
  rw [BitVec.toNat_setWidth]
  omega

theorem InRange.ne_zero {d : IdeDevice} {sector count : Word} (h : InRange d sector count) :
    count.setWidth 8 ≠ 0#8 := by
  intro he
  have hn := h.setWidth
  have := h.pos
  rw [he] at hn
  simp only [BitVec.toNat_ofNat, Nat.zero_mod] at hn
  omega

theorem diskRead_eq (env : Env) (fuel : Nat) (buff sector count : Word) (m : Machine) :
    diskRead env fuel buff sector count m =
      (ideTransferSectors false env fuel diskId (count.setWidth 8) sector buff
        m.newCall).map fun r =>
        (.ok, r.2) := by
  rw [diskRead, ideReadSectors]
  cases ideTransferSectors false env fuel diskId (count.setWidth 8) sector buff m.newCall <;> rfl

theorem diskWrite_eq (env : Env) (fuel : Nat) (buff sector count : Word) (m : Machine) :
    diskWrite env fuel buff sector count m =
      (ideTransferSectors true env fuel diskId (count.setWidth 8) sector buff
        m.newCall).map fun r =>
        (.ok, r.2) := by
  rw [diskWrite, ideWriteSectors]
  cases ideTransferSectors true env fuel diskId (count.setWidth 8) sector buff m.newCall <;> rfl

section Calls

variable {sector count : Word} {m : Machine} (buff : Word)

theorem diskRead_converges (hd : AtaDrive (env.devices diskId))
    (hr : InRange (env.devices diskId) sector count)
    (hchs : Named (env.devices diskId) (sector.toNat + count.toNat))
    (hquiet : QuietRead env count.toNat) :
    ∃ m', Converges (fun fuel => diskRead env fuel buff sector count m) (.ok, m') ∧
    m'.disks = m.disks ∧
      m'.mem = overlay m.mem buff (m.disks (env.devices diskId).channel (env.devices diskId).slave
        (sector.toNat + count.toNat - 1)) := by
  obtain ⟨k, j, hready, hclean⟩ := hquiet
  have hsize := hr.size
  obtain ⟨m', hconv, hdisks, hmem⟩ := ideAtaAccess_read (m := m.newCall) buff hd hr.ne_zero
    (hchs.first hr) hready (hr.setWidth.symm ▸ hclean)
  rw [← hr.setWidth] at hsize
  refine ⟨{ m' with ideStatus := idePrintError env 0 }, ?_, hdisks, hr.setWidth ▸ hmem⟩
  simp only [diskRead_eq, ideTransferSectors_ata buff (show diskId ≤ 3 by decide) hd hsize]
  exact (hconv.map _).map _

theorem diskWrite_converges (hd : AtaDrive (env.devices diskId))
    (hr : InRange (env.devices diskId) sector count)
    (hchs : Named (env.devices diskId) (sector.toNat + count.toNat))
    (hquiet : QuietWrite env count.toNat) :
    ∃ m', Converges (fun fuel => diskWrite env fuel buff sector count m) (.ok, m') ∧
    m'.mem = m.mem ∧
      m'.disks = filled m.disks (env.devices diskId).channel (env.devices diskId).slave sector.toNat
        count.toNat (sectorAt m.mem buff) := by
  obtain ⟨k, j, l, hready, hclean, hflush⟩ := hquiet
  have hsize := hr.size
  obtain ⟨m', hconv, hmem, hdisks⟩ := ideAtaAccess_write (m := m.newCall) buff hd hr.ne_zero
    (hchs.first hr) hready (hr.setWidth.symm ▸ hclean) hflush
  rw [← hr.setWidth] at hsize
  refine ⟨{ m' with ideStatus := idePrintError env 0 }, ?_, hmem, hr.setWidth ▸ hdisks⟩
  simp only [diskWrite_eq, ideTransferSectors_ata buff (show diskId ≤ 3 by decide) hd hsize]
  exact (hconv.map _).map _

end Calls

/-- Block `k` at `buff` is in sector `sector + k`, and every other sector is as before. -/
structure Stored (d : IdeDevice) (buff sector count : Word) (m m' : Machine) : Prop where
  blocks : ∀ k < count.toNat,
    m'.disks d.channel d.slave (sector.toNat + k) = sectorAt m.mem
      (buff + BitVec.ofNat 32 (512 * k))
  others : ∀ c s n, ¬(c = d.channel ∧ s = d.slave ∧ sector.toNat ≤ n ∧
    n < sector.toNat + count.toNat) →
    m'.disks c s n = m.disks c s n

/-- The second drive of the first channel, of 100 sectors, always ready and without errors. -/
def quietDrive : Env where
  devices _ := ⟨1, 0, 1, .ata, 0x200, 100⟩
  status _ := 0x58
  error := 0

/-- A machine whose memory has in each byte the number of its block. -/
def blockNumbers : Machine where
  mem x := (x >>> 9).setWidth 8
  regs _ _ := 0
  transfer _ := ⟨false, false, 0, 0⟩
  disks _ _ _ _ := 0
  ideStatus := 0
  reads := 0
  polled := []

theorem quietDrive_ready (i : Nat) : quietDrive.status i &&& srBsy = 0#8 := by
  change 0x58#8 &&& srBsy = 0#8
  decide

theorem quietDrive_good (i : Nat) : Good (quietDrive.status i) := by
  change Good 0x58#8
  decide

end NctuCourses.Osdi.Disk
