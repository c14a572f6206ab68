import NctuCourses.Osdi.Disk.Ide

namespace NctuCourses.Osdi.Disk

section Bytes

/-- A field of `n` bits from bit `k` on, cut out with a mask. -/
theorem field_toNat {w k n : Nat} (x mask : BitVec w) (hmask : mask.toNat = (2 ^ n - 1) <<< k)
    (hn : n ≤ 8) :
    (((x &&& mask) >>> k).setWidth 8).toNat = x.toNat / 2 ^ k % 2 ^ n := by
  have hlt : x.toNat / 2 ^ k % 2 ^ n < 2 ^ 8 :=
    (Nat.mod_lt _ (Nat.two_pow_pos n)).trans_le (Nat.pow_le_pow_right (by decide) hn)
  rw [BitVec.toNat_setWidth, BitVec.toNat_ushiftRight, BitVec.toNat_and, hmask,
    Nat.shiftRight_and_distrib, Nat.shiftLeft_shiftRight, Nat.and_two_pow_sub_one_eq_mod,
    Nat.shiftRight_eq_div_pow, Nat.mod_eq_of_lt hlt]

variable (lba : Word)

theorem byte0_toNat : ((lba &&& 0x000000FF#32).setWidth 8).toNat = lba.toNat % 256 := by
  have h := field_toNat (k := 0) (n := 8) lba 0x000000FF#32 rfl le_rfl
  rwa [BitVec.ushiftRight_zero, Nat.pow_zero, Nat.div_one] at h

theorem byte1_toNat : (((lba &&& 0x0000FF00#32) >>> 8).setWidth 8).toNat = lba.toNat / 256 % 256 :=
  field_toNat (k := 8) (n := 8) lba 0x0000FF00#32 rfl le_rfl

theorem byte2_toNat :
    (((lba &&& 0x00FF0000#32) >>> 16).setWidth 8).toNat = lba.toNat / 65536 % 256 :=
  field_toNat (k := 16) (n := 8) lba 0x00FF0000#32 rfl le_rfl

theorem byte3_toNat :
    (((lba &&& 0xFF000000#32) >>> 24).setWidth 8).toNat = lba.toNat / 16777216 := by
  have hlt := lba.isLt
  rw [field_toNat (k := 24) (n := 8) lba 0xFF000000#32 rfl le_rfl]
  omega

theorem nibble_toNat (hlba : lba.toNat < 2 ^ 28) :
    (((lba &&& 0xF000000#32) >>> 24).setWidth 8).toNat = lba.toNat / 16777216 := by
  rw [field_toNat (k := 24) (n := 4) lba 0xF000000#32 rfl (by decide)]
  omega

theorem chsSect_toNat : ((lba % 63 + 1).setWidth 8).toNat = lba.toNat % 63 + 1 := by
  have h : (lba % 63 + 1).toNat = lba.toNat % 63 + 1 := by
    rw [BitVec.toNat_add, BitVec.toNat_umod, show (63 : Word).toNat = 63 from rfl,
      show (1 : Word).toNat = 1 from rfl]
    omega
  rw [BitVec.toNat_setWidth, h]
  omega

theorem chsTrack_toNat :
    (lba + 1 - ((lba % 63 + 1).setWidth 8).setWidth 32).toNat = lba.toNat / 63 * 63 := by
  have hlt := lba.isLt
  have hsect : (((lba % 63 + 1).setWidth 8).setWidth 32).toNat = lba.toNat % 63 + 1 := by
    rw [BitVec.toNat_setWidth, chsSect_toNat]
    omega
  rw [BitVec.toNat_sub, hsect, BitVec.toNat_add]
  simp only [BitVec.toNat_ofNat, BitVec.ofNat_eq_ofNat]
  omega

theorem low_toNat (cyl : BitVec 16) : ((cyl &&& 0xFF).setWidth 8).toNat = cyl.toNat % 256 := by
  have h := field_toNat (k := 0) (n := 8) cyl 0xFF rfl le_rfl
  rwa [BitVec.ushiftRight_zero, Nat.pow_zero, Nat.div_one] at h

theorem high_toNat (cyl : BitVec 16) :
    (((cyl >>> 8) &&& 0xFF).setWidth 8).toNat = cyl.toNat / 256 := by
  have hlt := cyl.isLt
  rw [low_toNat, BitVec.toNat_ushiftRight, Nat.shiftRight_eq_div_pow]
  omega

end Bytes

theorem hddevsel_fields {head slavebit select : BitVec 8} (hhead : head.toNat < 16)
    (hslave : slavebit = 0#8 ∨ slavebit = 1#8) (hselect : select = 0xA0#8 ∨ select = 0xE0#8) :
    ((select ||| slavebit <<< 4 ||| head) &&& 0x0F#8).toNat = head.toNat ∧
    ((select ||| slavebit <<< 4 ||| head) &&& 0x40#8 ≠ 0#8 ↔ select = 0xE0#8) ∧
    ((select ||| slavebit <<< 4 ||| head) &&& 0x10#8 ≠ 0#8 ↔ slavebit = 1#8) := by
  revert hhead
  revert head
  obtain rfl | rfl := hslave <;> obtain rfl | rfl := hselect <;> decide

/-- What the registers of a channel hold after `writeParameters`. -/
structure Holds (r : Reg → BitVec 8) (slavebit numsects : BitVec 8) (a : Address) : Prop where
  hddevsel : r .hddevsel = (if a.mode = .chs then 0xA0 else 0xE0) ||| slavebit <<< 4 ||| a.head
  seccount0 : r .seccount0 = numsects
  lba0 : r .lba0 = a.io0
  lba1 : r .lba1 = a.io1
  lba2 : r .lba2 = a.io2
  ext : a.mode = .lba48 → r .seccount1 = 0 ∧ r .lba3 = a.io3 ∧ r .lba4 = a.io4 ∧ r .lba5 = a.io5

theorem writeParameters_holds (channel slavebit numsects : BitVec 8) (a : Address) (m : Machine) :
    Holds ((writeParameters channel slavebit numsects a m).regs channel) slavebit numsects a := by
  by_cases h : a.mode = .lba48
  · constructor <;> simp [writeParameters, ideWrite, h]
  · constructor <;> simp [writeParameters, ideWrite, h]

theorem Holds.fields {r : Reg → BitVec 8} {slavebit numsects : BitVec 8} {a : Address}
    (hr : Holds r slavebit numsects a) (hhead : a.head.toNat < 16)
    (hslave : slavebit = 0#8 ∨ slavebit = 1#8) :
    (r .hddevsel &&& 0x0F#8).toNat = a.head.toNat ∧ (r .hddevsel &&& 0x40#8 ≠ 0#8 ↔ a.mode ≠ .chs) ∧
    (r .hddevsel &&& 0x10#8 ≠ 0#8 ↔ slavebit = 1#8) := by
  rw [hr.hddevsel]
  by_cases hmode : a.mode = .chs
  · obtain ⟨h1, h2, h3⟩ := hddevsel_fields hhead hslave (.inl rfl)
    rw [if_pos hmode]
    exact ⟨h1, h2.trans (iff_of_false (by decide) (not_not.mpr hmode)), h3⟩
  · obtain ⟨h1, h2, h3⟩ := hddevsel_fields hhead hslave (.inr rfl)
    rw [if_neg hmode]
    exact ⟨h1, h2.trans (iff_of_true rfl hmode), h3⟩

theorem begun_eq {r : Reg → BitVec 8} {write : Bool} {mode : LbaMode} {n : Nat} {slave : Bool}
    {numsects : BitVec 8} (hslave : decide (r .hddevsel &&& 0x10#8 ≠ 0#8) = slave)
    (hn : numsects ≠ 0#8) (hcount : r .seccount0 = numsects)
    (hext : mode = .lba48 → r .seccount1 = 0#8)
    (hsector : (if mode = .lba48 then sector48 r else sector28 r) = n) :
    begun r (transferCommand write mode) = ⟨write, slave, n, numsects.toNat⟩ := by
  have h28 : count28 r = numsects.toNat := by
    rw [count28, hcount, if_neg hn]
  have h48 : mode = .lba48 → count48 r = numsects.toNat := by
    intro h
    rw [count48, hext h, hcount, if_neg fun h => hn h.2]
    simp
  rw [← hsector, ← hslave]
  cases mode with
  | lba48 =>
    rw [← h48 rfl]
    cases write <;> rfl
  | lba28 =>
    rw [← h28]
    cases write <;> rfl
  | chs =>
    rw [← h28]
    cases write <;> rfl

section Sector

variable {r : Reg → BitVec 8} {lba : Word} {slavebit numsects : BitVec 8}

theorem sector_lba48 (hr : Holds r slavebit numsects (lba48Address lba)) :
    sector48 r = lba.toNat := by
  have hlt := lba.isLt
  obtain ⟨_, h3, h4, h5⟩ := hr.ext rfl
  rw [sector48, h3, h4, h5, hr.lba2, hr.lba1, hr.lba0]
  simp only [lba48Address, byte0_toNat, byte1_toNat, byte2_toNat, byte3_toNat]
  simp only [BitVec.toNat_ofNat, BitVec.ofNat_eq_ofNat]
  omega

theorem lba28Address_head (hlba : lba.toNat < 2 ^ 28) :
    (lba28Address lba).head.toNat = lba.toNat / 16777216 :=
  nibble_toNat lba hlba

theorem sector_lba28 (hslave : slavebit = 0#8 ∨ slavebit = 1#8) (hlba : lba.toNat < 2 ^ 28)
    (hr : Holds r slavebit numsects (lba28Address lba)) : sector28 r = lba.toNat := by
  have hhead := lba28Address_head hlba
  obtain ⟨hlow, hmode, _⟩ := hr.fields (by omega) hslave
  rw [sector28, hr.lba2, hr.lba1, hr.lba0, hlow, if_pos (hmode.mpr (by simp [lba28Address])), hhead]
  simp only [lba28Address, byte0_toNat, byte1_toNat, byte2_toNat]
  omega

theorem chsAddress_head : (chsAddress lba).head.toNat = lba.toNat / 63 % 16 := by
  have h1008 : ((16 : Word) * 63).toNat = 1008 := rfl
  have h63 : (63 : Word).toNat = 63 := rfl
  simp only [chsAddress]
  rw [BitVec.toNat_setWidth, BitVec.toNat_udiv, BitVec.toNat_umod, chsTrack_toNat, h1008, h63]
  omega

theorem chsAddress_cyl :
    (chsAddress lba).io2.toNat * 2 ^ 8 + (chsAddress lba).io1.toNat = lba.toNat / 1008 % 65536 := by
  have h1008 : ((16 : Word) * 63).toNat = 1008 := rfl
  simp only [chsAddress]
  rw [high_toNat, low_toNat, BitVec.toNat_setWidth, BitVec.toNat_udiv, chsTrack_toNat, h1008]
  omega

theorem sector_chs (hslave : slavebit = 0#8 ∨ slavebit = 1#8)
    (hr : Holds r slavebit numsects (chsAddress lba)) :
    sector28 r = lba.toNat % (65536 * 1008) := by
  have hhead : (chsAddress lba).head.toNat = lba.toNat / 63 % 16 := chsAddress_head
  obtain ⟨hlow, hmode, _⟩ := hr.fields (by omega) hslave
  rw [sector28, hr.lba2, hr.lba1, hr.lba0, hlow, if_neg fun h => hmode.mp h rfl,
    chsAddress_cyl, hhead]
  simp only [chsAddress, chsSect_toNat]
  omega

end Sector

/-- The sector that the registers address is the one that was asked for. Without LBA, the cylinder
has to fit into its 16 bits. -/
theorem begun_address {r : Reg → BitVec 8} {d : IdeDevice} {lba : Word} {numsects : BitVec 8}
    (hr : Holds r d.drive numsects (selectAddress d lba)) (hdrive : d.drive = 0#8 ∨ d.drive = 1#8)
    (hn : numsects ≠ 0#8) (hchs : d.capabilities &&& 0x200#16 = 0#16 → lba.toNat < 65536 * 1008)
    (write : Bool) :
    begun r (transferCommand write (selectAddress d lba).mode) =
      ⟨write, d.drive = 1#8, lba.toNat, numsects.toNat⟩ := by
  by_cases hlba : lba ≥ 0x10000000#32
  · rw [selectAddress, if_pos hlba] at hr ⊢
    obtain ⟨_, _, hslave⟩ := hr.fields (by simp [lba48Address]) hdrive
    exact begun_eq (decide_eq_decide.mpr hslave) hn hr.seccount0 (fun _ => (hr.ext rfl).1)
      (sector_lba48 hr)
  · have hlt : lba.toNat < 2 ^ 28 := by
      rw [ge_iff_le, BitVec.le_def] at hlba
      exact Nat.lt_of_not_le hlba
    by_cases hcap : d.capabilities &&& 0x200#16 ≠ 0#16
    · rw [selectAddress, if_neg hlba, if_pos hcap] at hr ⊢
      have hhead := lba28Address_head hlt
      obtain ⟨_, _, hslave⟩ := hr.fields (by omega) hdrive
      exact begun_eq (decide_eq_decide.mpr hslave) hn hr.seccount0 nofun
        (sector_lba28 hdrive hlt hr)
    · rw [selectAddress, if_neg hlba, if_neg hcap] at hr ⊢
      have hhead : (chsAddress lba).head.toNat = lba.toNat / 63 % 16 := chsAddress_head
      obtain ⟨_, _, hslave⟩ := hr.fields (by omega) hdrive
      have hsector := sector_chs hdrive hr
      rw [Nat.mod_eq_of_lt (hchs (not_not.mp hcap))] at hsector
      exact begun_eq (decide_eq_decide.mpr hslave) hn hr.seccount0 nofun hsector

/-- The sector that the registers name in a mode. -/
def sectorIn (mode : LbaMode) (r : Reg → BitVec 8) : Nat :=
  if mode = .lba48 then sector48 r else sector28 r

/-- The registers that make up an address. -/
def addressRegs : LbaMode → List Reg
  | .lba48 => [.hddevsel, .lba0, .lba1, .lba2, .lba3, .lba4, .lba5]
  | _ => [.hddevsel, .lba0, .lba1, .lba2]

theorem sectorIn_congr {mode : LbaMode} {r r' : Reg → BitVec 8}
    (h : ∀ x ∈ addressRegs mode, r x = r' x) :
    sectorIn mode r = sectorIn mode r' := by
  cases mode with
  | lba48 =>
    simp only [addressRegs, List.forall_mem_cons] at h
    obtain ⟨_, h0, h1, h2, h3, h4, h5, _⟩ := h
    simp only [sectorIn, if_true, sector48, h0, h1, h2, h3, h4, h5]
  | lba28 =>
    simp only [addressRegs, List.forall_mem_cons] at h
    obtain ⟨hd, h0, h1, h2, _⟩ := h
    simp only [sectorIn, reduceCtorEq, if_false, sector28, hd, h0, h1, h2]
  | chs =>
    simp only [addressRegs, List.forall_mem_cons] at h
    obtain ⟨hd, h0, h1, h2, _⟩ := h
    simp only [sectorIn, reduceCtorEq, if_false, sector28, hd, h0, h1, h2]

/-- The registers of the channel when `ide_ata_access` sends the command. -/
def addressed (d : IdeDevice) (lba : Word) (numsects : BitVec 8) (m : Machine) : Reg → BitVec 8 :=
  (writeParameters d.channel d.drive numsects (selectAddress d lba) m).regs d.channel

/-- A drive without LBA has no cylinder number for the sector. -/
def BeyondChs (d : IdeDevice) (lba : Word) : Prop :=
  d.capabilities &&& 0x200#16 = 0#16 ∧ 65536 * 16 * 63 ≤ lba.toNat ∧ lba.toNat < 2 ^ 28

theorem sectorIn_addressed {d : IdeDevice} (hdrive : d.drive = 0#8 ∨ d.drive = 1#8) (lba : Word)
    (numsects : BitVec 8) (m : Machine) :
    sectorIn (selectAddress d lba).mode (addressed d lba numsects m) =
      if d.capabilities &&& 0x200#16 = 0#16 ∧ lba.toNat < 2 ^ 28 then lba.toNat % (65536 * 1008)
      else lba.toNat := by
  have hr := writeParameters_holds d.channel d.drive numsects (selectAddress d lba) m
  rw [← addressed] at hr
  have hge : lba ≥ 0x10000000#32 ↔ ¬lba.toNat < 2 ^ 28 := by
    rw [ge_iff_le, BitVec.le_def]
    exact Nat.not_lt.symm
  by_cases hlba : lba ≥ 0x10000000#32
  · have hmode : selectAddress d lba = lba48Address lba := if_pos hlba
    rw [hmode] at hr ⊢
    rw [if_neg fun h => hge.mp hlba h.2]
    exact sector_lba48 hr
  · have hlt := not_not.mp fun h => hlba (hge.mpr h)
    by_cases hcap : d.capabilities &&& 0x200#16 = 0#16
    · have hmode : selectAddress d lba = chsAddress lba := by
        rw [selectAddress, if_neg hlba, if_neg (not_not.mpr hcap)]
      rw [hmode] at hr ⊢
      rw [if_pos ⟨hcap, hlt⟩]
      exact sector_chs hdrive hr
    · have hmode : selectAddress d lba = lba28Address lba := by
        rw [selectAddress, if_neg hlba, if_pos hcap]
      rw [hmode] at hr ⊢
      rw [if_neg fun h => hcap h.1]
      exact sector_lba28 hdrive hlt hr

/-- The registers name the sector that was asked for, and no two sectors are addressed alike, as
long as a drive without LBA is asked for sectors with a 16-bit cylinder. In CHS the sector
register is within a track. -/
theorem sectorAddress_survives {d : IdeDevice} (hdrive : d.drive = 0#8 ∨ d.drive = 1#8) (lba : Word)
    (numsects : BitVec 8) (m : Machine) :
    (sectorIn (selectAddress d lba).mode (addressed d lba numsects m) = lba.toNat ↔
      ¬BeyondChs d lba) ∧
    ((selectAddress d lba).mode = .chs → 1 ≤ (addressed d lba numsects m .lba0).toNat ∧
      (addressed d lba numsects m .lba0).toNat ≤ 63) ∧
    ∀ (lba' : Word) (m' : Machine), ¬BeyondChs d lba → ¬BeyondChs d lba' →
      (selectAddress d lba).mode = (selectAddress d lba').mode →
      (∀ x ∈ addressRegs (selectAddress d lba).mode, addressed d lba numsects m x =
        addressed d lba' numsects m' x) →
      lba = lba' := by
  have hiff : ∀ (lba : Word) (m : Machine),
      sectorIn (selectAddress d lba).mode (addressed d lba numsects m) = lba.toNat ↔
      ¬BeyondChs d lba := by
    intro lba m
    rw [sectorIn_addressed hdrive, BeyondChs]
    split_ifs with h
    · simp only [h.1, h.2, true_and, and_true]
      omega
    · exact iff_of_true rfl fun hb => h ⟨hb.1, hb.2.2⟩
  refine ⟨hiff lba m, ?_, ?_⟩
  · intro hmode
    have hr := writeParameters_holds d.channel d.drive numsects (selectAddress d lba) m
    have hchs : selectAddress d lba = chsAddress lba := by
      rw [selectAddress] at hmode ⊢
      split_ifs at hmode ⊢
      · cases hmode
      · cases hmode
      · rfl
    have hsect : (chsAddress lba).io0.toNat = lba.toNat % 63 + 1 := chsSect_toNat lba
    rw [addressed, hr.lba0, hchs, hsect]
    omega
  · intro lba' m' h h' hmode hregs
    apply BitVec.eq_of_toNat_eq
    rw [← (hiff lba m).mpr h, ← (hiff lba' m').mpr h', ← hmode, sectorIn_congr hregs]

/-- A drive without LBA; its other fields do not matter. -/
def oldDrive : IdeDevice := ⟨1#8, 0#8, 0#8, .ata, 0#16, 0#32⟩

/-- On a drive without LBA, the last sector before the limit. -/
theorem sectorAddress_survives_chs : (oldDrive.drive = 0#8 ∨ oldDrive.drive = 1#8) ∧
    ∀ m : Machine, sectorIn .chs (addressed oldDrive 66060287#32 1#8 m) = 66060287 := by
  have hdrive : oldDrive.drive = 0#8 ∨ oldDrive.drive = 1#8 := .inl rfl
  refine ⟨hdrive, ?_⟩
  intro m
  have hmode : (selectAddress oldDrive 66060287#32).mode = .chs := by decide
  have h := (sectorAddress_survives hdrive 66060287#32 1#8 m).1
  rw [hmode] at h
  apply h.mpr
  rw [BeyondChs]
  decide

/-- The first sector beyond the limit is addressed as sector 0. -/
theorem sectorAddress_wraps : (selectAddress oldDrive 66060288#32).mode = .chs ∧
    ∀ m : Machine, sectorIn .chs (addressed oldDrive 66060288#32 1#8 m) = 0 ∧
      sectorIn .chs (addressed oldDrive 0#32 1#8 m) = 0 := by
  have hmode : (selectAddress oldDrive 66060288#32).mode = .chs := by decide
  have hmode' : (selectAddress oldDrive 0#32).mode = .chs := by decide
  refine ⟨hmode, ?_⟩
  intro m
  constructor
  · rw [← hmode, sectorIn_addressed (.inl rfl)]
    decide
  · rw [← hmode', sectorIn_addressed (.inl rfl)]
    decide

end NctuCourses.Osdi.Disk
