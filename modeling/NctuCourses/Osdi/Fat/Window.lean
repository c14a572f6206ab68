import Mathlib.Data.BitVec
import NctuCourses.Lib.Post
import NctuCourses.Osdi.Disk.Ide
import NctuCourses.Osdi.Fs.Vfs

namespace NctuCourses.Osdi.Fat

open NctuCourses.Lib
open NctuCourses.Osdi.Disk (DResult)
open NctuCourses.Osdi.Fs (FResult)

/-- `SS(fs)`. -/
def ss : Nat := 512

abbrev Sector := Disk.Sector

/-- `buf[i % SS(fs)]`. -/
def Sector.byte (s : Sector) (i : Nat) : BitVec 8 := s (Fin.ofNat 512 i)

def Sector.put (s : Sector) (i : Nat) (x : BitVec 8) : Sector :=
  Function.update s (Fin.ofNat 512 i) x

theorem Sector.byte_put (s : Sector) (i j : Nat) (x : BitVec 8) :
    (s.put i x).byte j = if j % 512 = i % 512 then x else s.byte j := by
  unfold Sector.byte Sector.put Function.update
  simp [Fin.ext_iff]

/-- Subtraction of two `DWORD`s. -/
def sub32 (a b : Nat) : Nat := (a + 2 ^ 32 - b) % 2 ^ 32

theorem sub32_of_le {a b : Nat} (h : b ≤ a) (ha : a < 2 ^ 32) : sub32 a b = a - b := by
  unfold sub32
  omega

theorem sub32_lt_iff {a b n : Nat} (ha : a < 2 ^ 32) (hb : b + n ≤ 2 ^ 32) :
    sub32 a b < n ↔ b ≤ a ∧ a < b + n := by
  unfold sub32
  omega

/-- The drive behind `disk.c`. The requests to it are numbered. `fails` says which transfers are not
carried out, `junk` what such a transfer leaves in the buffer or in the sectors, and `status` what
`ide_read(DISK_ID, ATA_REG_STATUS)` gives. -/
structure Drive where
  sect : Nat → Sector
  time : Nat
  fails : Nat → Bool
  junk : Nat → Nat → Sector
  status : Nat → BitVec 8

/-- Every transfer is carried out, and the status shows no error. -/
def Drive.Quiet (d : Drive) : Prop := ∀ t, d.fails t = false ∧ d.status t &&& 1#8 = 0#8

/-- The drive after a request that leaves the sectors given. -/
def Drive.after (d : Drive) (sect : Nat → Sector) : Drive :=
  { d with time := d.time + 1, sect := sect }

inductive FatType
  | fat12 | fat16 | fat32
  deriving DecidableEq, Repr

/-- The distance of two entries in the FAT, in bits. -/
def FatType.bits : FatType → Nat
  | fat12 => 12
  | fat16 => 16
  | fat32 => 32

/-- The bits of an entry that hold its value. -/
def FatType.width : FatType → Nat
  | fat12 => 12
  | fat16 => 16
  | fat32 => 28

/-- The fields of `FATFS` that stay as mounting has set them. -/
structure Geometry where
  id : Nat
  fsType : FatType
  nFats : Nat
  csize : Nat
  nFatent : Nat
  fsize : Nat
  volbase : Nat
  fatbase : Nat
  database : Nat

/-- The areas of a volume that fits into 32-bit sector numbers. -/
structure Geometry.Ok (g : Geometry) : Prop where
  nFats : g.nFats = 1 ∨ g.nFats = 2
  csize : ∃ k ≤ 7, g.csize = 2 ^ k
  reserved : g.volbase + (if g.fsType = .fat32 then 1 else 0) < g.fatbase
  ents : 2 < g.nFatent
  limit : g.nFatent < 2 ^ g.fsType.width - 8
  table : g.fsType.bits * g.nFatent ≤ 8 * 512 * g.fsize
  area : g.fatbase + g.nFats * g.fsize ≤ g.database
  room : g.database + (g.nFatent - 2) * g.csize < 2 ^ 32

/-- The other fields of `FATFS`, and the drive that `drv` names. -/
structure Fatfs where
  wflag : Bool
  winsect : Nat
  win : Sector
  lastClst : Nat
  freeClst : Nat
  fsiFlag : BitVec 8
  drive : Drive

/-- The number of no sector; also the error value of `get_fat` and `create_chain`. -/
def allOnes : Nat := 0xFFFFFFFF

/-- `disk_read`: the sectors go into the first block of `buf`, one after the other, and the result
is `RES_OK` whatever the drive has reported. -/
def diskRead (buf : Nat → Sector) (sector count : Nat) :
    StateM Fatfs (DResult × (Nat → Sector)) := do
  let d := (← get).drive
  modify fun fs => { fs with drive := d.after d.sect }
  let last := if d.fails d.time then d.junk d.time 0 else d.sect (sector + count - 1)
  return (.ok, Function.update buf 0 last)

/-- `disk_write`: each of the sectors gets the first block of `buf`. -/
def diskWrite (buf : Nat → Sector) (sector count : Nat) : StateM Fatfs DResult := do
  let d := (← get).drive
  let new k := if d.fails d.time then d.junk d.time k else buf 0
  modify fun fs => { fs with
    drive := d.after fun s => if sector ≤ s ∧ s < sector + count then new (s - sector)
      else d.sect s }
  return .ok

def diskStatus : StateM Fatfs (BitVec 8) := do
  let d := (← get).drive
  modify fun fs => { fs with drive := d.after d.sect }
  return d.status d.time

/-- The loop of `sync_window` over the other copies of the FAT; the
result of the writes is dropped. -/
def reflect (g : Geometry) (win : Sector) : Nat → Nat → StateM Fatfs Unit
  | nf + 2, wsect => do
    let _ ← diskWrite (fun _ => win) (wsect + g.fsize) 1
    reflect g win (nf + 1) (wsect + g.fsize)
  | _, _ => return

def syncWindow (g : Geometry) : StateM Fatfs FResult := do
  let fs ← get
  if fs.wflag = false then return .ok
  if (← diskWrite (fun _ => fs.win) fs.winsect 1) ≠ .ok then return .diskErr
  modify fun fs => { fs with wflag := false }
  if sub32 fs.winsect g.fatbase < g.fsize then
    reflect g fs.win g.nFats fs.winsect
  return .ok

def moveWindow (g : Geometry) (sector : Nat) : StateM Fatfs FResult := do
  if sector = (← get).winsect then return .ok
  let res ← syncWindow g
  if res ≠ .ok then return res
  let fs ← get
  let (r, buf) ← diskRead (fun _ => fs.win) sector 1
  modify fun fs => { fs with win := buf 0, winsect := if r = .ok then sector else allOnes }
  return if r = .ok then .ok else .diskErr

/-- `*p = x; fs->wflag = 1;` for pointers `p` into the window. -/
def store (f : Sector → Sector) : StateM Fatfs Unit :=
  modify fun fs => { fs with win := f fs.win, wflag := true }

/-- The copies of the FAT behind the first one. -/
def Geometry.Mirror (g : Geometry) (s : Nat) : Prop :=
  g.fatbase + g.fsize ≤ s ∧ s < g.fatbase + g.nFats * g.fsize

/-- The copies are as the first FAT. -/
def Drive.Mirrored (g : Geometry) (d : Drive) : Prop :=
  ∀ s, g.Mirror s → d.sect s = d.sect (s - g.fsize)

/-- The sectors as the file system sees them: those of the drive, with a
changed window in its place. -/
def Fatfs.view (fs : Fatfs) : Nat → Sector :=
  if fs.wflag then Function.update fs.drive.sect fs.winsect fs.win else fs.drive.sect

/-- The FSInfo sector. It is written past the window, and read by mounting only. -/
def Geometry.Info (g : Geometry) (s : Nat) : Prop := g.fsType = .fat32 ∧ s = g.volbase + 1

/-- A quiet drive, and a window that holds the sector that it is said to hold. -/
structure WinOk (g : Geometry) (fs : Fatfs) : Prop where
  quiet : fs.drive.Quiet
  clean : fs.wflag = false → fs.winsect ≠ allOnes → ¬ g.Info fs.winsect →
    fs.win = fs.drive.sect fs.winsect
  dirty : fs.wflag = true → fs.winsect ≠ allOnes
  small : fs.winsect < 2 ^ 32
  primary : ¬ g.Mirror fs.winsect

/-- What no access to the window changes; copies that were in step stay so. -/
structure Kept (g : Geometry) (v t : Fatfs) : Prop where
  mirrored : v.drive.Mirrored g → t.drive.Mirrored g
  lastClst : t.lastClst = v.lastClst
  freeClst : t.freeClst = v.freeClst
  fsiFlag : t.fsiFlag = v.fsiFlag

/-- The window may have moved, but the file system sees the same sectors. -/
structure Moved (g : Geometry) (v t : Fatfs) : Prop extends Kept g v t where
  view : ∀ s, ¬ g.Mirror s → t.view s = v.view s

section

variable {g : Geometry} {v t u : Fatfs}

theorem Kept.refl (g : Geometry) (v : Fatfs) : Kept g v v := ⟨id, rfl, rfl, rfl⟩

theorem Kept.trans (h : Kept g v t) (k : Kept g t u) : Kept g v u where
  mirrored hm := k.mirrored (h.mirrored hm)
  lastClst := k.lastClst.trans h.lastClst
  freeClst := k.freeClst.trans h.freeClst
  fsiFlag := k.fsiFlag.trans h.fsiFlag

end

theorem Moved.refl (g : Geometry) (v : Fatfs) : Moved g v v := ⟨.refl g v, fun _ _ => rfl⟩

theorem Moved.trans {g : Geometry} {v t u : Fatfs} (h : Moved g v t) (k : Moved g t u) :
    Moved g v u :=
  ⟨h.toKept.trans k.toKept, fun s hs => (k.view s hs).trans (h.view s hs)⟩

section

variable {g : Geometry} {v : Fatfs} {buf : Nat → Sector}

theorem view_of_clean (h : v.wflag = false) : v.view = v.drive.sect := by simp [Fatfs.view, h]

theorem view_of_ne {s : Nat} (h : s ≠ v.winsect) : v.view s = v.drive.sect s := by
  unfold Fatfs.view
  split
  · exact Function.update_of_ne h _ _
  · rfl

theorem view_of_dirty (h : v.wflag = true) : v.view v.winsect = v.win := by simp [Fatfs.view, h]

theorem WinOk.view_winsect (h : WinOk g v) (hw : v.winsect ≠ allOnes) (hi : ¬ g.Info v.winsect) :
    v.view v.winsect = v.win := by
  cases hd : v.wflag with
  | false => rw [view_of_clean hd, h.clean hd hw hi]
  | true => exact view_of_dirty hd

theorem post_diskRead (hq : v.drive.Quiet) {s n : Nat}
    {Q : DResult × (Nat → Sector) → Fatfs → Prop} :
    Post (diskRead buf s n) v Q ↔
      Q (.ok, Function.update buf 0 (v.drive.sect (s + n - 1)))
        { v with drive := v.drive.after v.drive.sect } := by
  simp only [diskRead, post_bind, post_get, post_modify, post_pure, (hq _).1,
    Bool.false_eq_true, if_false]

theorem post_diskWrite (hq : v.drive.Quiet) {s : Nat} {Q : DResult → Fatfs → Prop} :
    Post (diskWrite buf s 1) v Q ↔
      Q .ok { v with drive := v.drive.after (Function.update v.drive.sect s (buf 0)) } := by
  have hone : (fun i => if s ≤ i ∧ i < s + 1 then buf 0 else v.drive.sect i) =
      Function.update v.drive.sect s (buf 0) := by
    funext i
    rw [Function.update_apply]
    exact if_congr (by omega) rfl rfl
  simp only [diskWrite, post_bind, post_get, post_modify, post_pure, (hq _).1,
    Bool.false_eq_true, if_false, hone]

theorem Geometry.Ok.mirror (hg : g.Ok) {s : Nat} : g.Mirror s ↔
    g.nFats = 2 ∧ g.fatbase + g.fsize ≤ s ∧ s < g.fatbase + 2 * g.fsize := by
  unfold Geometry.Mirror
  obtain h | h := hg.nFats <;> rw [h] <;> omega

theorem Geometry.Ok.not_info (hg : g.Ok) {s : Nat} (hs : g.fatbase ≤ s) : ¬ g.Info s := by
  rintro ⟨h32, rfl⟩
  have h := hg.reserved
  rw [if_pos h32] at h
  omega

theorem Geometry.Ok.not_mirror_allOnes (hg : g.Ok) : ¬ g.Mirror allOnes := by
  rintro ⟨-, h⟩
  have harea := hg.area
  have hroom := hg.room
  have : allOnes + 1 = 2 ^ 32 := by decide
  omega

/-- The test of `sync_window` for the FAT area. -/
theorem Geometry.Ok.inFat (hg : g.Ok) {s : Nat} (hs : s < 2 ^ 32) :
    sub32 s g.fatbase < g.fsize ↔ g.fatbase ≤ s ∧ s < g.fatbase + g.fsize := by
  have harea := hg.area
  have hroom := hg.room
  refine sub32_lt_iff hs ?_
  obtain h | h := hg.nFats <;> rw [h] at harea <;> omega

theorem reflect_spec (hg : g.Ok) (win : Sector) {wsect : Nat} (hq : v.drive.Quiet) :
    Post (reflect g win g.nFats wsect) v fun _ t => ∃ d, t = { v with drive := d } ∧ d.Quiet ∧
      ∀ s, d.sect s = if g.nFats = 2 ∧ s = wsect + g.fsize then win else v.drive.sect s := by
  obtain h | h := hg.nFats
  · rw [h, reflect]
    · exact ⟨_, rfl, hq, fun s => (if_neg (by simp)).symm⟩
    · simp
  · rw [h]
    simp only [reflect, post_bind, post_pure]
    rw [post_diskWrite hq]
    exact ⟨_, rfl, hq, fun s => (Function.update_apply ..).trans (by simp)⟩

/-- What a call of `sync_window` guarantees. -/
structure Synced (g : Geometry) (v : Fatfs) (r : FResult) (t : Fatfs) : Prop where
  result : r = .ok
  win : WinOk g t
  moved : Moved g v t
  flushed : t.wflag = false

/-- The drive has what was seen before, and the copies that were in step still are. -/
theorem Synced.of_sect (hv : WinOk g v) {d : Drive} (hq : d.Quiet)
    (hsect : ∀ s, ¬ g.Mirror s → d.sect s = v.view s) (hdirty : v.wflag = true)
    (hm : v.drive.Mirrored g → d.Mirrored g) :
    Synced g v .ok { v with drive := d, wflag := false } where
  result := rfl
  win := ⟨hq, fun _ _ _ => by rw [hsect _ hv.primary, view_of_dirty hdirty],
    by simp, hv.small, hv.primary⟩
  moved := ⟨⟨hm, rfl, rfl, rfl⟩, fun s hs => (congrFun (view_of_clean rfl) s).trans (hsect s hs)⟩
  flushed := rfl

theorem syncWindow_spec (hg : g.Ok) (hv : WinOk g v) : Post (syncWindow g) v (Synced g v) := by
  simp only [syncWindow, post_bind, post_get, post_ite, post_pure]
  refine ⟨fun h => ⟨rfl, hv, .refl g v, h⟩, fun h => ?_⟩
  have hdirty : v.wflag = true := by simpa using h
  have hview : v.view = Function.update v.drive.sect v.winsect v.win := by simp [Fatfs.view, hdirty]
  rw [post_diskWrite hv.quiet]
  refine ⟨fun hne => absurd rfl hne, fun _ => ?_⟩
  simp only [post_modify]
  refine ⟨fun hin => ?_, fun hin => ?_⟩
  · have hr := hg.inFat hv.small |>.mp hin
    refine Post.mono (reflect_spec hg v.win ?_) ?_
    · exact hv.quiet
    rintro - t ⟨d, rfl, hq, hd⟩
    have hsect : ∀ s, d.sect s = if g.nFats = 2 ∧ s = v.winsect + g.fsize then v.win
        else v.view s := fun s => by
      rw [hview]
      exact hd s
    refine .of_sect hv hq (fun s hs => ?_) hdirty fun hm s hs => ?_
    · rw [hg.mirror] at hs
      rw [hsect, if_neg (by omega)]
    · have hs' := hg.mirror.mp hs
      rw [hsect s, hsect (s - g.fsize), if_neg (c := g.nFats = 2 ∧
        s - g.fsize = v.winsect + g.fsize) (by omega)]
      split
      · next he => rw [he.2, Nat.add_sub_cancel, view_of_dirty hdirty]
      · next he => rw [view_of_ne (by omega), view_of_ne (by omega), hm s hs]
  · refine .of_sect hv (d := v.drive.after _) hv.quiet (fun s _ => by rw [hview]; rfl)
      hdirty fun hm s hs => ?_
    have hs' := hg.mirror.mp hs
    rw [hg.inFat hv.small] at hin
    have hprim := hv.primary
    rw [hg.mirror] at hprim
    change Function.update v.drive.sect v.winsect v.win s = Function.update v.drive.sect
      v.winsect v.win (s - g.fsize)
    rw [Function.update_of_ne (by omega), Function.update_of_ne (by omega), hm s hs]

/-- What a call of `move_window` guarantees. -/
structure MovedTo (g : Geometry) (sector : Nat) (v : Fatfs) (r : FResult) (t : Fatfs) : Prop where
  result : r = .ok
  win : WinOk g t
  moved : Moved g v t
  winsect : t.winsect = sector
  eq : t.win = v.view sector

theorem moveWindow_spec (hg : g.Ok) (hv : WinOk g v) {sector : Nat} (hs : sector < allOnes)
    (hp : ¬ g.Mirror sector) (hi : ¬ g.Info sector) :
    Post (moveWindow g sector) v (MovedTo g sector v) := by
  simp only [moveWindow, post_bind, post_get, post_ite, post_pure, post_modify]
  refine ⟨fun he => ⟨rfl, hv, .refl g v, he.symm, ?_⟩, fun _ => ?_⟩
  · rw [he, hv.view_winsect (by omega) (he ▸ hi)]
  refine (syncWindow_spec hg hv).mono ?_
  rintro _ t ⟨rfl, ht, hm, hclean⟩
  refine ⟨fun hne => absurd rfl hne, fun _ => ?_⟩
  rw [post_diskRead ht.quiet, Nat.add_sub_cancel]
  have hsect : v.view sector = t.drive.sect sector := by rw [← hm.view
    sector hp, view_of_clean hclean]
  have hread : Moved g t
      { t with
        drive := t.drive.after t.drive.sect, win := t.drive.sect sector, winsect := sector } :=
    ⟨⟨id, rfl, rfl, rfl⟩, fun s _ => by simp [Fatfs.view, hclean, Drive.after]⟩
  refine ⟨rfl, ⟨ht.quiet, fun _ _ _ => ?_, ?_, ?_, hp⟩, hm.trans hread, rfl, hsect.symm⟩
  · rfl
  · simp [hclean]
  · exact hs.trans (by decide)

/-- The state after a store. -/
structure Stored (g : Geometry) (f : Sector → Sector) (v t : Fatfs) : Prop where
  win : WinOk g t
  kept : Kept g v t
  winsect : t.winsect = v.winsect
  view : t.view = Function.update v.view v.winsect (f v.win)

theorem store_spec (hv : WinOk g v) (hs : v.winsect ≠ allOnes) (f : Sector → Sector) :
    Post (store f) v fun _ t => Stored g f v t := by
  rw [store, post_modify]
  refine ⟨⟨hv.quiet, by simp, fun _ => hs, hv.small, hv.primary⟩, ⟨id, rfl, rfl, rfl⟩, rfl, ?_⟩
  cases hd : v.wflag <;> simp [Fatfs.view, hd]

end

end NctuCourses.Osdi.Fat
