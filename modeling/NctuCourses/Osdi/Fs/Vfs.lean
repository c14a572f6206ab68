import Mathlib.Data.Finset.Card
import Mathlib.Data.Fintype.Basic
import NctuCourses.Lib.Run

namespace NctuCourses.Osdi.Fs

abbrev Bytes := List (BitVec 8)

def fsFdMax : Nat := 10

def pathMax : Nat := 64

def statusEnoent : Int := 2

def statusEbadf : Int := 9

def statusEexist : Int := 17

def statusEinval : Int := 22

def oRdonly : BitVec 32 := 0x0000

def oWronly : BitVec 32 := 0x0001

def oRdwr : BitVec 32 := 0x0002

def oCreat : BitVec 32 := 0x0100

def oTrunc : BitVec 32 := 0x1000

def oAppend : BitVec 32 := 0x2000

def seekSet : Int := 0

def seekCur : Int := 1

def seekEnd : Int := 2

def faRead : BitVec 8 := 0x01

def faWrite : BitVec 8 := 0x02

def faCreateNew : BitVec 8 := 0x04

def faCreateAlways : BitVec 8 := 0x08

/-- `FRESULT`. -/
inductive FResult
  | ok | diskErr | intErr | notReady | noFile | noPath | invalidName | denied | exist
  | invalidObject | writeProtected | invalidDrive | notEnabled | noFilesystem | mkfsAborted
  | timeout | locked | notEnoughCore | tooManyOpenFiles | invalidParameter
  deriving DecidableEq, Repr

def FResult.code : FResult → Int
  | ok => 0
  | diskErr => 1
  | intErr => 2
  | notReady => 3
  | noFile => 4
  | noPath => 5
  | invalidName => 6
  | denied => 7
  | exist => 8
  | invalidObject => 9
  | writeProtected => 10
  | invalidDrive => 11
  | notEnabled => 12
  | noFilesystem => 13
  | mkfsAborted => 14
  | timeout => 15
  | locked => 16
  | notEnoughCore => 17
  | tooManyOpenFiles => 18
  | invalidParameter => 19

/-- Only `FR_OK` is returned to user space as a value that is not negative. -/
theorem FResult.neg_code_nonneg {r : FResult} : 0 ≤ -r.code ↔ r = .ok := by
  cases r <;> decide

/-- The FatFs library under the file system: its volume, its file objects and the calls that the
kernel makes. A call gets the file object and the volume and returns both with its result. -/
structure FatFs where
  World : Type
  Fil : Type
  /-- A file object after `memset(data, 0, sizeof(FIL))`. -/
  zero : Fil
  fptr : Fil → BitVec 32
  objsize : Fil → BitVec 32
  fOpen : Fil → Bytes → BitVec 8 → World → FResult × Fil × World
  fClose : Fil → World → FResult × Fil × World
  /-- The second component is what has been put into the buffer; its length is `*br`. -/
  fRead : Fil → BitVec 32 → World → FResult × Bytes × Fil × World
  /-- The second component is `*bw`. -/
  fWrite : Fil → Bytes → BitVec 32 → World → FResult × BitVec 32 × Fil × World
  fLseek : Fil → BitVec 32 → World → FResult × Fil × World

/-- `struct fs_fd`. `data` of entry `i` is always `&file_objs[i]`, see `Vfs.objs`. -/
structure FsFd where
  path : Bytes
  path_fits : path.length < pathMax
  refCount : Int
  flags : BitVec 32
  size : BitVec 32
  pos : BitVec 32

abbrev Slot := Fin fsFdMax

/-- `fd_table`, `file_objs` and the volume. -/
structure Vfs (F : FatFs) where
  table : Slot → FsFd
  objs : Slot → F.Fil
  world : F.World

variable {F : FatFs}

def Vfs.setFd (v : Vfs F) (d : Slot) (f : FsFd) : Vfs F :=
  { v with table := Function.update v.table d f }

def Vfs.setObj (v : Vfs F) (d : Slot) (o : F.Fil) (w : F.World) : Vfs F :=
  { v with objs := Function.update v.objs d o, world := w }

def Vfs.setRef (v : Vfs F) (d : Slot) (n : Int) : Vfs F :=
  v.setFd d { v.table d with refCount := n }

def FsFd.zero : FsFd := ⟨[], by decide, 0, 0, 0, 0⟩

/-- The table as `fs_init` leaves it, whatever mounting has made of the volume. -/
def fsInit (w : F.World) : Vfs F := ⟨fun _ => .zero, fun _ => F.zero, w⟩

/-- `fd_new`; no slot is the return value `-1`. -/
def fdNew (v : Vfs F) : Option Slot × Vfs F :=
  match (List.finRange fsFdMax).find? (fun d => (v.table d).refCount ≤ 0) with
  | none => (none, v)
  | some d => (some d, v.setRef d 1)

/-- `fd_get`. The inner `none` is the null pointer; the outer one is the entry just behind the
table, which passes the bound check. -/
def fdGet (fd : Int) (v : Vfs F) : Option (Option Slot × Vfs F) :=
  if fd < 0 ∨ fd > fsFdMax then some (none, v)
  else if h : fd.toNat < fsFdMax then
    let d : Slot := ⟨fd.toNat, h⟩
    some (some d, v.setRef d ((v.table d).refCount + 1))
  else none

def fdPut (d : Slot) (v : Vfs F) : Vfs F :=
  let v := v.setRef d ((v.table d).refCount - 1)
  if (v.table d).refCount = 0 then v.setObj d F.zero v.world else v

def fatOpenMode (flags : BitVec 32) : BitVec 8 :=
  (if flags = oRdonly then faRead else 0) |||
  (if flags &&& oWronly ≠ 0 then faWrite else 0) |||
  (if flags &&& oRdwr ≠ 0 then faRead ||| faWrite else 0) |||
  (if flags &&& oCreat ≠ 0 ∧ flags &&& oTrunc ≠ 0 then faCreateAlways
   else if flags &&& oCreat ≠ 0 then faCreateNew else 0)

def fatOpenSize (flags size : BitVec 32) : BitVec 32 :=
  if flags &&& oCreat ≠ 0 ∧ flags &&& oTrunc ≠ 0 then 0
  else if flags &&& oCreat ≠ 0 then 0 else size

def fatOpen (d : Slot) (v : Vfs F) : Int × Vfs F :=
  let file := v.table d
  let v := v.setFd d { file with size := fatOpenSize file.flags file.size, pos := 0 }
  let (res, o, w) := F.fOpen (v.objs d) file.path (fatOpenMode file.flags) v.world
  if file.flags &&& oAppend ≠ 0 then
    -- the result of the seek is dropped, and it is made after a failed open too
    let (_, o, w) := F.fLseek o (F.objsize o) w
    (-res.code, v.setObj d o w)
  else (-res.code, v.setObj d o w)

def fatClose (d : Slot) (v : Vfs F) : Int × Vfs F :=
  let (res, o, w) := F.fClose (v.objs d) v.world
  (-res.code, v.setObj d o w)

def fatRead (d : Slot) (count : BitVec 32) (v : Vfs F) : Int × Bytes × Vfs F :=
  let (res, data, o, w) := F.fRead (v.objs d) count v.world
  (if res = .ok then (BitVec.ofNat 32 data.length).toInt else -res.code, data, v.setObj d o w)

def fatWrite (d : Slot) (buf : Bytes) (count : BitVec 32) (v : Vfs F) : Int × Vfs F :=
  let (res, bw, o, w) := F.fWrite (v.objs d) buf count v.world
  let file := v.table d
  let pos := file.pos + bw
  (if res = .ok then bw.toInt else -res.code,
    (v.setObj d o w).setFd d
      { file with pos := pos, size := if pos > file.size then pos else file.size })

def fatLseek (d : Slot) (offset : BitVec 32) (v : Vfs F) : Int × Vfs F :=
  let (res, o, w) := F.fLseek (v.objs d) offset v.world
  (-res.code, v.setObj d o w)

/-- `none` is a `strcpy` past the end of `path`. -/
def fileOpen (d : Slot) (path : Bytes) (flags : BitVec 32) (v : Vfs F) : Option (Int × Vfs F) :=
  if h : path.length < pathMax then
    some (fatOpen d (v.setFd d { v.table d with path := path, path_fits := h, flags := flags }))
  else none

/-- The value returned is `none` when the error has no case of its own in the `switch`: control
then reaches the end of `sys_open` without a `return`. -/
def sysOpen (file : Bytes) (flags : BitVec 32) (v : Vfs F) : Option (Option Int × Vfs F) := do
  match fdNew v with
  | (none, v) => some (some (-1), v)
  | (some fd, v) =>
    let (fsfd, v) ← fdGet fd.val v
    let fsfd ← fsfd
    let (res, v) ← fileOpen fsfd file flags v
    let v := fdPut fsfd v
    if res < 0 then
      if res = -FResult.noFile.code then some (some (-statusEnoent), v)
      else if res = -FResult.exist.code then some (some (-statusEexist), v)
      else some (none, v)
    else some (some fd.val, v)

def sysClose (fd : Int) (v : Vfs F) : Option (Int × Vfs F) := do
  match ← fdGet fd v with
  | (none, v) => some (-statusEinval, v)
  | (some fsfd, v) =>
    let (res, v) := fatClose fsfd v
    some (res, fdPut fsfd (fdPut fsfd v))

/-- `buf` says whether the buffer is not `NULL`. Returned besides the value
is what has been put into it. -/
def sysRead (fd : Int) (buf : Bool) (len : BitVec 32) (v : Vfs F) :
    Option (Int × Bytes × Vfs F) := do
  match ← fdGet fd v with
  | (none, v) => some (-statusEbadf, [], v)
  | (some fsfd, v) =>
    if buf = false ∨ len.toInt < 0 then some (-statusEinval, [], v)
    else
      let (res, data, v) := fatRead fsfd len v
      some (res, data, fdPut fsfd v)

/-- `buf` is what the buffer holds, or `none` for `NULL`. -/
def sysWrite (fd : Int) (buf : Option Bytes) (len : BitVec 32) (v : Vfs F) :
    Option (Int × Vfs F) := do
  match ← fdGet fd v with
  | (none, v) => some (-statusEbadf, v)
  | (some fsfd, v) =>
    match buf with
    | none => some (-statusEinval, v)
    | some buf =>
      if len.toInt < 0 then some (-statusEinval, v)
      else
        let (res, v) := fatWrite fsfd buf len v
        some (res, fdPut fsfd v)

/-- The offset that `sys_lseek` computes from `whence`. -/
def newOffset (file : FsFd) (offset : BitVec 32) (whence : Int) : BitVec 32 :=
  if whence = seekSet then offset
  else if whence = seekCur then file.pos + offset
  else if whence = seekEnd then file.size + offset
  else 0

def sysLseek (fd : Int) (offset : BitVec 32) (whence : Int) (v : Vfs F) :
    Option (Int × Vfs F) := do
  match ← fdGet fd v with
  | (none, v) => some (-statusEbadf, v)
  | (some fsfd, v) =>
    if offset.toInt < 0 then some (-statusEinval, v)
    else
      let ofs := newOffset (v.table fsfd) offset whence
      -- the descriptor is put back before the seek
      some (fatLseek fsfd ofs (fdPut fsfd v))

inductive FsCall
  | open (file : Bytes) (flags : BitVec 32)
  | close (fd : Int)
  | read (fd : Int) (buf : Bool) (len : BitVec 32)
  | write (fd : Int) (buf : Option Bytes) (len : BitVec 32)
  | lseek (fd : Int) (offset : BitVec 32) (whence : Int)

def FsCall.run (v : Vfs F) : FsCall → Option (Option Int × Vfs F)
  | .open file flags => sysOpen file flags v
  | .close fd => (sysClose fd v).map fun (r, v) => (some r, v)
  | .read fd buf len => (sysRead fd buf len v).map fun (r, _, v) => (some r, v)
  | .write fd buf len => (sysWrite fd buf len v).map fun (r, v) => (some r, v)
  | .lseek fd offset whence => (sysLseek fd offset whence v).map fun (r, v) => (some r, v)

/-- The file system with the descriptors that user programs hold. -/
structure Session (F : FatFs) where
  vfs : Vfs F
  opened : Finset Int

def Session.init (w : F.World) : Session F := ⟨fsInit w, ∅⟩

/-- What a call that returned `r` does to the set of open descriptors. -/
def FsCall.track (r : Option Int) (opened : Finset Int) : FsCall → Finset Int
  | .open _ _ =>
    match r with
    | some fd => if 0 ≤ fd then insert fd opened else opened
    | none => opened
  | .close fd => opened.erase fd
  | _ => opened

def Session.exec (s : Session F) (c : FsCall) : Option (Option Int × Session F) :=
  (c.run s.vfs).map fun (r, v) => (r, ⟨v, c.track r s.opened⟩)

/-- Every descriptor that the call names is open. -/
def FsCall.Aims (opened : Finset Int) : FsCall → Prop
  | .open _ _ => True
  | .close fd | .read fd _ _ | .write fd _ _ | .lseek fd _ _ => fd ∈ opened

def FsStep (s : Session F) (c : FsCall) (t : Session F) : Prop :=
  c.Aims s.opened ∧ ∃ r, s.exec c = some (r, t)

/-- A step whose call succeeds. -/
def FsSuccess (s : Session F) (c : FsCall) (t : Session F) : Prop :=
  c.Aims s.opened ∧ ∃ r, 0 ≤ r ∧ s.exec c = some (some r, t)

theorem FsSuccess.step {s t : Session F} {c : FsCall} (h : FsSuccess s c t) : FsStep s c t := by
  obtain ⟨ha, r, _, hr⟩ := h
  exact ⟨ha, some r, hr⟩

instance FsCall.decidableAims (opened : Finset Int) : (c : FsCall) → Decidable (c.Aims opened)
  | .open _ _ => inferInstanceAs (Decidable True)
  | .close fd | .read fd _ _ | .write fd _ _ | .lseek fd _ _ =>
    inferInstanceAs (Decidable (fd ∈ opened))

/-- The state after a list of calls, each of which passes a check. -/
def Session.play (ok : Session F → FsCall → Option Int → Bool) (s : Session F) :
    List FsCall → Option (Session F)
  | [] => some s
  | c :: cs =>
    match s.exec c with
    | none => none
    | some (r, t) => if ok s c r then t.play ok cs else none

theorem Session.play_reach {ok : Session F → FsCall → Option Int → Bool}
    {step : Session F → FsCall → Session F → Prop}
    (hstep : ∀ s c r t, s.exec c = some (r, t) → ok s c r = true → step s c t)
    {cs : List FsCall} {s t : Session F} (h : s.play ok cs = some t) :
    Lib.Reach step s cs t := by
  induction cs generalizing s with
  | nil =>
    cases h
    exact .init
  | cons c cs ih =>
    rw [Session.play] at h
    split at h
    · cases h
    · rename_i r u hu
      split at h
      · rename_i hok
        exact (Lib.Reach.init.snoc (hstep s c r u hu hok)).trans (ih h)
      · cases h

structure RamFil where
  path : Bytes
  fptr : BitVec 32
  objsize : BitVec 32

def RamFil.seek (o : RamFil) (ofs : BitVec 32) : RamFil :=
  { o with fptr := ofs, objsize := if ofs > o.objsize then ofs else o.objsize }

/-- Files in memory, opened, read and written as FatFs does it on a volume that never fails. -/
def ramFat : FatFs where
  World := Bytes → Option Bytes
  Fil := RamFil
  zero := ⟨[], 0, 0⟩
  fptr := RamFil.fptr
  objsize := RamFil.objsize
  fOpen o path mode w :=
    match w path with
    | none =>
      if mode &&& (faCreateNew ||| faCreateAlways) = 0 then (.noFile, o, w)
      else (.ok, ⟨path, 0, 0⟩, Function.update w path (some []))
    | some data =>
      if mode &&& faCreateNew ≠ 0 then (.exist, o, w)
      else if mode &&& faCreateAlways ≠ 0 then
        (.ok, ⟨path, 0, 0⟩, Function.update w path (some []))
      else (.ok, ⟨path, 0, BitVec.ofNat 32 data.length⟩, w)
  fClose o w := (.ok, o, w)
  fRead o count w :=
    let data := (((w o.path).getD []).drop o.fptr.toNat).take count.toNat
    (.ok, data, { o with fptr := o.fptr + BitVec.ofNat 32 data.length }, w)
  fWrite o buf count w :=
    let old := (w o.path).getD []
    let new := old.take o.fptr.toNat ++ buf.take count.toNat ++
      old.drop (o.fptr.toNat + (buf.take count.toNat).length)
    let bw := BitVec.ofNat 32 (buf.take count.toNat).length
    (.ok, bw, o.seek (o.fptr + bw), Function.update w o.path (some new))
  fLseek o ofs w := (.ok, o.seek ofs, w)

def noFiles : ramFat.World := fun _ => none

end NctuCourses.Osdi.Fs
