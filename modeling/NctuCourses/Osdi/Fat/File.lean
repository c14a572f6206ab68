import Mathlib.Data.List.GetD
import NctuCourses.Osdi.Fat.Chain

namespace NctuCourses.Osdi.Fat

open NctuCourses.Lib
open NctuCourses.Osdi.Fs (FResult)

/-- `FIL`. The bits of `flag` that the functions read are fields of their own. -/
structure Fil where
  fs : Bool
  id : Nat
  sclust : Nat
  objsize : Nat
  faRead : Bool
  faDirty : Bool
  err : FResult
  fptr : Nat
  clust : Nat
  sect : Nat
  buf : Sector

/-- A function that gets a `FIL`; `ABORT` leaves it early. -/
abbrev FileM := ExceptT FResult (StateM (Fil × Fatfs))

def onFs {α : Type} (m : StateM Fatfs α) : FileM α := ExceptT.mk fun s =>
  let r := m.run s.2
  (.ok r.1, s.1, r.2)

def fil : FileM Fil := return (← get).1

def modFil (f : Fil → Fil) : FileM Unit := modify fun s => (f s.1, s.2)

/-- Addition of two `DWORD`s. -/
def add32 (a b : Nat) : Nat := (a + b) % 2 ^ 32

def clust2sect (g : Geometry) (clst : Nat) : Nat :=
  let clst := sub32 clst 2
  if clst ≥ g.nFatent - 2 then 0 else add32 (clst * g.csize % 2 ^ 32) g.database

/-- The sector of the cluster that the file pointer is in. -/
def csectOf (g : Geometry) (fptr : Nat) : Nat := fptr / ss &&& (g.csize - 1)

/-- Clip at the cluster boundary. -/
def clip (g : Geometry) (csect cc : Nat) : Nat :=
  if csect + cc > g.csize then g.csize - csect else cc

/-- Write back the sector in `fp->buf` if it has been changed. -/
def flush : FileM Unit := do
  let fp ← fil
  if fp.faDirty then
    if (← onFs (diskWrite (fun _ => fp.buf) fp.sect 1)) ≠ .ok then throw .diskErr
    modFil fun fp => { fp with faDirty := false }

/-- `disk_read(fs->drv, fp->buf, sect, 1)`. -/
def fill (sect : Nat) : FileM Unit := do
  let fp ← fil
  let (r, b) ← onFs (diskRead (fun _ => fp.buf) sect 1)
  modFil fun fp => { fp with buf := b 0 }
  if r ≠ .ok then throw .diskErr

/-- The blocks of the memory at a pointer. -/
def blocks (rbuff : Nat → BitVec 8) (k : Nat) : Sector := fun j => rbuff (ss * k + j.val)

/-- The bytes of `count` sectors. -/
def sectorBytes (b : Nat → Sector) (count : Nat) : List (BitVec 8) :=
  (List.range (count * ss)).map fun i => (b (i / ss)).byte i

def validate (g : Geometry) : StateM (Fil × Fatfs) FResult := do
  let (fp, fs) ← get
  if fp.fs = false ∨ g.id ≠ fp.id then return .invalidObject
  let (stat, fs) := (diskStatus.run fs).run
  set (fp, fs)
  return if stat &&& 1#8 ≠ 0#8 then .invalidObject else .ok

/-- The cluster for the next bytes, at the start of a cluster. -/
def readClust (g : Geometry) : FileM Unit := do
  let fp ← fil
  let clst ← if fp.fptr = 0 then pure fp.sclust else onFs (getFat g fp.clust)
  if clst < 2 then throw .intErr
  if clst = allOnes then throw .diskErr
  modFil fun fp => { fp with clust := clst }

/-- `readClust` where a cluster starts. -/
def enterClust (g : Geometry) : FileM Unit := do
  if csectOf g (← fil).fptr = 0 then readClust g

/-- `disk_read` of `cc` sectors into `rbuff`, where what `fp->buf` has in
place of one of them goes too. -/
def readDirect (rbuff : Nat → BitVec 8) (sect cc : Nat) : FileM (List (BitVec 8)) := do
  let (r, b) ← onFs (diskRead (blocks rbuff) sect cc)
  if r ≠ .ok then throw .diskErr
  let fp ← fil
  return sectorBytes
    (if fp.faDirty ∧ sub32 fp.sect sect < cc then Function.update b (sub32 fp.sect sect) fp.buf
      else b) cc

/-- Bring a sector into the buffer. -/
def loadSect (sect : Nat) : FileM Unit := do
  if (← fil).sect ≠ sect then
    flush
    fill sect
  modFil fun fp => { fp with sect := sect }

/-- A round of the loop of `f_read` up to where the buffer is used: the bytes that were read past
it, if there are any. -/
def readSect (g : Geometry) (rbuff : Nat → BitVec 8) (btr : Nat) :
    FileM (Option (List (BitVec 8))) := do
  enterClust g
  let fp ← fil
  let csect := csectOf g fp.fptr
  if clust2sect g fp.clust = 0 then throw .intErr
  let sect := clust2sect g fp.clust + csect
  let cc := btr / ss
  if cc ≠ 0 then
    return some (← readDirect rbuff sect (clip g csect cc))
  loadSect sect
  return none

def readStart (g : Geometry) (rbuff : Nat → BitVec 8) (btr : Nat) :
    FileM (Option (List (BitVec 8))) := do
  if (← fil).fptr % ss = 0 then readSect g rbuff btr else return none

/-- A round of the loop: the next bytes. -/
def readRound (g : Geometry) (rbuff : Nat → BitVec 8) (btr : Nat) : FileM (List (BitVec 8)) := do
  match ← readStart g rbuff btr with
  | some bytes => return bytes
  | none =>
    let fp ← fil
    return (List.range (min (ss - fp.fptr % ss) btr)).map fun i => fp.buf.byte (fp.fptr + i)

/-- `ABORT(fs, res)`. -/
def abort (res : FResult) : StateM (Fil × Fatfs) FResult := do
  modify fun s => ({ s.1 with err := res }, s.2)
  return res

/-- The loop. A round moves at least a byte. -/
def readLoop (g : Geometry) (rbuff : Nat → BitVec 8) :
    Nat → Nat → List (BitVec 8) → StateM (Fil × Fatfs) (FResult × List (BitVec 8))
  | 0, _, done => return (.ok, done)
  | fuel + 1, btr, done => do
    if btr = 0 then return (.ok, done)
    match ← (readRound g (fun i => rbuff (done.length + i)) btr).run with
    | .error res => return (← abort res, done)
    | .ok bytes =>
      modify fun s => ({ s.1 with fptr := add32 s.1.fptr bytes.length }, s.2)
      readLoop g rbuff fuel (btr - bytes.length) (done ++ bytes)

/-- The list is what `*br` counts in the buffer, which has the contents `rbuff` before. -/
def fRead (g : Geometry) (rbuff : Nat → BitVec 8) (btr : Nat) :
    StateM (Fil × Fatfs) (FResult × List (BitVec 8)) := do
  let res ← validate g
  if res ≠ .ok then return (res, [])
  let fp := (← get).1
  if fp.err ≠ .ok then return (fp.err, [])
  if fp.faRead = false then return (.denied, [])
  let remain := sub32 fp.objsize fp.fptr
  let btr := if btr > remain then remain else btr
  readLoop g rbuff btr btr []

/-- The first sector of a cluster. -/
def sectOf (g : Geometry) (c : Nat) : Nat := (c - 2) * g.csize + g.database

/-- The sectors of the clusters of the list. -/
def InFile (g : Geometry) (l : List Nat) (s : Nat) : Prop :=
  ∃ c ∈ l, sectOf g c ≤ s ∧ s < sectOf g c + g.csize

/-- The number of the `k`-th sector of a file that has the clusters of the list. -/
def fileSect (g : Geometry) (l : List Nat) (k : Nat) : Nat :=
  sectOf g (l.getD (k / g.csize) 0) + k % g.csize

section

variable {g : Geometry} {v t : Fatfs} {l : List Nat}

theorem Geometry.Ok.csize_pos (hg : g.Ok) : 0 < g.csize := by
  obtain ⟨k, -, hk⟩ := hg.csize
  rw [hk]
  exact Nat.two_pow_pos k

theorem Geometry.Ok.sectOf_lt (hg : g.Ok) {c : Nat} (hc : g.Clust c) :
    sectOf g c + g.csize < allOnes + 1 := by
  have hroom := hg.room
  have hle : (c - 2 + 1) * g.csize ≤ (g.nFatent - 2) * g.csize :=
    Nat.mul_le_mul_right _ (by unfold Geometry.Clust at hc; omega)
  rw [Nat.add_one_mul] at hle
  unfold sectOf allOnes
  omega

theorem clust2sect_eq (hg : g.Ok) {c : Nat} (hc : g.Clust c) : clust2sect g c = sectOf g c := by
  have hlt := hg.sectOf_lt hc
  have hn := hg.nFatent_lt.2
  have hcs := hg.csize_pos
  unfold Geometry.Clust at hc
  unfold sectOf allOnes at hlt
  unfold allOnes at hn
  unfold clust2sect
  rw [sub32_of_le (by omega) (by omega)]
  dsimp only
  rw [if_neg (by omega), add32, Nat.mod_eq_of_lt (a := (c - 2) * g.csize) (by omega),
    Nat.mod_eq_of_lt (by omega), sectOf]

theorem Geometry.Ok.sectOf_pos (hg : g.Ok) (c : Nat) : 0 < sectOf g c := by
  have := hg.area
  have := hg.reserved
  unfold sectOf
  omega

theorem sectOf_unique {c c' s : Nat} (hc : 2 ≤ c) (hc' : 2 ≤ c')
    (h : sectOf g c ≤ s ∧ s < sectOf g c + g.csize)
    (h' : sectOf g c' ≤ s ∧ s < sectOf g c' + g.csize) : c = c' := by
  unfold sectOf at *
  have hd : ∀ {a : Nat}, a * g.csize + g.database ≤ s ∧ s < a * g.csize + g.database + g.csize →
      (s - g.database) / g.csize = a := fun {a} ha =>
    Nat.div_eq_of_lt_le (by omega) (by rw [Nat.add_one_mul]; omega)
  have := (hd h).symm.trans (hd h')
  omega

theorem InFile.outside (hg : g.Ok) {s : Nat} (h : InFile g l s) :
    ¬ g.InFat s ∧ ¬ g.Mirror s ∧ ¬ g.Info s := by
  obtain ⟨c, -, hs, -⟩ := h
  have harea := hg.area
  have hle : g.database ≤ s := by
    unfold sectOf at hs
    omega
  have hf : g.fatbase + g.fsize ≤ g.database := by
    obtain h | h := hg.nFats <;> rw [h] at harea <;> omega
  refine ⟨?_, ?_, hg.not_info (by omega)⟩
  · unfold Geometry.InFat
    omega
  · unfold Geometry.Mirror
    omega

theorem fileSect_mem (hg : g.Ok) {k : Nat} (hk : k < l.length * g.csize) :
    InFile g l (fileSect g l k) := by
  have hlt : k / g.csize < l.length := Nat.div_lt_of_lt_mul (by rwa [Nat.mul_comm])
  have hmod := Nat.mod_lt k hg.csize_pos
  unfold fileSect
  rw [List.getD_eq_getElem _ _ hlt]
  exact ⟨_, List.getElem_mem hlt, by omega, by omega⟩

theorem csectOf_eq (hg : g.Ok) (fptr : Nat) : csectOf g fptr = fptr / 512 % g.csize := by
  obtain ⟨k, -, hk⟩ := hg.csize
  rw [csectOf, hk, Nat.and_two_pow_sub_one_eq_mod]
  rfl

/-- The sectors as the file sees them: those of the drive, with a changed buffer in its place. -/
def Fil.data (fp : Fil) (v : Fatfs) : Nat → Sector :=
  if fp.faDirty then Function.update v.drive.sect fp.sect fp.buf else v.drive.sect

/-- A file object whose clusters are those of the list, and what is in its buffer. -/
structure FileBuf (g : Geometry) (l : List Nat) (fp : Fil) (v : Fatfs) : Prop where
  chain : IsChain g v.view fp.sclust l
  away : ¬ InFile g l v.winsect
  cached : fp.sect = 0 ∧ fp.faDirty = false ∨ InFile g l fp.sect
  clean : fp.faDirty = false → fp.sect ≠ 0 → fp.buf = v.drive.sect fp.sect

/-- A file object between two rounds of a transfer. -/
structure FileOk (g : Geometry) (l : List Nat) (fp : Fil) (v : Fatfs) :
    Prop extends FileBuf g l fp v where
  size : fp.objsize ≤ l.length * g.csize * 512
  limit : fp.objsize < 2 ^ 32
  ptr : fp.fptr ≤ fp.objsize
  clust : 0 < fp.fptr → l[(fp.fptr - 1) / 512 / g.csize]? = some fp.clust
  here : fp.fptr % 512 ≠ 0 → fp.sect = fileSect g l (fp.fptr / 512)

/-- What reading a file with the clusters of the list leaves alone. -/
structure Touched (g : Geometry) (l : List Nat) (v t : Fatfs) : Prop where
  place : FatWin g v t
  view : ∀ s, ¬ g.Mirror s → ¬ InFile g l s → t.view s = v.view s

/-- Two states of a file object that differ in the buffer and the current cluster. -/
def Fil.Same (fp fp' : Fil) : Prop :=
  ∃ c s b d, fp' = { fp with clust := c, sect := s, buf := b, faDirty := d }

theorem Fil.Same.refl (fp : Fil) : fp.Same fp := ⟨_, _, _, _, rfl⟩

theorem Fil.Same.trans {fp fp' fp'' : Fil} (h : fp.Same fp') (k : fp'.Same fp'') :
    fp.Same fp'' := by
  obtain ⟨_, _, _, _, rfl⟩ := h
  obtain ⟨_, _, _, _, rfl⟩ := k
  exact ⟨_, _, _, _, rfl⟩

theorem Touched.refl (g : Geometry) (l : List Nat) (v : Fatfs) : Touched g l v v :=
  ⟨.inl rfl, fun _ _ _ => rfl⟩

theorem Touched.trans {u : Fatfs} (h : Touched g l v t) (k : Touched g l t u) : Touched g l v u :=
  ⟨h.place.trans k.place, fun s hs hf => (k.view s hs hf).trans (h.view s hs hf)⟩

/-- A file sector keeps away from the window whatever the window is used for in the meantime. -/
theorem InFile.ne_winsect (hg : g.Ok) {s : Nat} (hs : InFile g l s) (h : s ≠ v.winsect)
    (hp : FatWin g v t) :
    s ≠ t.winsect := by
  rintro rfl
  obtain hw | hw := hp
  · exact h hw
  · exact (hs.outside hg).1 hw

theorem drive_sect_eq (hg : g.Ok) (haway : ¬ InFile g l v.winsect) (hp : FatWin g v t) {s : Nat}
    (hs : InFile g l s) (hview : t.view s = v.view s) : t.drive.sect s = v.drive.sect s := by
  have hne : s ≠ v.winsect := by
    rintro rfl
    exact haway hs
  rw [← view_of_ne hne, ← view_of_ne (hs.ne_winsect hg hne hp), hview]

theorem entry_of_fat (hg : g.Ok) {d d' : Nat → Sector} (h : ∀ s, g.InFat s → d' s = d s) {c : Nat}
    (hc : g.Clust c) :
    entry g d' c = entry g d c :=
  entry_congr fun _ hi => by
    rw [bitAt, bitAt, fatBytes, fatBytes, h _ (g.inFat_byte (hg.bit_lt hc.2 hi))]

theorem Touched.entry_eq (hg : g.Ok) (h : Touched g l v t) {c : Nat} (hc : g.Clust c) :
    entry g t.view c = entry g v.view c :=
  entry_of_fat hg (fun s hs => h.view s hs.not_mirror fun hf => (hf.outside hg).1 hs) hc

/-- A transfer past the window, which changes sectors of the file at most. -/
theorem WinOk.after (hv : WinOk g v) (haway : ¬ InFile g l v.winsect) {f : Nat → Sector}
    (hf : ∀ s, ¬ InFile g l s → f s = v.drive.sect s) :
    WinOk g { v with drive := v.drive.after f } ∧
    Touched g l v { v with drive := v.drive.after f } := by
  refine ⟨⟨hv.quiet, fun hc ha hi => ?_, hv.dirty, hv.small, hv.primary⟩, .inl rfl,
    fun s _ hs => ?_⟩
  · exact (hv.clean hc ha hi).trans (hf _ haway).symm
  · unfold Fatfs.view
    dsimp only
    split
    · by_cases he : s = v.winsect
      · rw [he, Function.update_self, Function.update_self]
      · rw [Function.update_of_ne he, Function.update_of_ne he]
        exact hf s hs
    · exact hf s hs

section

variable {α β : Type} {fp : Fil} {s : Fil × Fatfs}

theorem postX_onFs {m : StateM Fatfs α} {Q : Except FResult α → Fil × Fatfs → Prop} :
    PostX (onFs m) s Q ↔ Post m s.2 fun a t => Q (.ok a) (s.1, t) := Iff.rfl

theorem postX_fil {Q : Except FResult Fil → Fil × Fatfs → Prop} : PostX fil s Q ↔ Q (.ok s.1) s :=
  Iff.rfl

theorem postX_modFil {f : Fil → Fil} {Q : Except FResult Unit → Fil × Fatfs → Prop} :
    PostX (modFil f) s Q ↔ Q (.ok ()) (f s.1, s.2) := Iff.rfl

/-- What a call guarantees that changes neither the contents nor the clusters of the
file; `P` is about its result. -/
structure Reads (g : Geometry) (l : List Nat) (fp : Fil) (v : Fatfs) (P : α → Fil → Prop)
    (r : Except FResult α) (s : Fil × Fatfs) : Prop where
  win : WinOk g s.2
  touched : Touched g l v s.2
  buf : FileBuf g l s.1 s.2
  same : fp.Same s.1
  data : ∀ n, InFile g l n → s.1.data s.2 n = fp.data v n
  result : ∃ a, r = .ok a ∧ P a s.1

variable {P : α → Fil → Prop} {P' : β → Fil → Prop}

theorem Reads.ok {a : α} (h : Reads g l fp v P (.ok a) s) : P a s.1 := by
  obtain ⟨_, ha, hp⟩ := h.result
  cases ha
  exact hp

theorem Reads.stay {a : α} (hv : WinOk g v) (hf : FileBuf g l fp v) (h : P a fp) :
    Reads g l fp v P (.ok a) (fp, v) :=
  ⟨hv, .refl g l v, hf, .refl fp, fun _ _ => rfl, a, rfl, h⟩

theorem Reads.trans {a : α} {fp' : Fil} {r : Except FResult β}
    (h : Reads g l fp v P (.ok a) (fp', t)) (k : Reads g l fp' t P' r s) :
    Reads g l fp v P' r s where
  win := k.win
  touched := h.touched.trans k.touched
  buf := k.buf
  same := h.same.trans k.same
  data n hn := (k.data n hn).trans (h.data n hn)
  result := k.result

theorem Reads.bind {m : FileM α} {f : α → FileM β} (h : PostX m (fp, v) (Reads g l fp v P))
    (hf : ∀ a fp' t, Reads g l fp v P (.ok a) (fp', t) →
      PostX (f a) (fp', t) (Reads g l fp' t P')) :
    PostX (m >>= f) (fp, v) (Reads g l fp v P') := by
  refine PostX.bind h (fun a s hs => (hf a s.1 s.2 hs).mono fun r u hu => hs.trans hu)
    fun e s hs => ?_
  obtain ⟨a, ha, -⟩ := hs.result
  cases ha

theorem data_of_clean (h : fp.faDirty = false) : fp.data v = v.drive.sect := by simp [Fil.data, h]

theorem data_of_ne {n : Nat} (h : n ≠ fp.sect) : fp.data v n = v.drive.sect n := by
  unfold Fil.data
  split
  · exact Function.update_of_ne h _ _
  · rfl

theorem FileBuf.data_sect (h : FileBuf g l fp v) (h0 : fp.sect ≠ 0) :
    fp.data v fp.sect = fp.buf := by
  cases hd : fp.faDirty with
  | false => rw [data_of_clean hd, h.clean hd h0]
  | true => simp [Fil.data, hd]

theorem FileBuf.clusts (h : FileBuf g l fp v) : ∀ c ∈ l, g.Clust c :=
  fun c hc => (h.chain.used c hc).1

theorem Touched.chain (hg : g.Ok) (ht : Touched g l v t) {c : Nat} (h : IsChain g v.view c l) :
    IsChain g t.view c l :=
  h.congr fun a ha => ht.entry_eq hg (h.used a ha).1

theorem flush_spec (hg : g.Ok) (hv : WinOk g v) (hf : FileBuf g l fp v) :
    PostX flush (fp, v) (Reads g l fp v fun _ fp' => fp' = { fp with faDirty := false }) := by
  unfold flush
  rw [postX_bind, postX_fil]
  dsimp only
  rw [postX_ite]
  refine ⟨fun hd => ?_, fun hd => ?_⟩
  swap
  · have hd : fp.faDirty = false := by simpa using hd
    have he : { fp with faDirty := false } = fp := by rw [← hd]
    exact .stay hv hf he.symm
  have hin := hf.cached.resolve_left fun h => by simp [hd] at h
  rw [postX_bind, postX_onFs, post_diskWrite hv.quiet]
  dsimp only
  rw [if_neg (by decide), postX_modFil]
  have hout : ∀ s, ¬ InFile g l s → Function.update v.drive.sect fp.sect fp.buf s =
      v.drive.sect s := by
    intro s hs
    refine Function.update_of_ne ?_ _ _
    rintro rfl
    exact hs hin
  obtain ⟨hw, ht⟩ := hv.after hf.away hout
  refine ⟨hw, ht, ⟨ht.chain hg hf.chain, hf.away, .inr hin, fun _ _ => ?_⟩, ⟨_, _, _, _, rfl⟩,
    fun n _ => ?_, (), rfl, rfl⟩
  · simp [Drive.after]
  · simp [Fil.data, hd, Drive.after]

/-- A file whose sectors and entries stay as they are, wherever the window goes. -/
theorem FileBuf.frame (hg : g.Ok) (h : FileBuf g l fp v) (hp : FatWin g v t)
    (hview : ∀ s, InFile g l s → t.view s = v.view s)
    (hent : ∀ c ∈ l, entry g t.view c = entry g v.view c) :
    FileBuf g l fp t ∧ ∀ n, InFile g l n → fp.data t n = fp.data v n := by
  have hsect : ∀ n, InFile g l n → t.drive.sect n = v.drive.sect n := fun n hn =>
    drive_sect_eq hg h.away hp hn (hview n hn)
  refine ⟨⟨h.chain.congr hent, fun hs => ?_, h.cached, fun hd h0 => ?_⟩, fun n hn => ?_⟩
  · exact hs.ne_winsect hg (fun he => h.away (he ▸ hs)) hp rfl
  · rw [hsect _ (h.cached.resolve_left fun h' => h0 h'.1)]
    exact h.clean hd h0
  · by_cases he : n = fp.sect
    · cases hd : fp.faDirty <;> simp [Fil.data, hd, he, hsect _ (he ▸ hn)]
    · rw [data_of_ne he, data_of_ne he, hsect n hn]

/-- At the start of a cluster, the next bytes are in the cluster behind the current one. -/
theorem readClust_spec (hg : g.Ok) (hv : WinOk g v) (hf : FileBuf g l fp v) {i c : Nat}
    (hi : l[i]? = some c)
    (hcur : fp.fptr = 0 ∧ i = 0 ∨ fp.fptr ≠ 0 ∧ ∃ j, i = j + 1 ∧ l[j]? = some fp.clust) :
    PostX (readClust g) (fp, v) (Reads g l fp v fun _ fp' => fp' = { fp with clust := c }) := by
  have hc := hf.clusts c (List.mem_of_getElem? hi)
  have hn := hg.nFatent_lt.2
  have hset : ∀ {t : Fatfs}, FileBuf g l fp t → FileBuf g l { fp with clust := c } t := fun h =>
    ⟨h.chain, h.away, h.cached, h.clean⟩
  unfold readClust
  rw [postX_bind, postX_fil]
  dsimp only
  obtain ⟨h0, rfl⟩ | ⟨h0, j, rfl, hj⟩ := hcur
  · obtain ⟨l, rfl⟩ := hf.chain.eq_cons fun hs => by
      rw [hf.chain.nil_iff.mpr hs] at hi
      cases hi
    obtain rfl : fp.sclust = c := by simpa using hi
    rw [if_pos h0, postX_bind, postX_pure]
    dsimp only
    rw [if_neg (by unfold Geometry.Clust at hc; omega),
      if_neg (by unfold Geometry.Clust at hc; omega), postX_modFil]
    exact ⟨hv, .refl g _ v, hset hf, ⟨_, _, _, _, rfl⟩, fun _ _ => rfl, (), rfl, rfl⟩
  · obtain ⟨hjl, hjc⟩ := List.getElem?_eq_some_iff.mp hj
    obtain ⟨hil, hic⟩ := List.getElem?_eq_some_iff.mp hi
    rw [if_neg h0, postX_bind, postX_onFs]
    refine (getFat_spec hg hv (hf.clusts _ (List.mem_of_getElem? hj))).mono fun r t h => ?_
    obtain ⟨hbuf, hdata⟩ := hf.frame hg (.inr h.inFat) (fun s hs =>
      h.moved.view s (hs.outside hg).2.1)
      fun a ha => entry_moved hg h.moved (hf.clusts a ha)
    rw [h.result, ← hjc, hf.chain.entry_getElem hil, hic]
    dsimp only
    rw [if_neg (by unfold Geometry.Clust at hc; omega),
      if_neg (by unfold Geometry.Clust at hc; omega), postX_modFil]
    exact ⟨h.win, ⟨.inr h.inFat, fun s hs _ => h.moved.view s hs⟩, hset hbuf,
      ⟨_, _, _, _, rfl⟩, hdata, (), rfl, rfl⟩

/-- A byte of a file that has the clusters of the list. -/
def fileByte (g : Geometry) (l : List Nat) (d : Nat → Sector) (i : Nat) : BitVec 8 :=
  (d (fileSect g l (i / 512))).byte i

/-- At the start of a sector: either one sector is read past the buffer, or the buffer is filled. -/
structure SectRead (g : Geometry) (l : List Nat) (fp : Fil) (v : Fatfs) (btr : Nat)
    (r : Option (List (BitVec 8))) (fp' : Fil) : Prop where
  clust : l[fp.fptr / 512 / g.csize]? = some fp'.clust
  result : (r = some ((List.range 512).map fun i => fileByte g l (fp.data v) (fp.fptr + i)) ∧
      fp.fptr % 512 = 0 ∧ 512 ≤ btr) ∨
    r = none ∧ fp'.sect = fileSect g l (fp.fptr / 512)

theorem FileOk.clust_step (g : Geometry) {fptr : Nat} (h512 : fptr % 512 = 0) (hpos : 0 < fptr) :
    fptr / 512 / g.csize = (fptr - 1) / 512 / g.csize + if fptr / 512 % g.csize = 0
    then 1 else 0 := by
  rw [show fptr / 512 = (fptr - 1) / 512 + 1 by omega, Nat.succ_div]
  simp only [Nat.dvd_iff_mod_eq_zero]

theorem FileOk.at_boundary (hf : FileOk g l fp v) (h512 : fp.fptr % 512 = 0)
    (h0 : fp.fptr / 512 % g.csize = 0) :
    fp.fptr = 0 ∧ fp.fptr / 512 / g.csize = 0 ∨
      fp.fptr ≠ 0 ∧ ∃ j, fp.fptr / 512 / g.csize = j + 1 ∧ l[j]? = some fp.clust := by
  obtain hz | hpos := Nat.eq_zero_or_pos fp.fptr
  · exact .inl ⟨hz, by simp [hz]⟩
  · exact .inr ⟨hpos.ne', _, by rw [clust_step g h512 hpos, if_pos h0], hf.clust hpos⟩

theorem FileOk.in_clust (hf : FileOk g l fp v) (h512 : fp.fptr % 512 = 0)
    (h0 : fp.fptr / 512 % g.csize ≠ 0) :
    l[fp.fptr / 512 / g.csize]? = some fp.clust := by
  have hpos : 0 < fp.fptr := by
    refine Nat.pos_of_ne_zero fun hz => h0 ?_
    simp [hz]
  rw [clust_step g h512 hpos, if_neg h0, Nat.add_zero, hf.clust hpos]

theorem enterClust_spec (hg : g.Ok) (hv : WinOk g v) (hf : FileOk g l fp v)
    (h512 : fp.fptr % 512 = 0) {c : Nat} (hc : l[fp.fptr / 512 / g.csize]? = some c) :
    PostX (enterClust g) (fp, v) (Reads g l fp v fun _ fp' => fp' = { fp with clust := c }) := by
  unfold enterClust
  rw [postX_bind, postX_fil]
  dsimp only
  rw [csectOf_eq hg, postX_ite]
  refine ⟨fun h0 => readClust_spec hg hv hf.toFileBuf hc (hf.at_boundary h512 h0), fun h0 => ?_⟩
  · have hcl : { fp with clust := c } = fp := by
      rw [← Option.some.inj ((hf.in_clust h512 h0).symm.trans hc)]
    exact .stay hv hf.toFileBuf hcl.symm

theorem loadSect_spec (hg : g.Ok) (hv : WinOk g v) (hf : FileBuf g l fp v) {sect : Nat}
    (hs : InFile g l sect) :
    PostX (loadSect sect) (fp, v) (Reads g l fp v fun _ fp' => fp'.sect = sect ∧
      fp'.clust = fp.clust) := by
  unfold loadSect
  rw [postX_bind, postX_fil]
  dsimp only
  by_cases he : fp.sect = sect
  · rw [if_neg (not_not.mpr he)]
    subst he
    exact .stay hv hf ⟨rfl, rfl⟩
  rw [if_pos he]
  refine Reads.bind (flush_spec hg hv hf) fun _ fp₁ t₁ h₁ => ?_
  obtain rfl := h₁.ok
  obtain ⟨hw, ht⟩ := h₁.win.after h₁.buf.away (f := t₁.drive.sect) fun _ _ => rfl
  rw [postX_bind, fill, postX_bind, postX_fil]
  dsimp only
  rw [postX_bind, postX_onFs, post_diskRead h₁.win.quiet]
  dsimp only
  rw [postX_bind, postX_modFil]
  dsimp only
  rw [if_neg (by decide), postX_pure]
  refine ⟨hw, ht, ⟨ht.chain hg h₁.buf.chain, h₁.buf.away, .inr hs, fun _ _ => ?_⟩,
    ⟨_, _, _, _, rfl⟩, fun n _ => ?_, (), rfl, rfl, rfl⟩
  · rw [Function.update_self, Nat.add_sub_cancel]
    rfl
  · rw [data_of_clean rfl, data_of_clean rfl]
    rfl

theorem InFile.lt (hg : g.Ok) (hl : ∀ c ∈ l, g.Clust c) {n : Nat} (hn : InFile g l n) :
    n < allOnes := by
  obtain ⟨c, hc, -, hlt⟩ := hn
  have := hg.sectOf_lt (hl c hc)
  omega

theorem InFile.pos (hg : g.Ok) {n : Nat} (hn : InFile g l n) : n ≠ 0 := by
  obtain ⟨c, -, hle, -⟩ := hn
  have := hg.sectOf_pos c
  omega

theorem sectorBytes_one (b : Nat → Sector) :
    sectorBytes b 1 = (List.range 512).map fun i => (b 0).byte i := by
  refine List.map_congr_left fun i hi => ?_
  have hi : i < 1 * 512 := List.mem_range.mp hi
  rw [ss, Nat.div_eq_of_lt (by omega)]

/-- One sector past the buffer; more of them `disk_read` would put in one place. -/
theorem readDirect_spec (hg : g.Ok) (hv : WinOk g v) (hf : FileBuf g l fp v) {sect : Nat}
    (hs : InFile g l sect) (rbuff : Nat → BitVec 8) :
    PostX (readDirect rbuff sect 1) (fp, v) (Reads g l fp v fun bytes fp' => fp' = fp ∧
      bytes = (List.range 512).map fun i => (fp.data v sect).byte i) := by
  obtain ⟨hw, ht⟩ := hv.after hf.away (f := v.drive.sect) fun _ _ => rfl
  unfold readDirect
  rw [postX_bind, postX_onFs, post_diskRead hv.quiet, Nat.add_sub_cancel]
  dsimp only
  rw [if_neg (by decide), postX_bind, postX_fil]
  dsimp only
  rw [postX_pure]
  refine ⟨hw, ht, ⟨ht.chain hg hf.chain, hf.away, hf.cached, hf.clean⟩, .refl fp,
    fun _ _ => rfl, _, rfl, rfl, ?_⟩
  rw [sectorBytes_one]
  refine List.map_congr_left fun i _ => congrArg (fun b : Sector => b.byte i) ?_
  cases hd : fp.faDirty with
  | false => simp [data_of_clean hd]
  | true =>
    have hlt := hs.lt hg hf.clusts
    have hlt' := (hf.cached.resolve_left fun h => by simp [hd] at h).lt hg hf.clusts
    have hone : allOnes + 1 = 2 ^ 32 := by decide
    have hiff := sub32_lt_iff (a := fp.sect) (b := sect) (n := 1) (by omega) (by omega)
    simp only [Fil.data, hd, if_true, true_and, hiff]
    split
    · next hr =>
      obtain rfl : fp.sect = sect := by omega
      simp [sub32_of_le le_rfl (show fp.sect < 2 ^ 32 by omega)]
    · next hr => rw [Function.update_self, Function.update_of_ne (by omega)]

theorem clip_one {csect cc : Nat} (h : csect < g.csize) (h0 : cc ≠ 0)
    (hone : g.csize = 1 ∨ cc = 1) :
    clip g csect cc = 1 := by
  unfold clip
  split <;> omega

theorem readSect_spec (hg : g.Ok) (hv : WinOk g v) (hf : FileOk g l fp v) (h512 : fp.fptr % 512 = 0)
    {btr : Nat} (hpos : 0 < btr) (hle : fp.fptr + btr ≤ fp.objsize)
    (hone : g.csize = 1 ∨ btr < 1024) (rbuff : Nat → BitVec 8) :
    PostX (readSect g rbuff btr) (fp, v) (Reads g l fp v (SectRead g l fp v btr)) := by
  have hq : fp.fptr / 512 < l.length * g.csize := by
    have := hf.size
    omega
  have hi : fp.fptr / 512 / g.csize < l.length := Nat.div_lt_of_lt_mul (by rwa [Nat.mul_comm])
  have hc := List.getElem?_eq_getElem hi
  have hmod := Nat.mod_lt (fp.fptr / 512) hg.csize_pos
  have hin := fileSect_mem hg hq
  unfold readSect
  refine Reads.bind (enterClust_spec hg hv hf h512 hc) fun _ fp₁ t h => ?_
  obtain rfl := h.ok
  rw [postX_bind, postX_fil]
  dsimp only
  rw [clust2sect_eq hg (hf.clusts _ (List.getElem_mem hi)), if_neg (hg.sectOf_pos _).ne',
    csectOf_eq hg]
  have hsect : sectOf g l[fp.fptr / 512 / g.csize] + fp.fptr / 512 % g.csize =
      fileSect g l (fp.fptr / 512) := by
    rw [fileSect, List.getD_eq_getElem _ _ hi]
  rw [hsect, postX_ite, ss]
  refine ⟨fun hcc => ?_, fun hcc => ?_⟩
  · rw [clip_one hmod hcc (by omega)]
    refine Reads.bind (readDirect_spec hg h.win h.buf hin rbuff) fun bytes fp₂ t₂ h₂ => ?_
    obtain ⟨rfl, hbytes⟩ := h₂.ok
    rw [postX_pure, hbytes]
    refine .stay h₂.win h₂.buf ⟨hc, .inl ⟨congrArg some (List.map_congr_left fun i hi => ?_),
      h512, by omega⟩⟩
    have hi : i < 512 := List.mem_range.mp hi
    rw [fileByte, show (fp.fptr + i) / 512 = fp.fptr / 512 by omega, h.data _ hin]
    exact Sector.byte_congr _ (by omega)
  · refine Reads.bind (loadSect_spec hg h.win h.buf hin) fun _ fp₂ t₂ h₂ => ?_
    obtain ⟨hs, hcl⟩ := h₂.ok
    rw [postX_pure]
    exact .stay h₂.win h₂.buf ⟨by rw [hcl]; exact hc, .inr ⟨rfl, hs⟩⟩

/-- `n` bytes of the file from the pointer on. -/
def Fil.slice (g : Geometry) (l : List Nat) (fp : Fil) (v : Fatfs) (n : Nat) : List (BitVec 8) :=
  (List.range n).map fun i => fileByte g l (fp.data v) (fp.fptr + i)

theorem FileOk.inFile (hg : g.Ok) (hf : FileOk g l fp v) {i : Nat} (hi : i < fp.objsize) :
    InFile g l (fileSect g l (i / 512)) := by
  refine fileSect_mem hg ?_
  have := hf.size
  omega

theorem readStart_spec (hg : g.Ok) (hv : WinOk g v) (hf : FileOk g l fp v) {btr : Nat}
    (hpos : 0 < btr) (hle : fp.fptr + btr ≤ fp.objsize) (hone : g.csize = 1 ∨ btr < 1024)
    (rbuff : Nat → BitVec 8) :
    PostX (readStart g rbuff btr) (fp, v) (Reads g l fp v (SectRead g l fp v btr)) := by
  unfold readStart
  rw [postX_bind, postX_fil]
  dsimp only
  rw [postX_ite]
  refine ⟨fun h => readSect_spec hg hv hf h hpos hle hone rbuff, fun h => ?_⟩
  have h : fp.fptr % 512 ≠ 0 := h
  rw [postX_pure]
  refine .stay hv hf.toFileBuf ⟨?_, .inr ⟨rfl, hf.here h⟩⟩
  have := hf.clust (by omega)
  rwa [show (fp.fptr - 1) / 512 = fp.fptr / 512 by omega] at this

/-- What a round leaves behind. -/
structure RoundRead (g : Geometry) (l : List Nat) (fp : Fil) (v : Fatfs) (btr : Nat)
    (bytes : List (BitVec 8)) (fp' : Fil) : Prop where
  pos : 0 < bytes.length
  le : bytes.length ≤ btr
  eq : bytes = fp.slice g l v bytes.length
  ok : ∀ t, FileBuf g l fp' t → FileOk g l { fp' with fptr := fp.fptr + bytes.length } t

theorem FileBuf.advance (hf : FileBuf g l fp v) (hsize : fp.objsize ≤ l.length * g.csize * 512)
    (hlimit : fp.objsize < 2 ^ 32) {n : Nat} (hle : fp.fptr + n ≤ fp.objsize)
    (hclust : l[fp.fptr / 512 / g.csize]? = some fp.clust)
    (hin : (fp.fptr + n - 1) / 512 = fp.fptr / 512)
    (hhere : (fp.fptr + n) % 512 ≠ 0 → fp.sect = fileSect g l ((fp.fptr + n) / 512)) :
    FileOk g l { fp with fptr := fp.fptr + n } v where
  toFileBuf := ⟨hf.chain, hf.away, hf.cached, hf.clean⟩
  size := hsize
  limit := hlimit
  ptr := hle
  clust _ := by
    dsimp only
    rw [hin]
    exact hclust
  here := hhere

theorem readRound_spec (hg : g.Ok) (hv : WinOk g v) (hf : FileOk g l fp v) {btr : Nat}
    (hpos : 0 < btr) (hle : fp.fptr + btr ≤ fp.objsize) (hone : g.csize = 1 ∨ btr < 1024)
    (rbuff : Nat → BitVec 8) :
    PostX (readRound g rbuff btr) (fp, v) (Reads g l fp v (RoundRead g l fp v btr)) := by
  unfold readRound
  refine Reads.bind (readStart_spec hg hv hf hpos hle hone rbuff) fun r fp₁ t h => ?_
  obtain ⟨hcl, hr⟩ := h.ok
  obtain ⟨c, s, b, d, rfl⟩ := h.same
  obtain ⟨rfl, h512, hn⟩ | ⟨rfl, hs⟩ := hr
  · dsimp only
    rw [postX_pure]
    refine .stay h.win h.buf ⟨by simp, by simpa using hn, by simp [Fil.slice], fun u hu => ?_⟩
    rw [List.length_map, List.length_range]
    refine hu.advance hf.size hf.limit (hle.trans' (by dsimp only; omega)) hcl ?_ ?_
    · dsimp only
      omega
    · dsimp only
      omega
  · dsimp only at hs ⊢
    have hin := hf.inFile hg (i := fp.fptr) (by omega)
    have hb := h.buf.data_sect (hs ▸ hin.pos hg)
    rw [postX_bind, postX_fil]
    dsimp only at hb ⊢
    rw [postX_pure, ss]
    refine .stay h.win h.buf ⟨?_, ?_, ?_, fun u hu => ?_⟩
    · rw [List.length_map, List.length_range]
      omega
    · rw [List.length_map, List.length_range]
      omega
    · rw [List.length_map, List.length_range]
      refine List.map_congr_left fun i hi => ?_
      have hi := List.mem_range.mp hi
      rw [fileByte, show (fp.fptr + i) / 512 = fp.fptr / 512 by omega, ← h.data _ hin, ← hs, hb]
    · rw [List.length_map, List.length_range]
      refine hu.advance hf.size hf.limit (hle.trans' (by dsimp only; omega)) hcl ?_ fun h0 => ?_
      · dsimp only
        omega
      · dsimp only at h0 ⊢
        rw [hs]
        congr 1
        omega

/-- What `f_read` guarantees; `btr` is the number of bytes asked for that the file has. -/
structure FileRead (g : Geometry) (l : List Nat) (fp : Fil) (v : Fatfs) (btr : Nat)
    (r : FResult × List (BitVec 8)) (s : Fil × Fatfs) : Prop where
  result : r = (.ok, fp.slice g l v btr)
  win : WinOk g s.2
  touched : Touched g l v s.2
  data : ∀ n, InFile g l n → s.1.data s.2 n = fp.data v n
  ok : FileOk g l s.1 s.2
  same : ({ fp with fptr := fp.fptr + btr } : Fil).Same s.1

theorem FileOk.slice_add (hg : g.Ok) (hf : FileOk g l fp v) {fp' : Fil} {t : Fatfs} {a b : Nat}
    (hdata : ∀ n, InFile g l n → fp'.data t n = fp.data v n)
    (hle : fp.fptr + (a + b) ≤ fp.objsize) :
    fp.slice g l v (a + b) = fp.slice g l v a ++ Fil.slice g l
      { fp' with fptr := fp.fptr + a } t b := by
  unfold Fil.slice
  rw [List.range_add, List.map_append, List.map_map]
  refine congrArg _ (List.map_congr_left fun i hi => ?_)
  have hi := List.mem_range.mp hi
  rw [Function.comp, fileByte, fileByte, Nat.add_assoc, ← hdata _ (hf.inFile hg (by omega))]
  rfl

theorem readLoop_spec (hg : g.Ok) (hv : WinOk g v) (hf : FileOk g l fp v) {fuel btr : Nat}
    (hfuel : btr ≤ fuel) (hle : fp.fptr + btr ≤ fp.objsize) (hone : g.csize = 1 ∨ btr < 1024)
    (rbuff : Nat → BitVec 8) (done : List (BitVec 8)) :
    Post (readLoop g rbuff fuel btr done) (fp, v) fun r s =>
      ∃ bytes, r.2 = done ++ bytes ∧ FileRead g l fp v btr (r.1, bytes) s := by
  induction fuel generalizing fp v btr done with
  | zero =>
    obtain rfl : btr = 0 := by omega
    exact ⟨[], (List.append_nil done).symm, rfl, hv, .refl g l v, fun _ _ => rfl, hf, .refl fp⟩
  | succ fuel ih =>
    unfold readLoop
    rw [post_ite]
    refine ⟨fun h0 => ?_, fun h0 => ?_⟩
    · rw [h0]
      exact ⟨[], (List.append_nil done).symm, rfl, hv, .refl g l v, fun _ _ => rfl, hf, .refl fp⟩
    refine Post.bind (readRound_spec hg hv hf (Nat.pos_of_ne_zero h0) hle hone _) fun r s h => ?_
    obtain ⟨fp₁, t⟩ := s
    obtain ⟨bytes, rfl, hr⟩ := h.result
    have hpos := hr.pos
    have hlen := hr.le
    have hlimit := hf.limit
    have hok := hr.ok t h.buf
    obtain ⟨c, n, b, d, rfl⟩ := h.same
    dsimp only at hok ⊢
    rw [post_bind, post_modify]
    dsimp only
    rw [add32, Nat.mod_eq_of_lt (by omega)]
    refine (ih h.win hok (by omega) (by dsimp only; omega) (by omega) (done ++ bytes)).mono
      fun r s hs => ?_
    obtain ⟨rest, hr2, hs⟩ := hs
    refine ⟨bytes ++ rest, by rw [hr2, List.append_assoc], ?_, hs.win, h.touched.trans hs.touched,
      ?_, hs.ok, ?_⟩
    · obtain ⟨hr1, rfl⟩ := Prod.mk.inj hs.result
      refine Prod.ext hr1 ?_
      have hslice := hf.slice_add hg h.data (a := bytes.length) (b := btr - bytes.length) (by omega)
      rw [← hr.eq, Nat.add_sub_of_le hlen] at hslice
      exact hslice.symm
    · exact fun n hn => (hs.data n hn).trans (h.data n hn)
    · obtain ⟨c, n, b, d, hs1⟩ := hs.same
      refine ⟨c, n, b, d, ?_⟩
      rw [hs1]
      dsimp only
      rw [Nat.add_assoc, Nat.add_sub_of_le hlen]

/-- The file object belongs to the mounted volume. -/
structure Fil.Valid (g : Geometry) (fp : Fil) : Prop where
  fs : fp.fs = true
  id : fp.id = g.id
  err : fp.err = .ok

theorem post_validate (hv : WinOk g v) (hval : fp.Valid g) {Q : FResult → Fil × Fatfs → Prop} :
    Post (validate g) (fp, v) Q ↔ Q .ok (fp, { v with drive := v.drive.after v.drive.sect }) := by
  have hstat : ((diskStatus.run v).run.1 &&& 1#8) = 0#8 := (hv.quiet _).2
  unfold validate
  rw [post_bind, post_get]
  dsimp only
  rw [if_neg (by simp [hval.fs, hval.id]), post_bind, post_set, post_pure, if_neg (by simp [hstat])]
  rfl

theorem fRead_spec (hg : g.Ok) (hv : WinOk g v) (hf : FileOk g l fp v) (hval : fp.Valid g)
    (hread : fp.faRead = true) {btr : Nat} (hone : g.csize = 1 ∨ btr < 1024)
    (rbuff : Nat → BitVec 8) :
    Post (fRead g rbuff btr) (fp, v) (FileRead g l fp v (min btr (fp.objsize - fp.fptr))) := by
  have hptr := hf.ptr
  have hlimit := hf.limit
  obtain ⟨hw, ht⟩ := hv.after hf.away (f := v.drive.sect) fun _ _ => rfl
  unfold fRead
  rw [post_bind, post_validate hv hval, if_neg (by decide), post_bind, post_get]
  dsimp only
  rw [if_neg (by simp [hval.err]), if_neg (by simp [hread]), sub32_of_le hptr (by omega)]
  have hmin : (if btr > fp.objsize - fp.fptr then fp.objsize - fp.fptr else btr) =
      min btr (fp.objsize - fp.fptr) := by
    split <;> omega
  rw [hmin]
  have hf' : FileOk g l fp { v with drive := v.drive.after v.drive.sect } :=
    { hf with chain := ht.chain hg hf.chain }
  refine (readLoop_spec hg hw hf' le_rfl (by omega) (by omega) rbuff []).mono
    fun r s ⟨bytes, hb, h⟩ => ?_
  obtain ⟨hr1, rfl⟩ := Prod.mk.inj h.result
  exact ⟨Prod.ext hr1 hb, h.win, ht.trans h.touched, h.data, h.ok, h.same⟩

end

end

end NctuCourses.Osdi.Fat
