import NctuCourses.Osdi.Fs.Refs

namespace NctuCourses.Osdi.Fs

open NctuCourses.Lib

variable {F : FatFs}

/-- What FatFs does to the pointer and the size in a file object; `fileSize` is the size recorded
on the volume. A file that has just been created or truncated is empty. -/
structure FatFs.Laws (F : FatFs) (fileSize : F.World → Bytes → BitVec 32) : Prop where
  fopen : ∀ {o path mode w o' w'}, F.fOpen o path mode w = (.ok, o', w') → F.fptr o' = 0 ∧
    F.objsize o' =
      if mode &&& (faCreateNew ||| faCreateAlways) ≠ 0 then 0 else fileSize w path
  fread : ∀ {o count w data o' w'}, F.fRead o count w = (.ok, data, o', w') →
    F.fptr o' = F.fptr o + BitVec.ofNat 32 data.length ∧ F.objsize o' = F.objsize o
  fwrite : ∀ {o buf count w bw o' w'}, F.fWrite o buf count w = (.ok, bw, o', w') →
    F.fptr o' = F.fptr o + bw ∧
    F.objsize o' = if F.fptr o' > F.objsize o then F.fptr o' else F.objsize o
  flseek : ∀ o ofs w, F.fptr (F.fLseek o ofs w).2.1 = ofs ∧
    F.objsize (F.fLseek o ofs w).2.1 = if ofs > F.objsize o then ofs else F.objsize o

def ramSize (w : ramFat.World) (path : Bytes) : BitVec 32 :=
  BitVec.ofNat 32 ((w path).getD []).length

private theorem create_bits (mode : BitVec 8) :
    mode &&& (faCreateNew ||| faCreateAlways) = 0 ↔
      mode &&& faCreateNew = 0 ∧ mode &&& faCreateAlways = 0 := by
  revert mode
  decide

theorem ramFat_laws : ramFat.Laws ramSize where
  fopen {o path mode w o' w'} h := by
    simp only [ramFat] at h
    cases hw : w path with
    | none =>
      rw [hw] at h
      dsimp only at h
      split at h
      · cases h
      · rename_i hm
        cases h
        exact ⟨rfl, (if_pos hm).symm⟩
    | some data =>
      rw [hw] at h
      dsimp only at h
      split at h
      · cases h
      · rename_i hn
        split at h
        · rename_i ha
          cases h
          exact ⟨rfl, (if_pos fun h0 => ha ((create_bits mode).mp h0).2).symm⟩
        · rename_i ha
          cases h
          have h0 := (create_bits mode).mpr ⟨not_not.mp hn, not_not.mp ha⟩
          exact ⟨rfl, by rw [if_neg (not_not.mpr h0), ramSize, hw]; rfl⟩
  fread h := by
    cases h
    exact ⟨rfl, rfl⟩
  fwrite h := by
    cases h
    exact ⟨rfl, rfl⟩
  flseek o ofs w := ⟨rfl, rfl⟩

/-- Both layers agree on the slot. -/
def Vfs.Agrees (v : Vfs F) (d : Slot) : Prop :=
  (v.table d).pos = F.fptr (v.objs d) ∧ (v.table d).size = F.objsize (v.objs d)

def Session.Tracks (s : Session F) : Prop :=
  ∀ d : Slot, (d.val : Int) ∈ s.opened → s.vfs.Agrees d

/-- The pointer of an open file is not behind its end. -/
def Session.Within (s : Session F) : Prop :=
  ∀ d : Slot, (d.val : Int) ∈ s.opened → F.fptr (s.vfs.objs d) ≤ F.objsize (s.vfs.objs d)

/-- The calls that keep position and size in step. An open must either create the file or find in
the slot the size of the file, and may not append to a file with contents; a read transfers no
byte; a seek stays where it is. -/
def Follows (fileSize : F.World → Bytes → BitVec 32) (v : Vfs F) : FsCall → Prop
  | .open file flags => ∀ d, (fdNew v).1 = some d →
      (flags &&& oCreat ≠ 0 ∨ (v.table d).size = fileSize v.world file) ∧
      (flags &&& oAppend ≠ 0 → flags &&& oCreat ≠ 0 ∨ fileSize v.world file = 0)
  | .close _ => True
  | .read fd _ len => ∀ d : Slot, fd = d.val →
      BitVec.ofNat 32 (F.fRead (v.objs d) len v.world).2.1.length = 0
  | .write _ _ _ => True
  | .lseek fd offset whence => ∀ d : Slot, fd = d.val →
      newOffset (v.table d) offset whence = (v.table d).pos

/-- The creation bits of the mode depend on `O_CREAT` and `O_TRUNC` only. -/
theorem fatOpenMode_bits (flags : BitVec 32) :
    fatOpenMode flags &&& (faCreateNew ||| faCreateAlways) =
      if flags &&& oCreat ≠ 0 then if flags &&& oTrunc ≠ 0 then faCreateAlways else faCreateNew
      else 0 := by
  unfold fatOpenMode
  split_ifs <;> first | decide | (exfalso; tauto)

theorem fatOpenMode_create (flags : BitVec 32) :
    fatOpenMode flags &&& (faCreateNew ||| faCreateAlways) ≠ 0 ↔ flags &&& oCreat ≠ 0 := by
  rw [fatOpenMode_bits]
  by_cases hc : flags &&& oCreat ≠ 0
  · rw [if_pos hc]
    refine iff_of_true ?_ hc
    split <;> decide
  · rw [if_neg hc]
    exact iff_of_false (by decide) hc

theorem fatOpenSize_eq (flags size : BitVec 32) :
    fatOpenSize flags size = if flags &&& oCreat ≠ 0 then 0 else size := by
  unfold fatOpenSize
  split_ifs <;> first | rfl | (exfalso; tauto)

section Success

variable {s t : Session F}

theorem fatRead_ok {v : Vfs F} {d : Slot} {len : BitVec 32} (h : 0 ≤ (fatRead d len v).1) :
    (F.fRead (v.objs d) len v.world).1 = .ok := by
  by_contra hne
  have hr : (fatRead d len v).1 = -(F.fRead (v.objs d) len v.world).1.code := if_neg hne
  rw [hr] at h
  exact hne (FResult.neg_code_nonneg.mp h)

theorem fatWrite_ok {v : Vfs F} {d : Slot} {buf : Bytes} {len : BitVec 32}
    (h : 0 ≤ (fatWrite d buf len v).1) : (F.fWrite (v.objs d) buf len v.world).1 = .ok := by
  by_contra hne
  have hr : (fatWrite d buf len v).1 = -(F.fWrite (v.objs d) buf len v.world).1.code := if_neg hne
  rw [hr] at h
  exact hne (FResult.neg_code_nonneg.mp h)

theorem FsSuccess.open_inv {file : Bytes} {flags : BitVec 32}
    (h : FsSuccess s (.open file flags) t) :
    ∃ d hf o w, (fdNew s.vfs).1 = some d ∧
      F.fOpen (s.vfs.objs d) file (fatOpenMode flags) s.vfs.world = (.ok, o, w) ∧
      t = ⟨(fatOpen d (s.vfs.prepared d file hf flags)).2, insert (d.val : Int) s.opened⟩ := by
  obtain ⟨_, i, hi, hex⟩ := h
  simp only [Session.exec, FsCall.run, Option.map_eq_some_iff] at hex
  obtain ⟨⟨r, v⟩, hrun, heq⟩ := hex
  cases heq
  cases hn : (fdNew s.vfs).1 with
  | none =>
    rw [sysOpen_full hn] at hrun
    cases hrun
    cases hi
  | some d =>
    obtain ⟨hf, rfl, hneg, hpos⟩ := sysOpen_slot hn hrun
    have hge : ¬ (fatOpen d (s.vfs.prepared d file hf flags)).1 < 0 :=
      fun hlt => absurd hi (not_le.mpr (hneg hlt i rfl))
    have hok : (F.fOpen (s.vfs.objs d) file (fatOpenMode flags) s.vfs.world).1 = .ok := by
      rw [fatOpen_result, not_lt, FResult.neg_code_nonneg] at hge
      simpa [Vfs.prepared] using hge
    refine ⟨d, hf, _, _, rfl, Prod.ext hok rfl, ?_⟩
    cases hpos hge
    simp [FsCall.track]

theorem FsSuccess.close_inv (hs : s.Exact) {fd : Int} (h : FsSuccess s (.close fd) t) :
    ∃ d : Slot, fd = d.val ∧ t.opened = s.opened.erase (d.val : Int) ∧
      ∀ e, e ≠ d → t.vfs.table e = s.vfs.table e ∧ t.vfs.objs e = s.vfs.objs e := by
  obtain ⟨ha, i, _, hex⟩ := h
  obtain ⟨d, rfl, hd⟩ := hs.held ha
  simp only [Session.exec, FsCall.run, sysClose_held hd, Option.map_some, Option.some.injEq,
    Prod.mk.injEq] at hex
  obtain ⟨_, rfl⟩ := hex
  refine ⟨d, rfl, rfl, fun e he => ⟨?_, ?_⟩⟩
  · simp [setRef_table_of_ne _ _ _ he, fatClose]
  · simp [fatClose, he]

theorem FsSuccess.read_inv (hs : s.Exact) {fd : Int} {buf : Bool} {len : BitVec 32}
    (h : FsSuccess s (.read fd buf len) t) :
    ∃ (d : Slot) (data : Bytes) (o : F.Fil) (w : F.World), fd = d.val ∧
      F.fRead (s.vfs.objs d) len s.vfs.world = (.ok, data, o, w) ∧
      Balanced s.vfs (.read fd buf len) ∧ t = ⟨s.vfs.setObj d o w, s.opened⟩ := by
  obtain ⟨ha, i, hi, hex⟩ := h
  obtain ⟨d, rfl, hd⟩ := hs.held ha
  by_cases hb : buf = false ∨ len.toInt < 0
  · simp only [Session.exec, FsCall.run, sysRead_refused hd hb, Option.map_some,
      Option.some.injEq, Prod.mk.injEq] at hex
    obtain ⟨rfl, _⟩ := hex
    cases hi
  · simp only [Session.exec, FsCall.run, sysRead_held hd hb, Option.map_some,
      Option.some.injEq, Prod.mk.injEq] at hex
    obtain ⟨rfl, rfl⟩ := hex
    refine ⟨d, _, _, _, rfl, Prod.ext (fatRead_ok hi) rfl, ?_, rfl⟩
    simpa [Balanced, not_or] using hb

theorem FsSuccess.write_inv (hs : s.Exact) {fd : Int} {buf : Option Bytes} {len : BitVec 32}
    (h : FsSuccess s (.write fd buf len) t) :
    ∃ (d : Slot) (data : Bytes) (bw : BitVec 32) (o : F.Fil) (w : F.World), fd = d.val ∧
      F.fWrite (s.vfs.objs d) data len s.vfs.world = (.ok, bw, o, w) ∧
      Balanced s.vfs (.write fd buf len) ∧ t = ⟨(fatWrite d data len s.vfs).2, s.opened⟩ := by
  obtain ⟨ha, i, hi, hex⟩ := h
  obtain ⟨d, rfl, hd⟩ := hs.held ha
  cases buf with
  | none =>
    simp only [Session.exec, FsCall.run, sysWrite_null hd, Option.map_some, Option.some.injEq,
      Prod.mk.injEq] at hex
    obtain ⟨rfl, _⟩ := hex
    cases hi
  | some data =>
    by_cases hl : len.toInt < 0
    · simp only [Session.exec, FsCall.run, sysWrite_refused hd hl, Option.map_some,
        Option.some.injEq, Prod.mk.injEq] at hex
      obtain ⟨rfl, _⟩ := hex
      cases hi
    · simp only [Session.exec, FsCall.run, sysWrite_held hd hl, Option.map_some,
        Option.some.injEq, Prod.mk.injEq] at hex
      obtain ⟨rfl, rfl⟩ := hex
      exact ⟨d, data, _, _, _, rfl, Prod.ext (fatWrite_ok hi) rfl, ⟨by simp, not_lt.mp hl⟩, rfl⟩

theorem FsSuccess.lseek_inv (hs : s.Exact) {fd : Int} {offset : BitVec 32} {whence : Int}
    (h : FsSuccess s (.lseek fd offset whence) t) :
    ∃ d : Slot, fd = d.val ∧ 0 ≤ offset.toInt ∧
      t = ⟨(fatLseek d (newOffset (s.vfs.table d) offset whence) s.vfs).2, s.opened⟩ := by
  obtain ⟨ha, i, hi, hex⟩ := h
  obtain ⟨d, rfl, hd⟩ := hs.held ha
  by_cases ho : offset.toInt < 0
  · simp only [Session.exec, FsCall.run, sysLseek_refused hd ho, Option.map_some,
      Option.some.injEq, Prod.mk.injEq] at hex
    obtain ⟨rfl, _⟩ := hex
    cases hi
  · simp only [Session.exec, FsCall.run, sysLseek_held hd ho, Option.map_some,
      Option.some.injEq, Prod.mk.injEq] at hex
    obtain ⟨_, rfl⟩ := hex
    exact ⟨d, rfl, not_lt.mp ho, rfl⟩

theorem FsSuccess.exact (hs : s.Exact) {c : FsCall} (h : FsSuccess s c t) : t.Exact := by
  rw [hs.step_iff h.step]
  cases c with
  | «open» file flags =>
    obtain ⟨d, hf, o, w, hd, hok, _⟩ := h.open_inv
    intro d' hd'
    cases hd.symm.trans hd'
    exact ⟨hf, by rw [hok]⟩
  | close fd => trivial
  | read fd buf len =>
    obtain ⟨_, _, _, _, _, _, hb, _⟩ := h.read_inv hs
    exact hb
  | write fd buf len =>
    obtain ⟨_, _, _, _, _, _, _, hb, _⟩ := h.write_inv hs
    exact hb
  | lseek fd offset whence =>
    obtain ⟨_, _, hb, _⟩ := h.lseek_inv hs
    exact hb

end Success

theorem slotVal_ne {d e : Slot} (h : e ≠ d) : (e.val : Int) ≠ d.val :=
  fun hh => h (Fin.ext (by omega))

/-- Only slot `d` has changed, and it is open now. -/
theorem Session.Tracks.iff_at {s : Session F} (hs : s.Tracks) {v : Vfs F} {d : Slot}
    {o : Finset Int} (hd : (d.val : Int) ∈ o)
    (ho : ∀ e : Slot, e ≠ d → (e.val : Int) ∈ o → (e.val : Int) ∈ s.opened)
    (hv : ∀ e, e ≠ d → v.table e = s.vfs.table e ∧ v.objs e = s.vfs.objs e) :
    Session.Tracks ⟨v, o⟩ ↔ v.Agrees d := by
  constructor
  · intro h
    exact h d hd
  · intro h e he
    by_cases hed : e = d
    · subst hed
      exact h
    · have := hs e (ho e hed he)
      simpa only [Vfs.Agrees, hv e hed] using this

theorem Session.Within.at {s : Session F} (hs : s.Within) {v : Vfs F} (d : Slot)
    {o : Finset Int} (ho : ∀ e : Slot, e ≠ d → (e.val : Int) ∈ o → (e.val : Int) ∈ s.opened)
    (hv : ∀ e, e ≠ d → v.objs e = s.vfs.objs e)
    (h : F.fptr (v.objs d) ≤ F.objsize (v.objs d)) : Session.Within ⟨v, o⟩ := by
  intro e he
  by_cases hed : e = d
  · subst hed
    exact h
  · simpa only [hv e hed] using hs e (ho e hed he)

/-- The file object after `fat_open` and the size and position beside it. -/
theorem fatOpen_slot {v : Vfs F} {d : Slot} {o : F.Fil} {w : F.World}
    (h : F.fOpen (v.objs d) (v.table d).path (fatOpenMode (v.table d).flags) v.world =
      (.ok, o, w)) :
    ((fatOpen d v).2.table d).pos = 0 ∧
    ((fatOpen d v).2.table d).size = fatOpenSize (v.table d).flags (v.table d).size ∧
    (fatOpen d v).2.objs d =
      if (v.table d).flags &&& oAppend ≠ 0 then (F.fLseek o (F.objsize o) w).2.1 else o := by
  simp only [fatOpen, setFd_objs, setFd_world, h]
  split <;> simp

theorem fatOpen_objs_of_ne {v : Vfs F} {d e : Slot} (h : e ≠ d) :
    (fatOpen d v).2.objs e = v.objs e := by
  simp only [fatOpen]
  split <;> simp [h]

private theorem agrees_open {create append : Prop} [Decidable create] [Decidable append]
    {old size : BitVec 32} :
    ((0 = if append then if create then 0 else size else 0) ∧
      (if create then 0 else old) = if create then 0 else size) ↔
    (create ∨ old = size) ∧ (append → create ∨ size = 0) := by
  by_cases hc : create
  · simp [hc]
  · by_cases ha : append
    · simp only [hc, ha, if_true, if_false, false_or, true_implies]
      exact ⟨fun h => ⟨h.2, h.1.symm⟩, fun h => ⟨h.2.symm, h.1⟩⟩
    · simp [hc, ha]

structure Session.Sync (s : Session F) : Prop where
  exact : s.Exact
  tracks : s.Tracks
  within : s.Within

namespace Session.Sync

variable {fileSize : F.World → Bytes → BitVec 32} {s t : Session F}

theorem init (w : F.World) : (Session.init w).Sync where
  exact := exact_init w
  tracks d hd := by cases hd
  within d hd := by cases hd

theorem «open» (L : F.Laws fileSize) (hs : s.Sync) {file : Bytes} {flags : BitVec 32}
    (h : FsSuccess s (.open file flags) t) :
    t.Within ∧ (t.Tracks ↔ Follows fileSize s.vfs (.open file flags)) := by
  obtain ⟨d, hf, o, w, hd, hok, rfl⟩ := h.open_inv
  have hopen : ∀ e : Slot, e ≠ d → (e.val : Int) ∈ insert (d.val : Int) s.opened →
      (e.val : Int) ∈ s.opened :=
    fun e he hm => (Finset.mem_insert.mp hm).resolve_left (slotVal_ne he)
  have hother : ∀ e, e ≠ d →
      (fatOpen d (s.vfs.prepared d file hf flags)).2.table e = s.vfs.table e ∧
      (fatOpen d (s.vfs.prepared d file hf flags)).2.objs e = s.vfs.objs e := by
    intro e he
    rw [fatOpen_table_of_ne he, fatOpen_objs_of_ne he]
    exact ⟨by simp [Vfs.prepared, he], rfl⟩
  obtain ⟨hpos, hsize, hobj⟩ := fatOpen_slot (v := s.vfs.prepared d file hf flags) (d := d)
    (o := o) (w := w) (by simpa [Vfs.prepared] using hok)
  have hflags : ((s.vfs.prepared d file hf flags).table d).flags = flags := by
    simp [Vfs.prepared]
  have hold : ((s.vfs.prepared d file hf flags).table d).size = (s.vfs.table d).size := by
    simp [Vfs.prepared]
  rw [hflags] at hobj
  rw [hflags, hold, fatOpenSize_eq] at hsize
  obtain ⟨hptr, hobjsize⟩ := L.fopen hok
  simp only [fatOpenMode_create] at hobjsize
  obtain ⟨hsptr, hssize⟩ := L.flseek o (F.objsize o) w
  have hend : F.objsize ((fatOpen d (s.vfs.prepared d file hf flags)).2.objs d) = F.objsize o := by
    rw [hobj]
    split
    · rw [hssize]
      simp
    · rfl
  have hptr' : F.fptr ((fatOpen d (s.vfs.prepared d file hf flags)).2.objs d) =
      if flags &&& oAppend ≠ 0 then F.objsize o else 0 := by
    rw [hobj]
    split
    · exact hsptr
    · exact hptr
  constructor
  · apply hs.within.at d hopen (fun e he => (hother e he).2)
    rw [hend, hptr']
    split
    · exact BitVec.le_refl _
    · exact BitVec.le_def.mpr (Nat.zero_le _)
  · rw [hs.tracks.iff_at (Finset.mem_insert_self _ _) hopen hother, Vfs.Agrees, hpos, hsize, hend,
      hptr', hobjsize]
    simp only [Follows, hd, Option.some.injEq, forall_eq']
    exact agrees_open

theorem close (hs : s.Sync) {fd : Int} (h : FsSuccess s (.close fd) t) :
    t.Within ∧ (t.Tracks ↔ Follows fileSize s.vfs (.close fd)) := by
  obtain ⟨d, _, ho, hv⟩ := h.close_inv hs.exact
  have hkept : ∀ e : Slot, (e.val : Int) ∈ t.opened →
      (e.val : Int) ∈ s.opened ∧ t.vfs.table e = s.vfs.table e ∧ t.vfs.objs e = s.vfs.objs e := by
    intro e he
    rw [ho, Finset.mem_erase] at he
    exact ⟨he.2, hv e fun hed => he.1 (by rw [hed])⟩
  refine ⟨fun e he => ?_, iff_of_true (fun e he => ?_) trivial⟩
  · obtain ⟨hm, _, hobj⟩ := hkept e he
    rw [hobj]
    exact hs.within e hm
  · obtain ⟨hm, htab, hobj⟩ := hkept e he
    rw [Vfs.Agrees, htab, hobj]
    exact hs.tracks e hm

theorem read (L : F.Laws fileSize) (hs : s.Sync) {fd : Int} {buf : Bool} {len : BitVec 32}
    (h : FsSuccess s (.read fd buf len) t) :
    (t.Tracks ↔ Follows fileSize s.vfs (.read fd buf len)) ∧ (t.Tracks → t.Within) := by
  have hopen : fd ∈ s.opened := h.1
  obtain ⟨d, data, o, w, rfl, hr, _, rfl⟩ := h.read_inv hs.exact
  obtain ⟨hptr, hsize⟩ := L.fread hr
  obtain ⟨hp, hz⟩ := hs.tracks d hopen
  have hag : (s.vfs.setObj d o w).Agrees d ↔ BitVec.ofNat 32 data.length = 0 := by
    simp only [Vfs.Agrees, setObj_table, setObj_objs, Function.update_self, hptr, hsize, hp, hz,
      and_true]
    constructor
    · intro he
      exact BitVec.add_right_eq_self.mp he.symm
    · intro he
      rw [he]
      exact (BitVec.add_zero _).symm
  have hother : ∀ e, e ≠ d → (s.vfs.setObj d o w).table e = s.vfs.table e ∧
      (s.vfs.setObj d o w).objs e = s.vfs.objs e :=
    fun e he => ⟨rfl, by simp [he]⟩
  have hiff : Session.Tracks ⟨s.vfs.setObj d o w, s.opened⟩ ↔ BitVec.ofNat 32 data.length = 0 :=
    (hs.tracks.iff_at hopen (fun _ _ he => he) hother).trans hag
  refine ⟨hiff.trans ⟨fun he e hed => ?_, fun he => ?_⟩, fun ht => ?_⟩
  · cases Fin.ext (Int.ofNat.inj hed)
    rw [hr]
    exact he
  · have := he d rfl
    rwa [hr] at this
  · apply hs.within.at d (fun _ _ he => he) (fun e he => (hother e he).2)
    have hzero := hiff.mp ht
    simp only [setObj_objs, Function.update_self, hptr, hsize, hzero]
    simpa using hs.within d hopen

theorem write (L : F.Laws fileSize) (hs : s.Sync) {fd : Int} {buf : Option Bytes}
    {len : BitVec 32} (h : FsSuccess s (.write fd buf len) t) : t.Within ∧ t.Tracks := by
  have hopen : fd ∈ s.opened := h.1
  obtain ⟨d, data, bw, o, w, rfl, hr, _, rfl⟩ := h.write_inv hs.exact
  obtain ⟨hptr, hsize⟩ := L.fwrite hr
  obtain ⟨hp, hz⟩ := hs.tracks d hopen
  have hv : (fatWrite d data len s.vfs).2.objs d = o := by
    simp [fatWrite, hr]
  have hother : ∀ e, e ≠ d → (fatWrite d data len s.vfs).2.table e = s.vfs.table e ∧
      (fatWrite d data len s.vfs).2.objs e = s.vfs.objs e :=
    fun e he => by simp [fatWrite, he]
  constructor
  · apply hs.within.at d (fun _ _ he => he) (fun e he => (hother e he).2)
    rw [hv, hsize]
    split
    · exact BitVec.le_refl _
    · rename_i hle
      exact BitVec.not_lt.mp hle
  · rw [hs.tracks.iff_at hopen (fun _ _ he => he) hother, Vfs.Agrees, hv, hsize, hptr, ← hp, ← hz]
    simp [fatWrite, hr]

theorem lseek_target (L : F.Laws fileSize) (hs : s.Sync) {d : Slot} {offset : BitVec 32}
    {whence : Int} (h : FsSuccess s (.lseek d.val offset whence) t) :
    F.fptr (t.vfs.objs d) = newOffset (s.vfs.table d) offset whence := by
  obtain ⟨e, he, _, rfl⟩ := h.lseek_inv hs.exact
  cases Fin.ext (Int.ofNat.inj he)
  have := (L.flseek (s.vfs.objs d) (newOffset (s.vfs.table d) offset whence) s.vfs.world).1
  simpa [fatLseek] using this

theorem lseek (L : F.Laws fileSize) (hs : s.Sync) {fd : Int} {offset : BitVec 32} {whence : Int}
    (h : FsSuccess s (.lseek fd offset whence) t) :
    t.Within ∧ (t.Tracks ↔ Follows fileSize s.vfs (.lseek fd offset whence)) := by
  have hopen : fd ∈ s.opened := h.1
  obtain ⟨d, rfl, _, rfl⟩ := h.lseek_inv hs.exact
  obtain ⟨hptr, hsize⟩ :=
    L.flseek (s.vfs.objs d) (newOffset (s.vfs.table d) offset whence) s.vfs.world
  obtain ⟨hp, hz⟩ := hs.tracks d hopen
  have hle := hs.within d hopen
  have hother : ∀ e, e ≠ d →
      (fatLseek d (newOffset (s.vfs.table d) offset whence) s.vfs).2.table e = s.vfs.table e ∧
      (fatLseek d (newOffset (s.vfs.table d) offset whence) s.vfs).2.objs e = s.vfs.objs e :=
    fun e he => ⟨rfl, by simp [fatLseek, he]⟩
  have hag : (fatLseek d (newOffset (s.vfs.table d) offset whence) s.vfs).2.Agrees d ↔
      newOffset (s.vfs.table d) offset whence = (s.vfs.table d).pos := by
    simp only [Vfs.Agrees, fatLseek, setObj_table, setObj_objs, Function.update_self, hptr, hsize]
    constructor
    · intro he
      exact he.1.symm
    · intro he
      refine ⟨he.symm, ?_⟩
      rw [he, if_neg (BitVec.not_lt.mpr (hp ▸ hle)), hz]
  constructor
  · apply hs.within.at d (fun _ _ he => he) (fun e he => (hother e he).2)
    simp only [fatLseek, setObj_objs, Function.update_self, hptr, hsize]
    split
    · exact BitVec.le_refl _
    · rename_i hle
      exact BitVec.not_lt.mp hle
  · rw [hs.tracks.iff_at hopen (fun _ _ he => he) hother, hag]
    constructor
    · intro he e hed
      cases Fin.ext (Int.ofNat.inj hed)
      exact he
    · intro he
      exact he d rfl

/-- One successful call keeps both layers in step just when it follows. -/
theorem step_iff (L : F.Laws fileSize) (hs : s.Sync) {c : FsCall} (h : FsSuccess s c t) :
    (t.Tracks ↔ Follows fileSize s.vfs c) ∧ (t.Tracks → t.Within) := by
  cases c with
  | «open» file flags => exact ⟨(hs.open L h).2, fun _ => (hs.open L h).1⟩
  | close fd =>
    obtain ⟨hw, hiff⟩ : t.Within ∧ (t.Tracks ↔ Follows fileSize s.vfs (.close fd)) := hs.close h
    exact ⟨hiff, fun _ => hw⟩
  | read fd buf len => exact hs.read L h
  | write fd buf len => exact ⟨iff_of_true (hs.write L h).2 trivial, fun _ => (hs.write L h).1⟩
  | lseek fd offset whence => exact ⟨(hs.lseek L h).2, fun _ => (hs.lseek L h).1⟩

end Session.Sync

/-- A successful call that keeps position and size in step. -/
def FollowingStep (fileSize : F.World → Bytes → BitVec 32) (s : Session F) (c : FsCall)
    (t : Session F) : Prop :=
  FsSuccess s c t ∧ Follows fileSize s.vfs c

/-- In every run of successful calls that follow, position and size of the open descriptors are
those of the file objects, so that seeks from the position and from the end go where they should.
A successful call that does not follow puts some open descriptor out of step. -/
theorem position_tracks (fileSize : F.World → Bytes → BitVec 32) (L : F.Laws fileSize)
    (w : F.World) {cs : List FsCall} {s : Session F}
    (h : Reach (FollowingStep fileSize) (Session.init w) cs s) :
    s.Tracks ∧
    (∀ (d : Slot) (off : BitVec 32) (t : Session F),
      (FsSuccess s (.lseek d.val off seekCur) t →
        F.fptr (t.vfs.objs d) = F.fptr (s.vfs.objs d) + off) ∧
      (FsSuccess s (.lseek d.val off seekEnd) t →
        F.fptr (t.vfs.objs d) = F.objsize (s.vfs.objs d) + off)) ∧
    ∀ c t, FsSuccess s c t → (t.Tracks ↔ Follows fileSize s.vfs c) := by
  have hs : s.Sync := by
    apply h.invariant (Session.Sync.init w)
    intro s c t hs hst
    have ht := (hs.step_iff L hst.1).1.mpr hst.2
    exact ⟨hst.1.exact hs.exact, ht, (hs.step_iff L hst.1).2 ht⟩
  refine ⟨hs.tracks, fun d off t => ⟨fun hc => ?_, fun hc => ?_⟩, fun c t hc =>
    (hs.step_iff L hc).1⟩
  · rw [hs.lseek_target L hc, ← (hs.tracks d hc.1).1]
    rfl
  · rw [hs.lseek_target L hc, ← (hs.tracks d hc.1).2]
    rfl

instance decidableFollows (fileSize : F.World → Bytes → BitVec 32) (v : Vfs F) :
    (c : FsCall) → Decidable (Follows fileSize v c)
  | .open file flags => inferInstanceAs (Decidable (∀ d, (fdNew v).1 = some d →
      (flags &&& oCreat ≠ 0 ∨ (v.table d).size = fileSize v.world file) ∧
      (flags &&& oAppend ≠ 0 → flags &&& oCreat ≠ 0 ∨ fileSize v.world file = 0)))
  | .close _ | .write _ _ _ => inferInstanceAs (Decidable True)
  | .read fd _ len => inferInstanceAs (Decidable (∀ d : Slot, fd = d.val →
      BitVec.ofNat 32 (F.fRead (v.objs d) len v.world).2.1.length = 0))
  | .lseek fd offset whence => inferInstanceAs (Decidable (∀ d : Slot, fd = d.val →
      newOffset (v.table d) offset whence = (v.table d).pos))

private theorem success_of_check {s t : Session F} {c : FsCall} {r : Option Int}
    (he : s.exec c = some (r, t)) (ha : c.Aims s.opened) (hr : ∃ i ∈ r, 0 ≤ i) :
    FsSuccess s c t := by
  obtain ⟨i, hi, h0⟩ := hr
  cases hi
  exact ⟨ha, i, h0, he⟩

/-- Two bytes are written to a new file; the position is two. -/
theorem position_tracks_written :
    ∃ s : Session ramFat, Reach (FollowingStep ramSize) (Session.init noFiles)
      [.open [0x61] (oCreat ||| oRdwr), .write 0 (some [1, 2]) 2] s ∧ s.Tracks ∧
      (s.vfs.table ⟨0, by decide⟩).pos = 2 := by
  have hp : ((Session.init noFiles).play
      (fun s c r => (c.Aims s.opened ∧ ∃ i ∈ r, 0 ≤ i) ∧ Follows ramSize s.vfs c)
      [.open [0x61] (oCreat ||| oRdwr), .write 0 (some [1, 2]) 2]).any
        (fun s => (s.vfs.table ⟨0, by decide⟩).pos = 2) := by
    decide +kernel
  obtain ⟨s, hs, hpos⟩ := (Option.any_eq_true _ _).mp hp
  have hr : Reach (FollowingStep ramSize) _ _ s := Session.play_reach (fun s c r t he hok => by
    obtain ⟨⟨ha, hr⟩, hf⟩ := of_decide_eq_true hok
    exact ⟨success_of_check he ha hr, hf⟩) hs
  exact ⟨s, hr, (position_tracks ramSize ramFat_laws noFiles hr).1, of_decide_eq_true hpos⟩

def oneFile : ramFat.World := fun path => if path = [0x61] then some [1, 2, 3] else none

/-- After one byte of a file has been read its pointer is at one, but the position is still
zero and the size is that of the slot's last file: a seek by zero from the current position
goes back to the beginning. -/
theorem position_lost :
    ∃ s t : Session ramFat, Reach FsSuccess (Session.init oneFile)
      [.open [0x61] oRdonly, .read 0 true 1] s ∧ ¬ s.Tracks ∧
      FsSuccess s (.lseek 0 0 seekCur) t ∧
      ramFat.fptr (s.vfs.objs ⟨0, by decide⟩) = 1 ∧
      ramFat.fptr (t.vfs.objs ⟨0, by decide⟩) = 0 := by
  have hp : ((Session.init oneFile).play (fun s c r => c.Aims s.opened ∧ ∃ i ∈ r, 0 ≤ i)
      [.open [0x61] oRdonly, .read 0 true 1]).any (fun s =>
        ((0 : Int) ∈ s.opened ∧ (s.vfs.table ⟨0, by decide⟩).pos = 0 ∧
          ramFat.fptr (s.vfs.objs ⟨0, by decide⟩) = 1) ∧
        (s.exec (.lseek 0 0 seekCur)).any (fun (r, t) =>
          r = some 0 ∧ ramFat.fptr (t.vfs.objs ⟨0, by decide⟩) = 0)) := by
    decide +kernel
  obtain ⟨s, hs, hres⟩ := (Option.any_eq_true _ _).mp hp
  obtain ⟨⟨hopen, hpos, hptr⟩, hseek⟩ := of_decide_eq_true hres
  obtain ⟨⟨r, t⟩, ht, htp⟩ := (Option.any_eq_true _ _).mp hseek
  obtain ⟨rfl, hback⟩ := of_decide_eq_true htp
  refine ⟨s, t, Session.play_reach (fun s c r t he hok => ?_) hs, fun htr => ?_,
    ⟨hopen, 0, le_refl _, ht⟩, hptr, hback⟩
  · obtain ⟨ha, hr⟩ := of_decide_eq_true hok
    exact success_of_check he ha hr
  · have h0 := (htr ⟨0, by decide⟩ hopen).1
    rw [hpos, hptr] at h0
    cases h0

end NctuCourses.Osdi.Fs
