import NctuCourses.Osdi.Fs.Position

namespace NctuCourses.Osdi.Fs

open NctuCourses.Lib

variable {F : FatFs}

/-- Any call, whatever descriptor it names. -/
def AnyStep (s : Session F) (c : FsCall) (t : Session F) : Prop := ∃ r, s.exec c = some (r, t)

/-- The descriptor that a call names. -/
def FsCall.target : FsCall → Option Int
  | .open _ _ => none
  | .close fd | .read fd _ _ | .write fd _ _ | .lseek fd _ _ => some fd

/-- The reference count, position, size and flags of every entry are the same. -/
def Vfs.SameEntries (v v' : Vfs F) : Prop :=
  ∀ d, (v'.table d).refCount = (v.table d).refCount ∧ (v'.table d).pos = (v.table d).pos ∧
    (v'.table d).size = (v.table d).size ∧ (v'.table d).flags = (v.table d).flags

/-- The call stays within the table, returns a negative value and changes no entry. -/
def Rejects (v : Vfs F) (c : FsCall) : Prop :=
  ∃ r v', c.run v = some (some r, v') ∧ r < 0 ∧ v.SameEntries v'

/-- What the bound check of `fd_get` refuses. -/
def OutOfRange (fd : Int) : Prop := fd < 0 ∨ fsFdMax < fd

/-- The file object that `sys_lseek` works on: the descriptor has been put back before. -/
def Vfs.seekObj (v : Vfs F) (d : Slot) : F.Fil :=
  if (v.table d).refCount = 0 then F.zero else v.objs d

/-- Either the bound check refuses the descriptor, or the call puts back what it takes and FatFs
refuses the file object. -/
def Harmless (v : Vfs F) : FsCall → Prop
  | .open _ _ => False
  | .close fd => OutOfRange fd
  | .read fd buf len => OutOfRange fd ∨ ∃ d : Slot, fd = d.val ∧ (buf = true ∧ 0 ≤ len.toInt) ∧
      (F.fRead (v.objs d) len v.world).1 ≠ .ok
  | .write fd buf len => OutOfRange fd ∨ ∃ d : Slot, fd = d.val ∧ ∃ data,
      (buf = some data ∧ 0 ≤ len.toInt) ∧
      (F.fWrite (v.objs d) data len v.world).1 ≠ .ok ∧
      (F.fWrite (v.objs d) data len v.world).2.1 = 0
  | .lseek fd offset whence => OutOfRange fd ∨ ∃ d : Slot, fd = d.val ∧ 0 ≤ offset.toInt ∧
      (F.fLseek (v.seekObj d) (newOffset (v.table d) offset whence) v.world).1 ≠ .ok

/-- FatFs reads no more than it is asked for. -/
def FatFs.ReadsAtMost (F : FatFs) : Prop :=
  ∀ o count w, (F.fRead o count w).2.1.length ≤ count.toNat

section Table

variable (v : Vfs F) (d : Slot)

theorem fdPut_table : (fdPut d v).table = (v.setRef d ((v.table d).refCount - 1)).table := by
  simp only [fdPut]
  split <;> rfl

theorem not_same_of_refCount {v v' : Vfs F} {d : Slot}
    (h : (v'.table d).refCount ≠ (v.table d).refCount) : ¬ v.SameEntries v' :=
  fun hs => h (hs d).1

theorem put_setRef {v' : Vfs F} {n : Int} (hn : n = (v.table d).refCount + 1)
    (h : v'.table = (v.setRef d n).table) : (fdPut d v').table = v.table := by
  have hd : (v'.table d).refCount - 1 = (v.table d).refCount := by
    rw [h, setRef_table_self]
    dsimp only
    omega
  rw [fdPut_table, hd, Vfs.setRef, setFd_table, h, setRef_table_self]
  simp only [Vfs.setRef, setFd_table, Function.update_idem]
  exact congrArg Vfs.table (setRef_self v d)

theorem same_of_table {v v' : Vfs F} (h : v'.table = v.table) : v.SameEntries v' := by
  intro d
  rw [h]
  exact ⟨rfl, rfl, rfl, rfl⟩

end Table

section Range

variable {v : Vfs F} {fd : Int}

theorem range_cases (fd : Int) : OutOfRange fd ∨ fd = fsFdMax ∨ ∃ d : Slot, fd = d.val := by
  by_cases h : OutOfRange fd
  · exact .inl h
  · rw [OutOfRange, not_or] at h
    by_cases hmax : fd = fsFdMax
    · exact .inr (.inl hmax)
    · refine .inr (.inr ⟨⟨fd.toNat, ?_⟩, ?_⟩)
      · omega
      · simp only
        omega

theorem slot_not_outOfRange (d : Slot) : ¬ OutOfRange d.val := by
  have := d.isLt
  rw [OutOfRange]
  omega

theorem fdGet_outOfRange (h : OutOfRange fd) : fdGet fd v = some (none, v) := by
  rw [fdGet, if_pos]
  exact h

theorem fdGet_behind : fdGet (fsFdMax : Int) v = none := by
  rw [fdGet, if_neg (by decide), dif_neg (by decide)]

theorem not_rejects_of_none {c : FsCall} (h : c.run v = none) : ¬ Rejects v c := by
  intro hr
  obtain ⟨r, v', hrun, _⟩ := hr
  rw [h] at hrun
  cases hrun

theorem rejects_iff {c : FsCall} {r : Int} {v' : Vfs F} (h : c.run v = some (some r, v')) :
    Rejects v c ↔ r < 0 ∧ v.SameEntries v' := by
  constructor
  · intro hr
    obtain ⟨r', v'', hrun, hneg, hsame⟩ := hr
    rw [h] at hrun
    cases hrun
    exact ⟨hneg, hsame⟩
  · intro hr
    exact ⟨r, v', h, hr⟩

theorem rejects_cases {c : FsCall} {P : Slot → Prop}
    (hout : OutOfRange fd → ∃ r, r < 0 ∧ c.run v = some (some r, v))
    (hbehind : fd = fsFdMax → c.run v = none)
    (hslot : ∀ d : Slot, fd = d.val → (Rejects v c ↔ P d)) :
    Rejects v c ↔ OutOfRange fd ∨ ∃ d : Slot, fd = d.val ∧ P d := by
  obtain h | h | ⟨d, hd⟩ := range_cases fd
  · obtain ⟨r, hneg, hrun⟩ := hout h
    rw [rejects_iff hrun]
    exact iff_of_true ⟨hneg, same_of_table rfl⟩ (.inl h)
  · refine iff_of_false (not_rejects_of_none (hbehind h)) ?_
    intro hor
    obtain ho | ⟨d, hd, _⟩ := hor
    · rw [OutOfRange] at ho
      omega
    · have := d.isLt
      omega
  · rw [hslot d hd]
    constructor
    · intro hP
      exact .inr ⟨d, hd, hP⟩
    · intro hor
      obtain ho | ⟨e, he, hP⟩ := hor
      · exact absurd (hd ▸ ho) (slot_not_outOfRange d)
      · obtain rfl : d = e := Fin.ext (by omega)
        exact hP

end Range

section Calls

variable {v : Vfs F} {fd : Int}

/-- A second `fd_put` always takes one reference too many. -/
theorem rejects_close : Rejects v (.close fd) ↔ Harmless v (.close fd) := by
  rw [Harmless]
  obtain hout | rfl | ⟨d, rfl⟩ := range_cases fd
  · have hrun : FsCall.run v (.close fd) = some (some (-statusEinval), v) := by
      simp [FsCall.run, sysClose, fdGet_outOfRange hout]
    rw [rejects_iff hrun]
    exact iff_of_true ⟨by decide, same_of_table rfl⟩ hout
  · exact iff_of_false (not_rejects_of_none (by simp [FsCall.run, sysClose, fdGet_behind]))
      (by simp [OutOfRange])
  · refine iff_of_false ?_ (slot_not_outOfRange d)
    have hrun : FsCall.run v (.close d.val) = some
        (some (fatClose d (v.setRef d ((v.table d).refCount + 1))).1,
        fdPut d (fdPut d (fatClose d (v.setRef d ((v.table d).refCount + 1))).2)) := by
      simp [FsCall.run, sysClose, fdGet_slot]
    rw [rejects_iff hrun]
    intro h
    refine not_same_of_refCount (d := d) ?_ h.2
    simp only [fdPut_table, fatClose, setObj_table, setRef_table_self]
    omega

/-- A call that returns without `fd_put`. -/
theorem not_rejects_of_get {c : FsCall} {d : Slot} {r : Int}
    (h : c.run v = some (some r, v.setRef d ((v.table d).refCount + 1))) : ¬ Rejects v c := by
  rw [rejects_iff h]
  intro hr
  refine not_same_of_refCount (d := d) ?_ hr.2
  rw [setRef_table_self]
  dsimp only
  omega

theorem toInt_ofNat_nonneg {len : BitVec 32} (h : 0 ≤ len.toInt) {n : Nat} (hn : n ≤ len.toNat) :
    0 ≤ (BitVec.ofNat 32 n).toInt := by
  have hlt := len.isLt
  rw [BitVec.toInt_eq_toNat_cond] at h ⊢
  rw [BitVec.toNat_ofNat, Nat.mod_eq_of_lt (by omega)]
  split at h <;> split <;> omega

theorem read_slot (hread : F.ReadsAtMost) (d : Slot) {buf : Bool} {len : BitVec 32} :
    Rejects v (.read d.val buf len) ↔
      (buf = true ∧ 0 ≤ len.toInt) ∧ (F.fRead (v.objs d) len v.world).1 ≠ .ok := by
  by_cases hb : buf = false ∨ len.toInt < 0
  · refine iff_of_false (not_rejects_of_get (d := d) (r := -statusEinval) ?_) ?_
    · simp [FsCall.run, sysRead, fdGet_slot, hb]
    · intro h
      obtain ⟨⟨hbuf, hlen⟩, _⟩ := h
      cases hb with
      | inl hb => simp [hb] at hbuf
      | inr hb => omega
  · have hargs : buf = true ∧ 0 ≤ len.toInt := by simpa [not_or] using hb
    have hrun : FsCall.run v (.read d.val buf len) = some (some (fatRead d len v).1,
        fdPut d (fatRead d len (v.setRef d ((v.table d).refCount + 1))).2.2) := by
      simp only [FsCall.run, sysRead, fdGet_slot, Option.bind_eq_bind, Option.bind_some, if_neg hb,
        Option.map_some]
      rfl
    have htable : v.SameEntries
        (fdPut d (fatRead d len (v.setRef d ((v.table d).refCount + 1))).2.2) :=
      same_of_table (put_setRef v d rfl rfl)
    rw [rejects_iff hrun]
    simp only [htable, hargs, and_true, true_and]
    constructor
    · intro hneg hok
      have hres : (fatRead d len v).1 =
          (BitVec.ofNat 32 (F.fRead (v.objs d) len v.world).2.1.length).toInt :=
        if_pos hok
      rw [hres] at hneg
      exact absurd hneg (not_lt.mpr (toInt_ofNat_nonneg hargs.2 (hread (v.objs d) len v.world)))
    · intro hne
      by_contra hge
      exact hne (fatRead_ok (not_lt.mp hge))

theorem rejects_read (hread : F.ReadsAtMost) {buf : Bool} {len : BitVec 32} :
    Rejects v (.read fd buf len) ↔ Harmless v (.read fd buf len) := by
  apply rejects_cases
  · intro hout
    exact ⟨-statusEbadf, by decide, by simp [FsCall.run, sysRead, fdGet_outOfRange hout]⟩
  · intro hfd
    rw [hfd]
    simp [FsCall.run, sysRead, fdGet_behind]
  · intro d hd
    rw [hd]
    exact read_slot hread d

/-- The table after a write, by the number of bytes that FatFs has written. -/
theorem fatWrite_put_table (v : Vfs F) (d : Slot) (data : Bytes) (len bw : BitVec 32)
    (hbw : (F.fWrite (v.objs d) data len v.world).2.1 = bw) :
    (fdPut d (fatWrite d data len (v.setRef d ((v.table d).refCount + 1))).2).table =
      Function.update v.table d { v.table d with
        pos := (v.table d).pos + bw
        size := if (v.table d).pos + bw > (v.table d).size then (v.table d).pos + bw
          else (v.table d).size } := by
  rw [fdPut_table, ← hbw]
  simp [fatWrite, Vfs.setRef]

theorem write_slot (d : Slot) (hle : (v.table d).pos ≤ (v.table d).size) {buf : Option Bytes}
    {len : BitVec 32} :
    Rejects v (.write d.val buf len) ↔ ∃ data, (buf = some data ∧ 0 ≤ len.toInt) ∧
      (F.fWrite (v.objs d) data len v.world).1 ≠ .ok ∧
      (F.fWrite (v.objs d) data len v.world).2.1 = 0 := by
  cases buf with
  | none =>
    refine iff_of_false (not_rejects_of_get (d := d) (r := -statusEinval) ?_) (by simp)
    simp [FsCall.run, sysWrite, fdGet_slot]
  | some data =>
    by_cases hl : len.toInt < 0
    · refine iff_of_false (not_rejects_of_get (d := d) (r := -statusEinval) ?_) ?_
      · simp [FsCall.run, sysWrite, fdGet_slot, hl]
      · intro h
        obtain ⟨_, ⟨_, hlen⟩, _⟩ := h
        omega
    · have hrun : FsCall.run v (.write d.val (some data) len) = some
          (some (fatWrite d data len v).1,
          fdPut d (fatWrite d data len (v.setRef d ((v.table d).refCount + 1))).2) := by
        simp only [FsCall.run, sysWrite, fdGet_slot, Option.bind_eq_bind, Option.bind_some,
          if_neg hl, Option.map_some]
        rfl
      rw [rejects_iff hrun]
      simp only [Option.some.injEq, not_lt.mp hl, and_true, exists_eq_left']
      constructor
      · intro h
        obtain ⟨hneg, hsame⟩ := h
        have hbw : (F.fWrite (v.objs d) data len v.world).2.1 = 0 := by
          have hpos := (hsame d).2.1
          rw [fatWrite_put_table v d data len _ rfl] at hpos
          simpa using hpos
        refine ⟨fun hok => ?_, hbw⟩
        have hres : (fatWrite d data len v).1 = (F.fWrite (v.objs d) data len v.world).2.1.toInt :=
          if_pos hok
        rw [hres, hbw] at hneg
        exact absurd hneg (by decide)
      · intro h
        obtain ⟨hne, hbw⟩ := h
        refine ⟨?_, ?_⟩
        · by_contra hge
          exact hne (fatWrite_ok (not_lt.mp hge))
        · apply same_of_table
          rw [fatWrite_put_table v d data len 0 hbw, Function.update_eq_self_iff]
          simp [BitVec.not_lt.mpr hle]

theorem fdPut_get_objs (v : Vfs F) (d : Slot) :
    (fdPut d (v.setRef d ((v.table d).refCount + 1))).objs d = v.seekObj d := by
  by_cases h : (v.table d).refCount = 0
  · simp [fdPut, Vfs.seekObj, h]
  · simp [fdPut, Vfs.seekObj, h]

theorem fdPut_get_world (v : Vfs F) (d : Slot) :
    (fdPut d (v.setRef d ((v.table d).refCount + 1))).world = v.world := by
  simp only [fdPut]
  split <;> rfl

theorem lseek_slot (d : Slot) {offset : BitVec 32} {whence : Int} :
    Rejects v (.lseek d.val offset whence) ↔ 0 ≤ offset.toInt ∧
      (F.fLseek (v.seekObj d) (newOffset (v.table d) offset whence) v.world).1 ≠ .ok := by
  by_cases ho : offset.toInt < 0
  · refine iff_of_false (not_rejects_of_get (d := d) (r := -statusEinval) ?_) fun h =>
      absurd h.1 (not_le.mpr ho)
    simp [FsCall.run, sysLseek, fdGet_slot, ho]
  · have hrun : FsCall.run v (.lseek d.val offset whence) = some
        (some (-(F.fLseek (v.seekObj d) (newOffset (v.table d) offset whence) v.world).1.code),
        (fatLseek d (newOffset (v.table d) offset whence)
          (fdPut d (v.setRef d ((v.table d).refCount + 1)))).2) := by
      have hofs : newOffset ((v.setRef d ((v.table d).refCount + 1)).table d) offset whence =
          newOffset (v.table d) offset whence := by
        simp [newOffset]
      simp only [FsCall.run, sysLseek, fdGet_slot, Option.bind_eq_bind, Option.bind_some, if_neg ho,
        Option.map_some, hofs]
      simp only [fatLseek, fdPut_get_objs, fdPut_get_world]
    have htable : v.SameEntries (fatLseek d (newOffset (v.table d) offset whence)
        (fdPut d (v.setRef d ((v.table d).refCount + 1)))).2 :=
      same_of_table (put_setRef v d rfl rfl)
    rw [rejects_iff hrun]
    simp only [htable, and_true, not_lt.mp ho, true_and]
    rw [← not_le, FResult.neg_code_nonneg]

theorem rejects_write (hle : ∀ d, (v.table d).pos ≤ (v.table d).size) {buf : Option Bytes}
    {len : BitVec 32} :
    Rejects v (.write fd buf len) ↔ Harmless v (.write fd buf len) := by
  apply rejects_cases
  · intro hout
    exact ⟨-statusEbadf, by decide, by simp [FsCall.run, sysWrite, fdGet_outOfRange hout]⟩
  · intro hfd
    rw [hfd]
    simp [FsCall.run, sysWrite, fdGet_behind]
  · intro d hd
    rw [hd]
    exact write_slot d (hle d)

theorem rejects_lseek {offset : BitVec 32} {whence : Int} :
    Rejects v (.lseek fd offset whence) ↔ Harmless v (.lseek fd offset whence) := by
  apply rejects_cases
  · intro hout
    exact ⟨-statusEbadf, by decide, by simp [FsCall.run, sysLseek, fdGet_outOfRange hout]⟩
  · intro hfd
    rw [hfd]
    simp [FsCall.run, sysLseek, fdGet_behind]
  · intro d hd
    rw [hd]
    exact lseek_slot d

end Calls

/-- What a call on a descriptor leaves: the descriptor is refused, the call returns with the
reference that it has taken, or it does its work on a slot. -/
inductive Outcome (v : Vfs F) (done : Slot → Vfs F) : Vfs F → Prop
  | refused : Outcome v done v
  | taken (d : Slot) : Outcome v done (v.setRef d ((v.table d).refCount + 1))
  | done (d : Slot) : Outcome v done (done d)

section Outcome

variable {v v' : Vfs F} {fd r : Int}

theorem sysRead_outcome {buf : Bool} {len : BitVec 32} {data : Bytes}
    (hc : sysRead fd buf len v = some (r, data, v')) :
    Outcome v (fun d => fdPut d (fatRead d len (v.setRef d ((v.table d).refCount + 1))).2.2)
      v' := by
  obtain hout | rfl | ⟨d, rfl⟩ := range_cases fd
  · simp only [sysRead, fdGet_outOfRange hout, Option.bind_eq_bind, Option.bind_some] at hc
    cases hc
    exact .refused
  · simp only [sysRead, fdGet_behind, Option.bind_eq_bind, Option.bind_none] at hc
    cases hc
  · simp only [sysRead, fdGet_slot, Option.bind_eq_bind, Option.bind_some] at hc
    split at hc
    · cases hc
      exact .taken d
    · cases hc
      exact .done d

theorem sysWrite_outcome {buf : Option Bytes} {len : BitVec 32}
    (hc : sysWrite fd buf len v = some (r, v')) :
    Outcome v (fun d => fdPut d (fatWrite d (buf.getD []) len
      (v.setRef d ((v.table d).refCount + 1))).2) v' := by
  obtain hout | rfl | ⟨d, rfl⟩ := range_cases fd
  · simp only [sysWrite, fdGet_outOfRange hout, Option.bind_eq_bind, Option.bind_some] at hc
    cases hc
    exact .refused
  · simp only [sysWrite, fdGet_behind, Option.bind_eq_bind, Option.bind_none] at hc
    cases hc
  · simp only [sysWrite, fdGet_slot, Option.bind_eq_bind, Option.bind_some] at hc
    cases buf with
    | none =>
      cases hc
      exact .taken d
    | some buf =>
      dsimp only at hc
      split at hc
      · cases hc
        exact .taken d
      · cases hc
        exact .done d

theorem sysLseek_outcome {offset : BitVec 32} {whence : Int}
    (hc : sysLseek fd offset whence v = some (r, v')) :
    Outcome v (fun d => (fatLseek d (newOffset (v.table d) offset whence)
      (fdPut d (v.setRef d ((v.table d).refCount + 1)))).2) v' := by
  obtain hout | rfl | ⟨d, rfl⟩ := range_cases fd
  · simp only [sysLseek, fdGet_outOfRange hout, Option.bind_eq_bind, Option.bind_some] at hc
    cases hc
    exact .refused
  · simp only [sysLseek, fdGet_behind, Option.bind_eq_bind, Option.bind_none] at hc
    cases hc
  · simp only [sysLseek, fdGet_slot, Option.bind_eq_bind, Option.bind_some] at hc
    split at hc
    · cases hc
      exact .taken d
    · have hofs : newOffset ((v.setRef d ((v.table d).refCount + 1)).table d) offset whence =
          newOffset (v.table d) offset whence := by
        simp [newOffset]
      rw [hofs] at hc
      cases hc
      exact .done d

end Outcome

/-- No position is behind the recorded size. -/
def Vfs.Bounded (v : Vfs F) : Prop := ∀ d, (v.table d).pos ≤ (v.table d).size

namespace Vfs.Bounded

variable {v : Vfs F}

theorem setFd (h : v.Bounded) (d : Slot) {f : FsFd} (hf : f.pos ≤ f.size) :
    (v.setFd d f).Bounded := by
  intro e
  by_cases he : e = d
  · rw [he, setFd_table, Function.update_self]
    exact hf
  · rw [setFd_table, Function.update_of_ne he]
    exact h e

theorem setObj (h : v.Bounded) (d : Slot) (o : F.Fil) (w : F.World) : (v.setObj d o w).Bounded := h

theorem setRef (h : v.Bounded) (d : Slot) (n : Int) : (v.setRef d n).Bounded := h.setFd d (h d)

theorem fdPut (h : v.Bounded) (d : Slot) : (fdPut d v).Bounded := by
  intro e
  rw [fdPut_table]
  exact h.setRef d _ e

theorem fdGet (h : v.Bounded) {fd : Int} {r : Option Slot} {v' : Vfs F}
    (hg : fdGet fd v = some (r, v')) :
    v'.Bounded := by
  rw [Fs.fdGet] at hg
  split at hg
  · cases hg
    exact h
  · split at hg
    · cases hg
      exact h.setRef _ _
    · cases hg

theorem fatOpen (h : v.Bounded) (d : Slot) : (fatOpen d v).2.Bounded := by
  have hd : (v.setFd d { v.table d with
      size := fatOpenSize (v.table d).flags (v.table d).size, pos := 0 }).Bounded :=
    h.setFd d (by simp [BitVec.le_def])
  simp only [Fs.fatOpen]
  split
  · exact hd
  · exact hd

theorem fatWrite (h : v.Bounded) (d : Slot) (buf : Bytes) (count : BitVec 32) :
    (fatWrite d buf count v).2.Bounded := by
  simp only [Fs.fatWrite]
  apply (h.setObj d _ _).setFd d
  dsimp only
  split
  · exact BitVec.le_refl _
  · exact BitVec.not_lt.mp ‹_›

theorem sysOpen (h : v.Bounded) {file : Bytes} {flags : BitVec 32} {r : Option Int} {v' : Vfs F}
    (hc : sysOpen file flags v = some (r, v')) : v'.Bounded := by
  cases hn : (Fs.fdNew v).1 with
  | none =>
    rw [sysOpen_full hn] at hc
    cases hc
    exact h
  | some d =>
    obtain ⟨hf, rfl, _⟩ := sysOpen_slot hn hc
    have hp : (v.prepared d file hf flags).Bounded := h.setFd d (h d)
    exact hp.fatOpen d

theorem sysClose (h : v.Bounded) {fd r : Int} {v' : Vfs F} (hc : sysClose fd v = some (r, v')) :
    v'.Bounded := by
  obtain ⟨⟨d, u⟩, hg, hc⟩ := Option.bind_eq_some_iff.mp hc
  have hu := h.fdGet hg
  cases d with
  | none =>
    cases hc
    exact hu
  | some d =>
    cases hc
    exact ((hu.setObj d _ _).fdPut d).fdPut d

theorem outcome (h : v.Bounded) {done : Slot → Vfs F} {v' : Vfs F} (ho : Outcome v done v')
    (hdone : ∀ d, (done d).Bounded) : v'.Bounded := by
  cases ho with
  | refused => exact h
  | taken d => exact h.setRef d _
  | done d => exact hdone d

theorem run (h : v.Bounded) {c : FsCall} {r : Option Int} {v' : Vfs F}
    (hrun : c.run v = some (r, v')) :
    v'.Bounded := by
  cases c with
  | «open» file flags => exact h.sysOpen hrun
  | close fd =>
    obtain ⟨⟨i, u⟩, hc, he⟩ := Option.map_eq_some_iff.mp hrun
    cases he
    exact h.sysClose hc
  | read fd buf len =>
    obtain ⟨⟨i, data, u⟩, hc, he⟩ := Option.map_eq_some_iff.mp hrun
    cases he
    apply h.outcome (sysRead_outcome hc)
    intro d
    exact ((h.setRef d _).setObj d _ _).fdPut d
  | write fd buf len =>
    obtain ⟨⟨i, u⟩, hc, he⟩ := Option.map_eq_some_iff.mp hrun
    cases he
    apply h.outcome (sysWrite_outcome hc)
    intro d
    exact ((h.setRef d _).fatWrite d _ len).fdPut d
  | lseek fd offset whence =>
    obtain ⟨⟨i, u⟩, hc, he⟩ := Option.map_eq_some_iff.mp hrun
    cases he
    apply h.outcome (sysLseek_outcome hc)
    intro d
    exact ((h.setRef d _).fdPut d).setObj d _ _

end Vfs.Bounded

theorem bounded_reach (w : F.World) {cs : List FsCall} {s : Session F}
    (h : Reach AnyStep (Session.init w) cs s) :
    s.vfs.Bounded := by
  apply h.invariant (I := fun s => s.vfs.Bounded)
  · intro d
    simp [Session.init, fsInit, FsFd.zero]
  · intro s c t hs hstep
    obtain ⟨r, hex⟩ := hstep
    obtain ⟨⟨r', v⟩, hrun, he⟩ := Option.map_eq_some_iff.mp hex
    cases he
    exact hs.run hrun

/-- FatFs works on valid file objects only. -/
structure FatFs.Guards (F : FatFs) (valid : F.Fil → Prop) : Prop where
  zero : ¬ valid F.zero
  fopen : ∀ {o path mode w}, (F.fOpen o path mode w).1 ≠ .ok → ¬ valid (F.fOpen o path mode w).2.1
  fclose : ∀ {o w}, (F.fClose o w).1 = .ok ∨ ¬ valid o → ¬ valid (F.fClose o w).2.1
  fread : ∀ {o count w}, ¬ valid o →
    (F.fRead o count w).1 ≠ .ok ∧ ¬ valid (F.fRead o count w).2.2.1
  fwrite : ∀ {o buf count w}, ¬ valid o → (F.fWrite o buf count w).1 ≠ .ok ∧
    (F.fWrite o buf count w).2.1 = 0 ∧ ¬ valid (F.fWrite o buf count w).2.2.1
  flseek : ∀ {o ofs w}, ¬ valid o → (F.fLseek o ofs w).1 ≠ .ok ∧ ¬ valid (F.fLseek o ofs w).2.1

/-- Any call, except that FatFs does not fail to close an open file. -/
def ClosingStep (s : Session F) (c : FsCall) (t : Session F) : Prop :=
  AnyStep s c t ∧ ∀ d : Slot, c = .close d.val → (d.val : Int) ∈ s.opened →
    (F.fClose (s.vfs.objs d) s.vfs.world).1 = .ok

/-- A slot that is open is held, and one that is not open has no valid file object. -/
structure Session.Shut (valid : F.Fil → Prop) (s : Session F) : Prop where
  held : ∀ d : Slot, (d.val : Int) ∈ s.opened → 1 ≤ (s.vfs.table d).refCount
  invalid : ∀ d : Slot, (d.val : Int) ∉ s.opened → ¬ valid (s.vfs.objs d)

namespace Session.Shut

variable {valid : F.Fil → Prop} {s : Session F}

theorem init (hg : F.Guards valid) (w : F.World) : (Session.init w).Shut valid where
  held := by
    intro d hd
    cases hd
  invalid := by
    intro d _
    exact hg.zero

/-- A call that works on slot `d` only, and neither opens nor closes it. -/
theorem touch (h : s.Shut valid) {v : Vfs F} (d : Slot)
    (hother : ∀ e, e ≠ d → (v.table e).refCount = (s.vfs.table e).refCount ∧
      v.objs e = s.vfs.objs e)
    (hcount : (s.vfs.table d).refCount ≤ (v.table d).refCount)
    (hobj : ¬ valid (s.vfs.objs d) → ¬ valid (v.objs d)) : Session.Shut valid ⟨v, s.opened⟩ where
  held := by
    intro e he
    have := h.held e he
    by_cases hed : e = d
    · rw [hed] at this ⊢
      exact this.trans hcount
    · rwa [(hother e hed).1]
  invalid := by
    intro e he
    have := h.invalid e he
    by_cases hed : e = d
    · rw [hed] at this ⊢
      exact hobj this
    · rwa [(hother e hed).2]

theorem fdPut_objs {v : Vfs F} {d e : Slot} (he : e ≠ d) : (fdPut d v).objs e = v.objs e := by
  simp only [fdPut]
  split
  · simp [he]
  · rfl

theorem fdPut_invalid (hg : F.Guards valid) {v : Vfs F} {d : Slot} (h : ¬ valid (v.objs d)) :
    ¬ valid ((fdPut d v).objs d) := by
  simp only [fdPut]
  split
  · simpa using hg.zero
  · exact h

theorem outcome (h : s.Shut valid) {done : Slot → Vfs F} {v : Vfs F} (ho : Outcome s.vfs done v)
    (hdone : ∀ d, Session.Shut valid ⟨done d, s.opened⟩) : Session.Shut valid ⟨v, s.opened⟩ := by
  cases ho with
  | refused => exact h
  | taken d =>
    apply h.touch d
    · intro e he
      rw [setRef_table_of_ne _ _ _ he]
      exact ⟨rfl, rfl⟩
    · rw [setRef_table_self]
      dsimp only
      omega
    · intro hd
      exact hd
  | done d => exact hdone d

theorem fatRead (h : s.Shut valid) (hg : F.Guards valid) (d : Slot) (len : BitVec 32) :
    Session.Shut valid
    ⟨fdPut d (fatRead d len (s.vfs.setRef d ((s.vfs.table d).refCount + 1))).2.2, s.opened⟩ := by
  have htable : (fdPut d (Fs.fatRead d len
      (s.vfs.setRef d ((s.vfs.table d).refCount + 1))).2.2).table =
      s.vfs.table := put_setRef s.vfs d rfl rfl
  apply h.touch d
  · intro e he
    rw [htable, fdPut_objs he]
    simp [Fs.fatRead, he]
  · rw [htable]
  · intro hd
    apply fdPut_invalid hg
    simpa [Fs.fatRead] using (hg.fread hd).2

theorem fatWrite (h : s.Shut valid) (hg : F.Guards valid) (d : Slot) (buf : Bytes)
    (len : BitVec 32) :
    Session.Shut valid
      ⟨fdPut d (fatWrite d buf len (s.vfs.setRef d ((s.vfs.table d).refCount + 1))).2,
        s.opened⟩ := by
  apply h.touch d
  · intro e he
    rw [fatWrite_put_table s.vfs d buf len _ rfl, fdPut_objs he]
    simp [Fs.fatWrite, he]
  · rw [fatWrite_put_table s.vfs d buf len _ rfl]
    simp
  · intro hd
    apply fdPut_invalid hg
    simpa [Fs.fatWrite] using (hg.fwrite hd).2.2

theorem fatLseek (h : s.Shut valid) (hg : F.Guards valid) (d : Slot) (ofs : BitVec 32) :
    Session.Shut valid
    ⟨(fatLseek d ofs (fdPut d (s.vfs.setRef d ((s.vfs.table d).refCount + 1)))).2, s.opened⟩ := by
  have htable : (fdPut d (s.vfs.setRef d ((s.vfs.table d).refCount + 1))).table = s.vfs.table :=
    put_setRef s.vfs d rfl rfl
  apply h.touch d
  · intro e he
    simp only [Fs.fatLseek, setObj_table, setObj_objs]
    rw [htable, Function.update_of_ne he, fdPut_objs he]
    exact ⟨rfl, rfl⟩
  · simp only [Fs.fatLseek, setObj_table]
    rw [htable]
  · intro hd
    have hput : ¬ valid ((fdPut d (s.vfs.setRef d ((s.vfs.table d).refCount + 1))).objs d) :=
      fdPut_invalid hg hd
    simp only [Fs.fatLseek, setObj_objs, Function.update_self]
    exact (hg.flseek hput).2

theorem sysClose (h : s.Shut valid) (hg : F.Guards valid) {fd r : Int} {v : Vfs F}
    (hclose : ∀ d : Slot, fd = d.val → fd ∈ s.opened →
      (F.fClose (s.vfs.objs d) s.vfs.world).1 = .ok)
    (hc : sysClose fd s.vfs = some (r, v)) : Session.Shut valid ⟨v, s.opened.erase fd⟩ := by
  have hslots : ∀ v' : Vfs F, (∀ e : Slot, fd ≠ e.val →
      (v'.table e).refCount = (s.vfs.table e).refCount ∧
      v'.objs e = s.vfs.objs e) → (∀ d : Slot, fd = d.val → ¬ valid (v'.objs d)) →
      Session.Shut valid ⟨v', s.opened.erase fd⟩ := by
    intro v' hother hself
    constructor
    · intro e he
      obtain ⟨hne, he⟩ := Finset.mem_erase.mp he
      rw [(hother e hne.symm).1]
      exact h.held e he
    · intro e he
      by_cases hed : fd = e.val
      · exact hself e hed
      · rw [(hother e hed).2]
        apply h.invalid e
        intro hmem
        exact he (Finset.mem_erase.mpr ⟨Ne.symm hed, hmem⟩)
  obtain hout | rfl | ⟨d, rfl⟩ := range_cases fd
  · simp only [Fs.sysClose, fdGet_outOfRange hout, Option.bind_eq_bind, Option.bind_some] at hc
    cases hc
    refine hslots _ (fun e _ => ⟨rfl, rfl⟩) fun d hd => ?_
    exact absurd (hd ▸ hout) (slot_not_outOfRange d)
  · simp only [Fs.sysClose, fdGet_behind, Option.bind_eq_bind, Option.bind_none] at hc
    cases hc
  · simp only [Fs.sysClose, fdGet_slot, Option.bind_eq_bind, Option.bind_some] at hc
    cases hc
    refine hslots _ (fun e he => ?_) fun e he => ?_
    · have hed : e ≠ d := by
        intro h
        exact he (by rw [h])
      rw [fdPut_table, fdPut_objs hed, setRef_table_of_ne _ _ _ hed, fdPut_table, fdPut_objs hed,
        setRef_table_of_ne _ _ _ hed]
      simp [fatClose, setRef_table_of_ne _ _ _ hed, hed]
    · obtain rfl : d = e := Fin.ext (by omega)
      apply fdPut_invalid hg
      apply fdPut_invalid hg
      simp only [fatClose, setObj_objs, Function.update_self]
      apply hg.fclose
      by_cases ho : (d.val : Int) ∈ s.opened
      · exact .inl (hclose d rfl ho)
      · exact .inr (h.invalid d ho)

theorem fatOpen_objs_of_ne {v : Vfs F} {d e : Slot} (he : e ≠ d) :
    (fatOpen d v).2.objs e = v.objs e := by
  simp only [fatOpen]
  split <;> simp [he]

/-- Neither a failed `f_open` nor the seek after it leaves a valid file object. -/
theorem fatOpen_invalid (hg : F.Guards valid) {v : Vfs F} {d : Slot} (h : (fatOpen d v).1 < 0) :
    ¬ valid ((fatOpen d v).2.objs d) := by
  rw [fatOpen_result, ← not_le, FResult.neg_code_nonneg] at h
  have hopen := hg.fopen h
  simp only [fatOpen]
  split
  · simpa using (hg.flseek hopen).2
  · simpa using hopen

theorem sysOpen (h : s.Shut valid) (hg : F.Guards valid) {file : Bytes} {flags : BitVec 32}
    {r : Option Int} {v : Vfs F} (hc : sysOpen file flags s.vfs = some (r, v)) :
    Session.Shut valid ⟨v, FsCall.track r s.opened (.open file flags)⟩ := by
  cases hn : (fdNew s.vfs).1 with
  | none =>
    rw [sysOpen_full hn] at hc
    cases hc
    exact h
  | some d =>
    obtain ⟨hf, rfl, hneg, hpos⟩ := sysOpen_slot hn hc
    have hfree : (d.val : Int) ∉ s.opened := by
      intro hd
      have := h.held d hd
      have := (fdNew_some hn).2
      omega
    have hother : ∀ e, e ≠ d →
        ((fatOpen d (s.vfs.prepared d file hf flags)).2.table e).refCount =
          (s.vfs.table e).refCount ∧
        (fatOpen d (s.vfs.prepared d file hf flags)).2.objs e = s.vfs.objs e := by
      intro e he
      rw [fatOpen_table_of_ne he, fatOpen_objs_of_ne he]
      simp [Vfs.prepared, he]
    have hcount : ((fatOpen d (s.vfs.prepared d file hf flags)).2.table d).refCount = 1 := by
      simp [fatOpen_refCount, Vfs.prepared]
    by_cases hlt : (fatOpen d (s.vfs.prepared d file hf flags)).1 < 0
    · have ho : FsCall.track r s.opened (.open file flags) = s.opened := by
        cases r with
        | none => rfl
        | some i => exact if_neg (not_le.mpr (hneg hlt i rfl))
      rw [ho]
      apply h.touch d hother
      · have := (fdNew_some hn).2
        omega
      · intro _
        exact fatOpen_invalid hg hlt
    · have ho : FsCall.track r s.opened (.open file flags) = insert (d.val : Int) s.opened := by
        rw [hpos hlt]
        simp [FsCall.track]
      rw [ho]
      constructor
      · intro e he
        by_cases hed : e = d
        · rw [hed, hcount]
        · rw [(hother e hed).1]
          apply h.held e
          exact (Finset.mem_insert.mp he).resolve_left fun heq => hed (Fin.ext (by omega))
      · intro e he
        rw [Finset.mem_insert, not_or] at he
        rw [(hother e fun hed => he.1 (by rw [hed])).2]
        exact h.invalid e he.2

theorem step (h : s.Shut valid) (hg : F.Guards valid) {c : FsCall} {t : Session F}
    (hs : ClosingStep s c t) :
    t.Shut valid := by
  obtain ⟨⟨r, hex⟩, hclose⟩ := hs
  obtain ⟨⟨r', v⟩, hrun, he⟩ := Option.map_eq_some_iff.mp hex
  cases he
  cases c with
  | «open» file flags => exact h.sysOpen hg hrun
  | close fd =>
    obtain ⟨⟨i, u⟩, hc, he⟩ := Option.map_eq_some_iff.mp hrun
    cases he
    exact h.sysClose hg (fun d hd ho => hclose d (by rw [hd]) (hd ▸ ho)) hc
  | read fd buf len =>
    obtain ⟨⟨i, data, u⟩, hc, he⟩ := Option.map_eq_some_iff.mp hrun
    cases he
    exact h.outcome (sysRead_outcome hc) fun d => h.fatRead hg d len
  | write fd buf len =>
    obtain ⟨⟨i, u⟩, hc, he⟩ := Option.map_eq_some_iff.mp hrun
    cases he
    exact h.outcome (sysWrite_outcome hc) fun d => h.fatWrite hg d _ len
  | lseek fd offset whence =>
    obtain ⟨⟨i, u⟩, hc, he⟩ := Option.map_eq_some_iff.mp hrun
    cases he
    exact h.outcome (sysLseek_outcome hc) fun d => h.fatLseek hg d _

end Session.Shut

theorem shut_reach {valid : F.Fil → Prop} (hg : F.Guards valid) (w : F.World) {cs : List FsCall}
    {s : Session F} (h : Reach ClosingStep (Session.init w) cs s) : s.Shut valid :=
  h.invariant (Session.Shut.init hg w) fun _ _ _ hs hstep => hs.step hg hstep

/-- The arguments besides the descriptor are such that the call does not return before `fd_put`, and
it is not the call with two of them. -/
def FsCall.Accepted : FsCall → Prop
  | .open _ _ | .close _ => False
  | .read _ buf len => buf = true ∧ 0 ≤ len.toInt
  | .write _ buf len => buf ≠ none ∧ 0 ≤ len.toInt
  | .lseek _ offset _ => 0 ≤ offset.toInt

/-- When the files that are not open have no valid file objects, FatFs refuses them all. -/
theorem Session.Shut.harmless_iff {valid : F.Fil → Prop} {s : Session F} (h : s.Shut valid)
    (hg : F.Guards valid) {c : FsCall} {fd : Int} (hc : c.target = some fd) (hfd : fd ∉ s.opened) :
    Harmless s.vfs c ↔ OutOfRange fd ∨ (∃ d : Slot, fd = d.val) ∧ c.Accepted := by
  have hslot : ∀ {P Q : Slot → Prop}, (∀ d : Slot, fd = d.val → ¬ valid (s.vfs.objs d) →
      (P d ↔ Q d)) →
      ((OutOfRange fd ∨ ∃ d : Slot, fd = d.val ∧ P d) ↔ OutOfRange fd ∨ ∃ d : Slot, fd = d.val ∧
        Q d) := by
    intro P Q hPQ
    apply or_congr_right
    apply exists_congr
    intro d
    apply and_congr_right
    intro hd
    exact hPQ d hd (h.invalid d (hd ▸ hfd))
  rw [← exists_and_right]
  cases c with
  | «open» file flags => cases hc
  | close fd' =>
    cases hc
    simp [Harmless, FsCall.Accepted]
  | read fd' buf len =>
    cases hc
    apply hslot
    intro d _ hd
    exact and_iff_left (hg.fread hd).1
  | write fd' buf len =>
    cases hc
    apply hslot
    intro d _ hd
    cases buf with
    | none => simp [FsCall.Accepted]
    | some data => simp [FsCall.Accepted, (hg.fwrite hd).1, (hg.fwrite hd).2.1]
  | lseek fd' offset whence =>
    cases hc
    apply hslot
    intro d _ hd
    have hseek : ¬ valid (s.vfs.seekObj d) := by
      rw [Vfs.seekObj]
      split
      · exact hg.zero
      · exact hd
    exact and_iff_left (hg.flseek hseek).1

/-- A call on a descriptor that is not open is rejected without side effects just when it is
harmless, in every state that calls lead to. Where no close of an open file has failed, this depends
on the arguments only. -/
theorem closed_rejected {valid : F.Fil → Prop} (hg : F.Guards valid) (hread : F.ReadsAtMost)
    (w : F.World) {cs : List FsCall} {s : Session F} (h : Reach AnyStep (Session.init w) cs s)
    {c : FsCall} {fd : Int} (hc : c.target = some fd) (hfd : fd ∉ s.opened) :
    (Rejects s.vfs c ↔ Harmless s.vfs c) ∧
    (Reach ClosingStep (Session.init w) cs s →
      (Rejects s.vfs c ↔ OutOfRange fd ∨ (∃ d : Slot, fd = d.val) ∧ c.Accepted)) := by
  have hle := bounded_reach w h
  have hiff : Rejects s.vfs c ↔ Harmless s.vfs c := by
    cases c with
    | «open» file flags => cases hc
    | close fd => exact rejects_close
    | read fd buf len => exact rejects_read hread
    | write fd buf len => exact rejects_write hle
    | lseek fd offset whence => exact rejects_lseek
  refine ⟨hiff, fun hclosing => ?_⟩
  rw [hiff]
  exact (shut_reach hg w hclosing).harmless_iff hg hc hfd

/-- File objects with the check that FatFs makes of them: only those that `f_open` has made, and
`f_close` has not taken back, are worked on. -/
def FatFs.checked (F : FatFs) : FatFs where
  World := F.World
  Fil := Option F.Fil
  zero := none
  fptr o := o.elim 0 F.fptr
  objsize o := o.elim 0 F.objsize
  fOpen _ path mode w :=
    match F.fOpen F.zero path mode w with
    | (.ok, o, w) => (.ok, some o, w)
    | (e, _, w) => (e, none, w)
  fClose
    | none, w => (.invalidObject, none, w)
    | some o, w =>
      match F.fClose o w with
      | (.ok, _, w) => (.ok, none, w)
      | (e, o, w) => (e, some o, w)
  fRead
    | none, _, w => (.invalidObject, [], none, w)
    | some o, count, w =>
      let (e, data, o, w) := F.fRead o count w
      (e, data, some o, w)
  fWrite
    | none, _, _, w => (.invalidObject, 0, none, w)
    | some o, buf, count, w =>
      let (e, bw, o, w) := F.fWrite o buf count w
      (e, bw, some o, w)
  fLseek
    | none, _, w => (.invalidObject, none, w)
    | some o, ofs, w =>
      let (e, o, w) := F.fLseek o ofs w
      (e, some o, w)

theorem FatFs.checked_guards (F : FatFs) : F.checked.Guards fun o => o.isSome where
  zero := Bool.false_ne_true
  fopen {o path mode w} h := by
    revert h
    simp only [checked]
    split <;> simp
  fclose {o w} h := by
    cases o with
    | none => simp [checked]
    | some o =>
      revert h
      simp only [checked]
      split <;> simp_all
  fread {o _ _} h := by
    cases o with
    | none => simp [checked]
    | some o => exact absurd rfl h
  fwrite {o _ _ _} h := by
    cases o with
    | none => simp [checked]
    | some o => exact absurd rfl h
  flseek {o _ _} h := by
    cases o with
    | none => simp [checked]
    | some o => exact absurd rfl h

theorem ramFat_readsAtMost : ramFat.checked.ReadsAtMost := by
  intro o count w
  cases o with
  | none => exact Nat.zero_le _
  | some o => exact List.length_take_le _ _

/-- A file that has been created, written and closed is no longer read: the slot is free and the
object has been taken back. -/
theorem closed_rejected_read :
    ∃ s, Reach ClosingStep (Session.init (F := ramFat.checked) noFiles)
      [.open [0x61] (oCreat ||| oWronly), .write 0 (some [1, 2]) 2, .close 0] s ∧
      Rejects s.vfs (.read 0 true 1) := by
  have hp : ((Session.init (F := ramFat.checked) noFiles).play
      (fun s c _ => ∀ d : Slot, c.target = some (d.val : Int) →
        (ramFat.checked.fClose (s.vfs.objs d) s.vfs.world).1 = .ok)
      [.open [0x61] (oCreat ||| oWronly), .write 0 (some [1, 2]) 2, .close 0]).any
        (fun s => (0 : Int) ∉ s.opened) := by
    decide +kernel
  obtain ⟨s, hs, hclosed⟩ := (Option.any_eq_true _ _).mp hp
  have hr : Reach ClosingStep _ _ s := Session.play_reach
    (fun _ _ r _ he hok => ⟨⟨r, he⟩, fun d hd _ => of_decide_eq_true hok d (by rw [hd]; rfl)⟩) hs
  have h := closed_rejected ramFat.checked_guards ramFat_readsAtMost noFiles
    (hr.mono fun _ _ _ h => h.1) (c := .read 0 true 1) rfl (of_decide_eq_true hclosed)
  exact ⟨s, hr, (h.2 hr).mpr (.inr ⟨⟨⟨0, by decide⟩, rfl⟩, by decide, by decide⟩)⟩

/-- FatFs before a volume is mounted: it refuses everything. -/
def unmounted : FatFs where
  World := Unit
  Fil := Unit
  zero := ()
  fptr _ := 0
  objsize _ := 0
  fOpen _ _ _ _ := (.notEnabled, (), ())
  fClose _ _ := (.invalidObject, (), ())
  fRead _ _ _ := (.invalidObject, [], (), ())
  fWrite _ _ _ _ := (.invalidObject, 0, (), ())
  fLseek _ _ _ := (.invalidObject, (), ())

/-- Closing a file that was never opened leaves a negative reference count, and descriptor
`FS_FD_MAX` is looked up behind the table. -/
theorem closed_not_rejected :
    ¬ Rejects (fsInit () : Vfs unmounted) (.close 3) ∧
    ((sysClose 3 (fsInit () : Vfs unmounted)).map fun e =>
      (e.1, (e.2.table ⟨3, by decide⟩).refCount)) =
      some (-9, -1) ∧
    ¬ Rejects (fsInit () : Vfs unmounted) (.read 10 true 1) ∧
    (sysRead 10 true 1 (fsInit () : Vfs unmounted)).isNone := by
  refine ⟨?_, by decide, ?_, by decide⟩
  · rw [rejects_close]
    simp [Harmless, OutOfRange, fsFdMax]
  · exact not_rejects_of_none rfl

end NctuCourses.Osdi.Fs
