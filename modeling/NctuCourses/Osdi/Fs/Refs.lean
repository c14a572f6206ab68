import Mathlib.Data.Fintype.Card
import NctuCourses.Osdi.Fs.Vfs

namespace NctuCourses.Osdi.Fs

open NctuCourses.Lib

variable {F : FatFs}

section Fields

variable (v : Vfs F) (d : Slot) (f : FsFd) (o : F.Fil) (w : F.World) (m n : Int)

@[simp] theorem setFd_table : (v.setFd d f).table = Function.update v.table d f := rfl

@[simp] theorem setFd_objs : (v.setFd d f).objs = v.objs := rfl

@[simp] theorem setFd_world : (v.setFd d f).world = v.world := rfl

@[simp] theorem setObj_table : (v.setObj d o w).table = v.table := rfl

@[simp] theorem setObj_objs : (v.setObj d o w).objs = Function.update v.objs d o := rfl

@[simp] theorem setObj_world : (v.setObj d o w).world = w := rfl

@[simp] theorem setRef_objs : (v.setRef d n).objs = v.objs := rfl

@[simp] theorem setRef_world : (v.setRef d n).world = v.world := rfl

@[simp] theorem setRef_table_self :
    (v.setRef d n).table d = { v.table d with refCount := n } := by
  simp [Vfs.setRef]

theorem setRef_table_of_ne {e : Slot} (h : e ≠ d) : (v.setRef d n).table e = v.table e := by
  simp [Vfs.setRef, h]

@[simp] theorem setRef_setRef : (v.setRef d m).setRef d n = v.setRef d n := by
  simp [Vfs.setRef, Vfs.setFd]

theorem setRef_self : v.setRef d (v.table d).refCount = v := by
  have hf : { v.table d with refCount := (v.table d).refCount } = v.table d := rfl
  rw [Vfs.setRef, hf, Vfs.setFd, Function.update_eq_self]

end Fields

theorem fdGet_slot (v : Vfs F) (d : Slot) :
    fdGet d.val v = some (some d, v.setRef d ((v.table d).refCount + 1)) := by
  have hd := d.isLt
  have hb : ¬ ((d.val : Int) < 0 ∨ (d.val : Int) > fsFdMax) := by omega
  rw [fdGet, if_neg hb, dif_pos (by simp)]
  rfl

theorem fdNew_none {v : Vfs F} (h : (fdNew v).1 = none) :
    fdNew v = (none, v) ∧ ∀ d, 0 < (v.table d).refCount := by
  rw [fdNew] at h ⊢
  split at h
  · rename_i hf
    exact ⟨rfl, fun d => by simpa using List.find?_eq_none.mp hf d (List.mem_finRange d)⟩
  · cases h

theorem fdNew_some {v : Vfs F} {d : Slot} (h : (fdNew v).1 = some d) :
    fdNew v = (some d, v.setRef d 1) ∧ (v.table d).refCount ≤ 0 := by
  rw [fdNew] at h ⊢
  split at h
  · cases h
  · rename_i hf
    cases h
    exact ⟨rfl, by simpa using List.find?_some hf⟩

section Calls

variable {v : Vfs F} {d : Slot}

theorem fdGet_held (h : (v.table d).refCount = 1) :
    fdGet d.val v = some (some d, v.setRef d 2) := by
  rw [fdGet_slot, h]
  rfl

theorem fdPut_held (h : (v.table d).refCount = 1) : fdPut d (v.setRef d 2) = v := by
  have hv := setRef_self v d
  rw [h] at hv
  simp [fdPut, hv, h]

theorem fdPut_last (h : (v.table d).refCount = 1) :
    fdPut d v = (v.setRef d 0).setObj d F.zero v.world := by
  simp [fdPut, h]

theorem sysClose_held (h : (v.table d).refCount = 1) :
    sysClose d.val v = some ((fatClose d v).1,
      ((fatClose d v).2.setRef d 0).setObj d F.zero (fatClose d v).2.world) := by
  have hc : fatClose d (v.setRef d 2) = ((fatClose d v).1, (fatClose d v).2.setRef d 2) := rfl
  have hr : ((fatClose d v).2.table d).refCount = 1 := h
  simp only [sysClose, fdGet_held h, Option.bind_eq_bind, Option.bind_some, hc]
  rw [fdPut_held hr, fdPut_last hr]

theorem sysRead_refused (h : (v.table d).refCount = 1) {buf : Bool} {len : BitVec 32}
    (hb : buf = false ∨ len.toInt < 0) :
    sysRead d.val buf len v = some (-statusEinval, [], v.setRef d 2) := by
  simp [sysRead, fdGet_held h, hb]

theorem sysRead_held (h : (v.table d).refCount = 1) {buf : Bool} {len : BitVec 32}
    (hb : ¬ (buf = false ∨ len.toInt < 0)) :
    sysRead d.val buf len v = some (fatRead d len v) := by
  have hc : fatRead d len (v.setRef d 2) =
      ((fatRead d len v).1, (fatRead d len v).2.1, (fatRead d len v).2.2.setRef d 2) := rfl
  have hr : ((fatRead d len v).2.2.table d).refCount = 1 := h
  simp only [sysRead, fdGet_held h, Option.bind_eq_bind, Option.bind_some, if_neg hb, hc]
  rw [fdPut_held hr]

theorem sysWrite_null (h : (v.table d).refCount = 1) {len : BitVec 32} :
    sysWrite d.val none len v = some (-statusEinval, v.setRef d 2) := by
  simp [sysWrite, fdGet_held h]

theorem sysWrite_refused (h : (v.table d).refCount = 1) {buf : Bytes} {len : BitVec 32}
    (hl : len.toInt < 0) :
    sysWrite d.val (some buf) len v = some (-statusEinval, v.setRef d 2) := by
  simp [sysWrite, fdGet_held h, hl]

theorem sysWrite_held (h : (v.table d).refCount = 1) {buf : Bytes} {len : BitVec 32}
    (hl : ¬ len.toInt < 0) :
    sysWrite d.val (some buf) len v = some (fatWrite d buf len v) := by
  have hc : fatWrite d buf len (v.setRef d 2) =
      ((fatWrite d buf len v).1, (fatWrite d buf len v).2.setRef d 2) := by
    simp only [fatWrite, Vfs.setRef, Vfs.setFd, Vfs.setObj, Function.update_self,
      Function.update_idem]
    rfl
  have hr : ((fatWrite d buf len v).2.table d).refCount = 1 := by
    simpa [fatWrite] using h
  simp only [sysWrite, fdGet_held h, Option.bind_eq_bind, Option.bind_some, if_neg hl, hc]
  rw [fdPut_held hr]

theorem sysLseek_refused (h : (v.table d).refCount = 1) {offset : BitVec 32} {whence : Int}
    (ho : offset.toInt < 0) :
    sysLseek d.val offset whence v = some (-statusEinval, v.setRef d 2) := by
  simp [sysLseek, fdGet_held h, ho]

theorem sysLseek_held (h : (v.table d).refCount = 1) {offset : BitVec 32} {whence : Int}
    (ho : ¬ offset.toInt < 0) :
    sysLseek d.val offset whence v =
      some (fatLseek d (newOffset (v.table d) offset whence) v) := by
  have hn : newOffset ((v.setRef d 2).table d) offset whence =
      newOffset (v.table d) offset whence := by
    simp [newOffset]
  simp only [sysLseek, fdGet_held h, Option.bind_eq_bind, Option.bind_some, if_neg ho, hn]
  rw [fdPut_held h]

/-- The slot handed out by `fd_new`, with the path and the flags that `file_open` puts there. -/
def Vfs.prepared (v : Vfs F) (d : Slot) (file : Bytes) (hf : file.length < pathMax)
    (flags : BitVec 32) : Vfs F :=
  v.setFd d { v.table d with refCount := 1, path := file, path_fits := hf, flags := flags }

theorem sysOpen_full (h : (fdNew v).1 = none) (file : Bytes) (flags : BitVec 32) :
    sysOpen file flags v = some (some (-1), v) := by
  simp [sysOpen, (fdNew_none h).1]

theorem fatOpen_setRef (n : Int) :
    fatOpen d (v.setRef d n) = ((fatOpen d v).1, (fatOpen d v).2.setRef d n) := by
  simp only [fatOpen, setRef_table_self]
  split <;> simp [Vfs.setRef, Vfs.setFd, Vfs.setObj]

theorem fatOpen_refCount : ((fatOpen d v).2.table d).refCount = (v.table d).refCount := by
  simp only [fatOpen]
  split <;> simp

/-- Past the end of `path` there is no defined behaviour; otherwise the slot stays
taken whatever FatFs answers. -/
theorem sysOpen_slot (h : (fdNew v).1 = some d) {file : Bytes} {flags : BitVec 32}
    {r : Option Int} {v' : Vfs F} (hs : sysOpen file flags v = some (r, v')) :
    ∃ hf : file.length < pathMax, v' = (fatOpen d (v.prepared d file hf flags)).2 ∧
      ((fatOpen d (v.prepared d file hf flags)).1 < 0 → ∀ i ∈ r, i < 0) ∧
      (¬ (fatOpen d (v.prepared d file hf flags)).1 < 0 → r = some (d.val : Int)) := by
  have hg : fdGet d.val (v.setRef d 1) = some (some d, v.setRef d 2) := by
    rw [fdGet_held (by simp)]
    simp
  by_cases hf : file.length < pathMax
  · have ho : fileOpen d file flags (v.setRef d 2) =
        some ((fatOpen d (v.prepared d file hf flags)).1,
          (fatOpen d (v.prepared d file hf flags)).2.setRef d 2) := by
      rw [fileOpen, dif_pos hf, ← fatOpen_setRef]
      simp [Vfs.prepared, Vfs.setRef, Vfs.setFd]
    have hr : ((fatOpen d (v.prepared d file hf flags)).2.table d).refCount = 1 := by
      rw [fatOpen_refCount]
      simp [Vfs.prepared]
    simp only [sysOpen, (fdNew_some h).1, Option.bind_eq_bind, Option.bind_some, hg, ho,
      fdPut_held hr] at hs
    refine ⟨hf, ?_⟩
    split at hs
    · rename_i hneg
      split at hs
      · cases hs
        exact ⟨rfl, fun _ i hi => by cases hi; decide, fun hn => absurd hneg hn⟩
      · split at hs
        · cases hs
          exact ⟨rfl, fun _ i hi => by cases hi; decide, fun hn => absurd hneg hn⟩
        · cases hs
          exact ⟨rfl, fun _ i hi => by simp at hi, fun hn => absurd hneg hn⟩
    · rename_i hpos
      cases hs
      exact ⟨rfl, fun hn => absurd hn hpos, fun _ => rfl⟩
  · simp [sysOpen, (fdNew_some h).1, hg, fileOpen, hf] at hs

theorem fatOpen_table_of_ne {e : Slot} (h : e ≠ d) : (fatOpen d v).2.table e = v.table e := by
  simp only [fatOpen]
  split <;> simp [h]

theorem fatOpen_result :
    (fatOpen d v).1 =
      -(F.fOpen (v.objs d) (v.table d).path (fatOpenMode (v.table d).flags) v.world).1.code := by
  simp only [fatOpen]
  split <;> rfl

theorem fatWrite_refCount (buf : Bytes) (count : BitVec 32) (e : Slot) :
    ((fatWrite d buf count v).2.table e).refCount = (v.table e).refCount := by
  by_cases he : e = d
  · subst he
    simp [fatWrite]
  · simp [fatWrite, he]

end Calls

/-- Open descriptors are slots of the table; the open ones are held once, the others not at all. -/
structure Session.Exact (s : Session F) : Prop where
  slots : ∀ fd ∈ s.opened, ∃ d : Slot, fd = d.val
  refs : ∀ d : Slot, (s.vfs.table d).refCount = if (d.val : Int) ∈ s.opened then 1 else 0

/-- The calls that put back what they take: FatFs opens the file, and no argument is refused. -/
def Balanced (v : Vfs F) : FsCall → Prop
  | .open file flags => ∀ d, (fdNew v).1 = some d → file.length < pathMax ∧
      (F.fOpen (v.objs d) file (fatOpenMode flags) v.world).1 = .ok
  | .close _ => True
  | .read _ buf len => buf = true ∧ 0 ≤ len.toInt
  | .write _ buf len => buf ≠ none ∧ 0 ≤ len.toInt
  | .lseek _ offset _ => 0 ≤ offset.toInt

theorem exact_init (w : F.World) : (Session.init w).Exact where
  slots fd hfd := by cases hfd
  refs d := by simp [Session.init, fsInit, FsFd.zero]

private theorem slot_eq {d e : Slot} (h : (d.val : Int) = e.val) : d = e :=
  Fin.ext (by omega)

namespace Session.Exact

variable {s : Session F}

theorem held (hs : s.Exact) {fd : Int} (h : fd ∈ s.opened) :
    ∃ d : Slot, fd = d.val ∧ (s.vfs.table d).refCount = 1 := by
  obtain ⟨d, rfl⟩ := hs.slots fd h
  exact ⟨d, rfl, by rw [hs.refs d, if_pos h]⟩

theorem congr (hs : s.Exact) {v : Vfs F}
    (h : ∀ d, (v.table d).refCount = (s.vfs.table d).refCount) :
    Session.Exact ⟨v, s.opened⟩ where
  slots := hs.slots
  refs d := by rw [h d, hs.refs d]

theorem not_twice {v : Vfs F} {d : Slot} {o : Finset Int} :
    ¬ Session.Exact ⟨v.setRef d 2, o⟩ := by
  intro h
  have hd := h.refs d
  rw [setRef_table_self] at hd
  split at hd <;> cases hd

theorem free_of_fdNew (hs : s.Exact) {d : Slot} (h : (fdNew s.vfs).1 = some d) :
    (d.val : Int) ∉ s.opened := by
  intro hm
  have h1 := hs.refs d
  have h2 := (fdNew_some h).2
  rw [if_pos hm] at h1
  omega

theorem fdNew_of_card (hs : s.Exact) (h : s.opened.card < fsFdMax) :
    ∃ d, (fdNew s.vfs).1 = some d := by
  cases hn : (fdNew s.vfs).1 with
  | some d => exact ⟨d, rfl⟩
  | none =>
    exfalso
    have hall : ∀ d : Slot, (d.val : Int) ∈ s.opened := by
      intro d
      by_contra hd
      have h0 := hs.refs d
      rw [if_neg hd] at h0
      have := (fdNew_none hn).2 d
      omega
    have hsub : Finset.univ.image (fun d : Slot => (d.val : Int)) ⊆ s.opened := by
      intro fd hfd
      obtain ⟨d, _, rfl⟩ := Finset.mem_image.mp hfd
      exact hall d
    have hcard := Finset.card_le_card hsub
    rw [Finset.card_image_of_injective _ (fun a b => slot_eq),
      Finset.card_univ, Fintype.card_fin] at hcard
    omega

theorem closed (hs : s.Exact) {d : Slot} {v : Vfs F}
    (hd : (v.table d).refCount = 0)
    (h : ∀ e, e ≠ d → (v.table e).refCount = (s.vfs.table e).refCount) :
    Session.Exact ⟨v, s.opened.erase d.val⟩ where
  slots fd hfd := hs.slots fd (Finset.mem_of_mem_erase hfd)
  refs e := by
    by_cases he : e = d
    · subst he
      simp [hd]
    · have hne : (e.val : Int) ≠ d.val := fun hh => he (slot_eq hh)
      simp only [h e he, hs.refs e, Finset.mem_erase, ne_eq, hne, not_false_eq_true, true_and]

/-- A slot that has been taken: it counts as open or it is lost. -/
theorem taken_iff (hs : s.Exact) {d : Slot} {v : Vfs F} {o : Finset Int}
    (hd : (v.table d).refCount = 1)
    (h : ∀ e, e ≠ d → (v.table e).refCount = (s.vfs.table e).refCount)
    (ho : o = insert (d.val : Int) s.opened ∨ o = s.opened) (hf : (d.val : Int) ∉ s.opened) :
    Session.Exact ⟨v, o⟩ ↔ o = insert (d.val : Int) s.opened := by
  constructor
  · intro ht
    rcases ho with ho | ho
    · exact ho
    · have h1 := ht.refs d
      simp only [hd, ho, hf, if_false] at h1
      cases h1
  · intro ho
    subst ho
    refine ⟨fun fd hfd => ?_, fun e => ?_⟩
    · rcases Finset.mem_insert.mp hfd with rfl | hfd
      · exact ⟨d, rfl⟩
      · exact hs.slots fd hfd
    · by_cases he : e = d
      · subst he
        simp [hd]
      · have hne : (e.val : Int) ≠ d.val := fun hh => he (slot_eq hh)
        simp only [h e he, hs.refs e, Finset.mem_insert, hne, false_or]

end Session.Exact

theorem FsStep.run {s t : Session F} {c : FsCall} (h : FsStep s c t) :
    ∃ r v, c.run s.vfs = some (r, v) ∧ t = ⟨v, c.track r s.opened⟩ := by
  obtain ⟨_, r, hr⟩ := h
  simp only [Session.exec, Option.map_eq_some_iff] at hr
  obtain ⟨⟨r', v⟩, hrun, heq⟩ := hr
  cases heq
  exact ⟨r', v, hrun, rfl⟩

theorem Session.Exact.open_iff {s : Session F} (hs : s.Exact) {file : Bytes} {flags : BitVec 32}
    {r : Option Int} {v : Vfs F} (hrun : sysOpen file flags s.vfs = some (r, v)) :
    Session.Exact ⟨v, FsCall.track r s.opened (.open file flags)⟩ ↔
      Balanced s.vfs (.open file flags) := by
  cases hn : (fdNew s.vfs).1 with
  | none =>
    simp only [sysOpen_full hn, Option.some.injEq, Prod.mk.injEq] at hrun
    obtain ⟨rfl, rfl⟩ := hrun
    exact iff_of_true (hs.congr fun _ => rfl) (fun d hd => by rw [hn] at hd; cases hd)
  | some d =>
    obtain ⟨hf, rfl, hneg, hpos⟩ := sysOpen_slot hn hrun
    have hfree := hs.free_of_fdNew hn
    have href : ((fatOpen d (s.vfs.prepared d file hf flags)).2.table d).refCount = 1 := by
      simp [fatOpen_refCount, Vfs.prepared]
    have hother : ∀ e, e ≠ d → ((fatOpen d (s.vfs.prepared d file hf flags)).2.table e).refCount
        = (s.vfs.table e).refCount := by
      intro e he
      simp [fatOpen_table_of_ne he, Vfs.prepared, he]
    have hres : (fatOpen d (s.vfs.prepared d file hf flags)).1 =
        -(F.fOpen (s.vfs.objs d) file (fatOpenMode flags) s.vfs.world).1.code := by
      simp [fatOpen_result, Vfs.prepared]
    have hbal : Balanced s.vfs (.open file flags) ↔
        ¬ (fatOpen d (s.vfs.prepared d file hf flags)).1 < 0 := by
      rw [hres, not_lt, FResult.neg_code_nonneg]
      simp [Balanced, hn, hf]
    rw [hbal]
    by_cases hlt : (fatOpen d (s.vfs.prepared d file hf flags)).1 < 0
    · have ho : FsCall.track r s.opened (.open file flags) = s.opened := by
        cases r with
        | none => rfl
        | some i => exact if_neg (not_le.mpr (hneg hlt i rfl))
      rw [hs.taken_iff href hother (.inr ho) hfree, ho]
      exact iff_of_false (fun he => hfree (he ▸ Finset.mem_insert_self _ _)) (not_not.mpr hlt)
    · have ho : FsCall.track r s.opened (.open file flags) = insert (d.val : Int) s.opened := by
        rw [hpos hlt]
        simp [FsCall.track]
      rw [hs.taken_iff href hother (.inl ho) hfree]
      exact iff_of_true ho hlt

/-- One call: from exact counts it leads to exact counts just when it is balanced. -/
theorem Session.Exact.step_iff {s t : Session F} {c : FsCall} (hs : s.Exact)
    (h : FsStep s c t) : t.Exact ↔ Balanced s.vfs c := by
  obtain ⟨r, v, hrun, rfl⟩ := h.run
  have ha := h.1
  cases c with
  | «open» file flags => exact hs.open_iff hrun
  | close fd =>
    obtain ⟨d, rfl, hd⟩ := hs.held ha
    simp only [FsCall.run, sysClose_held hd, Option.map_some, Option.some.injEq,
      Prod.mk.injEq] at hrun
    obtain ⟨rfl, rfl⟩ := hrun
    refine iff_of_true (hs.closed (by simp) fun e he => ?_) trivial
    simp [setRef_table_of_ne _ _ _ he, fatClose]
  | read fd buf len =>
    obtain ⟨d, rfl, hd⟩ := hs.held ha
    by_cases hb : buf = false ∨ len.toInt < 0
    · simp only [FsCall.run, sysRead_refused hd hb, Option.map_some, Option.some.injEq,
        Prod.mk.injEq] at hrun
      obtain ⟨rfl, rfl⟩ := hrun
      refine iff_of_false Session.Exact.not_twice fun hbal => ?_
      rcases hb with hb | hb
      · exact absurd hbal.1 (by simp [hb])
      · exact absurd hbal.2 (not_le.mpr hb)
    · simp only [FsCall.run, sysRead_held hd hb, Option.map_some, Option.some.injEq,
        Prod.mk.injEq] at hrun
      obtain ⟨rfl, rfl⟩ := hrun
      refine iff_of_true (hs.congr fun _ => rfl) ?_
      simpa [Balanced, not_or] using hb
  | write fd buf len =>
    obtain ⟨d, rfl, hd⟩ := hs.held ha
    cases buf with
    | none =>
      simp only [FsCall.run, sysWrite_null hd, Option.map_some, Option.some.injEq,
        Prod.mk.injEq] at hrun
      obtain ⟨rfl, rfl⟩ := hrun
      exact iff_of_false Session.Exact.not_twice fun hbal => hbal.1 rfl
    | some buf =>
      by_cases hl : len.toInt < 0
      · simp only [FsCall.run, sysWrite_refused hd hl, Option.map_some, Option.some.injEq,
          Prod.mk.injEq] at hrun
        obtain ⟨rfl, rfl⟩ := hrun
        exact iff_of_false Session.Exact.not_twice fun hbal => absurd hbal.2 (not_le.mpr hl)
      · simp only [FsCall.run, sysWrite_held hd hl, Option.map_some, Option.some.injEq,
          Prod.mk.injEq] at hrun
        obtain ⟨rfl, rfl⟩ := hrun
        refine iff_of_true (hs.congr fun e => fatWrite_refCount buf len e) ?_
        exact ⟨by simp, not_lt.mp hl⟩
  | lseek fd offset whence =>
    obtain ⟨d, rfl, hd⟩ := hs.held ha
    by_cases ho : offset.toInt < 0
    · simp only [FsCall.run, sysLseek_refused hd ho, Option.map_some, Option.some.injEq,
        Prod.mk.injEq] at hrun
      obtain ⟨rfl, rfl⟩ := hrun
      exact iff_of_false Session.Exact.not_twice fun hbal => absurd hbal (not_le.mpr ho)
    · simp only [FsCall.run, sysLseek_held hd ho, Option.map_some, Option.some.injEq,
        Prod.mk.injEq] at hrun
      obtain ⟨rfl, rfl⟩ := hrun
      exact iff_of_true (hs.congr fun _ => rfl) (not_lt.mp ho)

/-- A run whose calls are all balanced. -/
def BalancedStep (s : Session F) (c : FsCall) (t : Session F) : Prop :=
  FsStep s c t ∧ Balanced s.vfs c

/-- Descriptor slots are conserved in every run of balanced calls: the open descriptors are held
once, the others not at all, and a slot is found while fewer than `FS_FD_MAX` are open. A call on
open descriptors that is not balanced leaves a wrong count behind. -/
theorem fdSlots_conserved (w : F.World) {cs : List FsCall} {s : Session F}
    (h : Reach BalancedStep (Session.init w) cs s) :
    s.Exact ∧
    (s.opened.card < fsFdMax → ∃ d v, fdNew s.vfs = (some d, v) ∧ (d.val : Int) ∉ s.opened) ∧
    ∀ c t, FsStep s c t → (t.Exact ↔ Balanced s.vfs c) := by
  have hs : s.Exact := by
    apply h.invariant (exact_init w)
    intro s c t hs hst
    exact (hs.step_iff hst.1).mpr hst.2
  refine ⟨hs, fun hc => ?_, fun c t => hs.step_iff⟩
  obtain ⟨d, hd⟩ := hs.fdNew_of_card hc
  exact ⟨d, _, (fdNew_some hd).1, hs.free_of_fdNew hd⟩

instance decidableBalanced (v : Vfs F) : (c : FsCall) → Decidable (Balanced v c)
  | .open file flags => inferInstanceAs (Decidable (∀ d, (fdNew v).1 = some d →
      file.length < pathMax ∧ (F.fOpen (v.objs d) file (fatOpenMode flags) v.world).1 = .ok))
  | .close _ => inferInstanceAs (Decidable True)
  | .read _ buf len => inferInstanceAs (Decidable (buf = true ∧ 0 ≤ len.toInt))
  | .write _ buf len => inferInstanceAs (Decidable (buf ≠ none ∧ 0 ≤ len.toInt))
  | .lseek _ offset _ => inferInstanceAs (Decidable (0 ≤ offset.toInt))

/-- A file is created, written and closed, and its slot is free again. -/
theorem fdSlots_conserved_close :
    ∃ s : Session ramFat, Reach BalancedStep (Session.init noFiles)
      [.open [0x61] (oCreat ||| oWronly), .write 0 (some [1, 2]) 2, .close 0] s ∧ s.Exact := by
  have hp : ((Session.init noFiles).play (fun s c _ => c.Aims s.opened ∧ Balanced s.vfs c)
      [.open [0x61] (oCreat ||| oWronly), .write 0 (some [1, 2]) 2, .close 0]).isSome := by
    decide +kernel
  obtain ⟨s, hs⟩ := Option.isSome_iff_exists.mp hp
  have hr : Reach BalancedStep _ _ s := Session.play_reach
    (fun s c r t he hok => ⟨⟨(of_decide_eq_true hok).1, r, he⟩, (of_decide_eq_true hok).2⟩) hs
  exact ⟨s, hr, (fdSlots_conserved noFiles hr).1⟩

/-- Opening a file that does not exist keeps its slot: after ten attempts no descriptor is
open and none can be opened. -/
theorem fdSlots_lost :
    ∃ s : Session ramFat, Reach FsStep (Session.init noFiles)
      (List.replicate 10 (.open [0x61] oRdonly)) s ∧ s.opened = ∅ ∧ ¬ s.Exact ∧
      (sysOpen [0x62] (oCreat ||| oWronly) s.vfs).map Prod.fst = some (some (-1)) := by
  have hp : ((Session.init noFiles).play (fun s c _ => c.Aims s.opened)
      (List.replicate 10 (.open [0x61] oRdonly))).any (fun s => s.opened = ∅ ∧
        (s.vfs.table ⟨0, by decide⟩).refCount = 1 ∧
        (sysOpen [0x62] (oCreat ||| oWronly) s.vfs).map Prod.fst = some (some (-1))) := by
    decide +kernel
  obtain ⟨s, hs, hres⟩ := (Option.any_eq_true _ _).mp hp
  obtain ⟨ho, href, hnew⟩ := of_decide_eq_true hres
  refine ⟨s, Session.play_reach
    (fun s c r t he hok => ⟨of_decide_eq_true hok, r, he⟩) hs, ho, fun hex => ?_, hnew⟩
  have h0 := hex.refs ⟨0, by decide⟩
  rw [ho, href] at h0
  cases h0

end NctuCourses.Osdi.Fs
