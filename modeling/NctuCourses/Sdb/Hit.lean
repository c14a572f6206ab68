import NctuCourses.Sdb.Patched

namespace NctuCourses.Sdb

namespace Program

variable {R : Type}

/-- The breakpoint that `RestoreRIPAndCode` finds. -/
def restorePoint (pg : Program R) : Option BreakPoint :=
  pg.breakpoints.find? fun b => b.addr == vmToElf (pg.tracee.rip - 1) pg.elfentry
    pg.elftextoff pg.vmtext

/-- What `RestoreRIPAndCode` returns. -/
def restoreRet (pg : Program R) : Int := if pg.restorePoint.isSome then 0 else -1

/-- The entry of the table in which `ListInstructions` finds an address. -/
def insnAt (pg : Program R) (addr : Addr) : Option Insn :=
  pg.instructions.find? fun i => i.rip ≤ addr && addr < i.rip + i.size

theorem restoreRipAndCode_eq (pg : Program R) :
    pg.restoreRipAndCode =
      match pg.restorePoint with
      | none => some (pg.tracee.rip - 1,
        { pg with tracee := { pg.tracee with rip := pg.tracee.rip - 1 } })
      | some b => (peekText pg.tracee.mem (pg.tracee.rip - 1)).map fun _ =>
          (pg.tracee.rip - 1, pg.stepBack (some b.origCode)) := by
  rw [restoreRipAndCode]
  change (match pg.restorePoint with
    | none => _
    | some b => _) = _
  cases pg.restorePoint with
  | none => rfl
  | some b =>
    dsimp only [patchCode]
    cases h : peekText pg.tracee.mem (pg.tracee.rip - 1) with
    | none => rfl
    | some codes =>
      simp only [Option.bind_eq_bind, Option.bind_some, Option.map_some, pokeText_peekText h]
      rfl

theorem findIdx?_find? {l : List Insn} {p : Insn → Bool} :
    match l.findIdx? p with
    | none => l.find? p = none
    | some k => ∃ i, l.find? p = some i ∧ (l.drop k).take 1 = [i] := by
  cases h : l.findIdx? p with
  | none =>
    rw [List.findIdx?_eq_none_iff] at h
    exact List.find?_eq_none.mpr fun i hi => by simp [h i hi]
  | some k =>
    obtain ⟨hk, hp, hbefore⟩ := List.findIdx?_eq_some_iff_getElem.mp h
    refine ⟨l[k], ?_, by rw [List.drop_eq_getElem_cons hk]; rfl⟩
    rw [List.find?_eq_some_iff_getElem]
    exact ⟨hp, k, hk, rfl, fun j hj => by simpa using hbefore j hj⟩

theorem listInstructions_hit (pg : Program R) (addr : Addr) :
    (pg.listInstructions addr true).2 =
      match pg.insnAt addr with
      | none => [.noAssembly addr]
      | some i => [.insn (elfToVm i.rip pg.elfentry pg.elftextoff pg.vmtext) i] := by
  have hidx := findIdx?_find? (l := pg.instructions) (p := fun i =>
    i.rip ≤ addr && addr < i.rip + i.size)
  rw [listInstructions, insnAt]
  cases h : pg.instructions.findIdx? (fun i => i.rip ≤ addr && addr < i.rip + i.size) with
  | none =>
    rw [h] at hidx
    rw [hidx]
  | some k =>
    rw [h] at hidx
    obtain ⟨i, hi, htake⟩ := hidx
    rw [hi]
    dsimp only
    rw [if_pos rfl, htake]
    rfl

/-- The breakpoint that was hit is taken out at its address, and the
instruction is shown at that address. -/
structure Undone (pg : Program R) (b : BreakPoint) : Prop where
  ret : pg.restoreRet = 0
  restored : pg.restoreRipAndCode = some (pg.vm b.addr,
    { pg with tracee := { pg.tracee with
        rip := pg.vm b.addr
        mem := Function.update pg.tracee.mem (pg.vm b.addr) (some b.origCode) } })
  shown : ∃ i, (pg.listInstructions b.addr true).2 = [.insn (pg.vm b.addr) i]

/-- The tracee can be read at the breakpoint, and the table has an instruction that starts there. -/
structure OnInsn (pg : Program R) (b : BreakPoint) : Prop where
  readable : (peekText pg.tracee.mem (pg.vm b.addr)).isSome
  insn : ∃ i, pg.insnAt b.addr = some i ∧ i.rip = b.addr

end Program

/-- The entry point and the start of `.text` give the same translation. -/
def SameTranslation (elfentry elftext elftextoff vmtext : Addr) : Prop :=
  (elfentry - elftextoff = vmtext ↔ elftext - elftextoff = vmtext) ∨ vmtext = 0

theorem SameTranslation.elfToVm_eq {e t o v : Addr} (h : SameTranslation e t o v) (a : Addr) :
    elfToVm a e o v = elfToVm a t o v := by
  unfold elfToVm
  cases h with
  | inl h => simp only [h]
  | inr h => simp [h]

theorem SameTranslation.vmToElf_eq {e t o v : Addr} (h : SameTranslation e t o v) (a : Addr) :
    vmToElf a e o v = vmToElf a t o v := by
  unfold vmToElf
  cases h with
  | inl h => simp only [h]
  | inr h => simp [h]

theorem elfToVm_ne {e t o v : Addr} (h : ¬ SameTranslation e t o v) (a : Addr) :
    elfToVm a e o v ≠ elfToVm a t o v := by
  unfold SameTranslation at h
  unfold elfToVm
  by_cases he : e - o = v <;> by_cases ht : t - o = v <;> simp_all

namespace Program

variable {R : Type} {pg : Program R} {b : BreakPoint}

theorem undone_iff (hsame : SameTranslation pg.elfentry pg.elftext pg.elftextoff pg.vmtext)
    (hhit : pg.hitPoint = some b) : pg.Undone b ↔ pg.OnInsn b := by
  have hvm := (hitPoint_some hhit).2
  have hpoint : pg.restorePoint = some b := by
    rw [restorePoint, hsame.vmToElf_eq]
    exact hhit
  constructor
  · intro h
    constructor
    · have hr := h.restored
      rw [restoreRipAndCode_eq, hpoint] at hr
      obtain ⟨codes, hcodes, _⟩ := Option.map_eq_some_iff.mp hr
      rw [hvm, hcodes]
      rfl
    · obtain ⟨i, hi⟩ := h.shown
      rw [listInstructions_hit] at hi
      cases hfind : pg.insnAt b.addr with
      | none =>
        rw [hfind] at hi
        cases hi
      | some j =>
        rw [hfind] at hi
        obtain ⟨hrip, _⟩ := Line.insn.inj (List.cons.inj hi).1
        rw [hsame.elfToVm_eq] at hrip
        exact ⟨j, rfl, pg.vm_injective hrip⟩
  · intro h
    obtain ⟨codes, hcodes⟩ := Option.isSome_iff_exists.mp h.readable
    obtain ⟨i, hi, hrip⟩ := h.insn
    constructor
    · rw [restoreRet, hpoint]
      rfl
    · rw [hvm] at hcodes ⊢
      rw [restoreRipAndCode_eq, hpoint, hcodes]
      rfl
    · refine ⟨i, ?_⟩
      rw [listInstructions_hit, hi]
      dsimp only
      rw [hsame.elfToVm_eq, hrip]
      rfl

/-- A program that has hit its only breakpoint, on the one instruction of its table. -/
def single (r : R) (elfentry elftext elftextoff vmtext addr : Addr) (code : Byte) : Program R where
  name := ["a.out"]
  stat := .running
  vmtext := vmtext
  elfentry := elfentry
  elftext := elftext
  elftextoff := elftextoff
  textSize := 1#64
  breakpoints := [⟨0, addr, code⟩]
  instructions := [⟨addr, [code], 1#64, "nop", ""⟩]
  tracee := ⟨patched (fun _ => some code) [elfToVm addr elftext elftextoff vmtext],
    elfToVm addr elftext elftextoff vmtext + 1, r, true, []⟩
  loads := 1
  gone := []
  out := []

theorem single_hitPoint (r : R) (e t o v a : Addr) (code : Byte) :
    (single r e t o v a code).hitPoint = some ⟨0, a, code⟩ := by
  simp [hitPoint, single, vmToElf_elfToVm]

theorem single_onInsn (r : R) (e t o v a : Addr) (code : Byte) (ha : a < a + 1#64) :
    (single r e t o v a code).OnInsn ⟨0, a, code⟩ := by
  constructor
  · rw [peekText_isSome]
    intro i _
    change (if _ then some 0xcc#8 else some code).isSome = true
    split
    · rfl
    · rfl
  · exact ⟨⟨a, [code], 1#64, "nop", ""⟩, by simp [insnAt, single, ha], rfl⟩

/-- The instruction of the breakpoint is shown at another address. -/
theorem not_undone (hdiff : ¬ SameTranslation pg.elfentry pg.elftext pg.elftextoff pg.vmtext)
    (hon : pg.OnInsn b) :
    ¬ pg.Undone b := by
  intro h
  obtain ⟨i, hi, hrip⟩ := hon.insn
  obtain ⟨j, hj⟩ := h.shown
  rw [listInstructions_hit, hi] at hj
  have hshown := (Line.insn.inj (List.cons.inj hj).1).1
  rw [hrip] at hshown
  exact elfToVm_ne hdiff b.addr hshown

end Program

/-- For every entry point, start and offset of `.text` and mapping: what `CheckIfHit` finds is
undone and shown at its place whenever the breakpoint is on an instruction that can be read, and
only then, exactly if the entry point and the start of `.text` give the same translation. Otherwise
no breakpoint on an instruction is. -/
theorem hit_undone {R : Type} (r : R) (elfentry elftext elftextoff vmtext : Addr) :
    ((∀ pg : Program R, pg.elfentry = elfentry → pg.elftext = elftext → pg.elftextoff = elftextoff →
      pg.vmtext = vmtext → (pg.breakpoints.map (·.addr)).Nodup →
      ∀ b, pg.hitPoint = some b → (pg.Undone b ↔ pg.OnInsn b)) ↔
    ((elfentry - elftextoff = vmtext ↔ elftext - elftextoff = vmtext) ∨ vmtext = 0)) ∧
    (¬ ((elfentry - elftextoff = vmtext ↔ elftext - elftextoff = vmtext) ∨ vmtext = 0) →
      ∀ pg : Program R, pg.elfentry = elfentry → pg.elftext = elftext → pg.elftextoff = elftextoff →
        pg.vmtext = vmtext → ∀ b, pg.OnInsn b → ¬ pg.Undone b) := by
  refine ⟨⟨fun h => ?_, ?_⟩, ?_⟩
  · by_contra hdiff
    have hon := Program.single_onInsn r elfentry elftext elftextoff vmtext 0#64 0x90#8 (by decide)
    have hhit := Program.single_hitPoint r elfentry elftext elftextoff vmtext 0#64 0x90#8
    have hundone := h (.single r elfentry elftext elftextoff vmtext 0#64 0x90#8) rfl rfl rfl rfl
      (List.nodup_singleton _) _ hhit
    exact absurd (hundone.mpr hon) (Program.not_undone hdiff hon)
  · intro hsame pg he ht ho hv _ b hhit
    apply Program.undone_iff ?_ hhit
    rw [he, ht, ho, hv]
    exact hsame
  · rintro hdiff pg rfl rfl rfl rfl b hon
    exact Program.not_undone hdiff hon

/-- The entry point of a file that has it at the start of `.text`. -/
theorem hit_undone_at_entry :
    (Program.single () 0x4000b0#64 0x4000b0#64 0xb0#64 0x400000#64 0x4000b0#64 0x90#8).Undone
      ⟨0, 0x4000b0#64, 0x90#8⟩ :=
  ((hit_undone () 0x4000b0#64 0x4000b0#64 0xb0#64 0x400000#64).1.mpr (.inl Iff.rfl)
    (.single () 0x4000b0#64 0x4000b0#64 0xb0#64 0x400000#64 0x4000b0#64 0x90#8) rfl rfl rfl rfl
    (List.nodup_singleton _) _ (Program.single_hitPoint ..)).mpr
    (Program.single_onInsn _ _ _ _ _ _ _ (by decide))

/-- A file whose entry point is not the start of `.text`: the breakpoint at 0x401000 is hit, but it
is not found again, its `0xcc` stays, and the instruction is shown at 0x801000. -/
theorem hit_undone_past_entry :
    let pg := Program.single () 0x401040#64 0x401000#64 0x1000#64 0x400000#64 0x401000#64 0x90#8
    pg.hitPoint = some ⟨0, 0x401000#64, 0x90#8⟩ ∧ pg.OnInsn ⟨0, 0x401000#64, 0x90#8⟩ ∧
    pg.restoreRet = -1 ∧
      pg.restoreRipAndCode.map (fun r => (r.2.tracee.rip, r.2.tracee.mem 0x401000#64)) =
        some (0x401000#64, some 0xcc#8) ∧
      (pg.listInstructions 0x401000#64 true).2 =
        [.insn 0x801000#64 ⟨0x401000#64, [0x90#8], 1#64, "nop", ""⟩] := by
  exact ⟨rfl, ⟨rfl, _, rfl, rfl⟩, rfl, rfl, rfl⟩

end NctuCourses.Sdb
