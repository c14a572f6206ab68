import Mathlib.Tactic.LinearCombination
import Mathlib.Tactic.Ring
import NctuCourses.Sdb.Command

namespace NctuCourses.Sdb

/-- The executable segment of a file: its offset and address there, and how far the kernel has moved
it (`bias` is 0 for a file that is not position independent). -/
structure Segment where
  offset : Addr
  vaddr : Addr
  bias : Addr

/-- The file has its `.text` in the segment, and the process that is started next has the
segment at its place in memory. -/
structure Segment.Loads {R : Type} (S : Segment) (E : Env R) (path : Path) (pg : Program R) :
    Prop where
  elf : ∃ e s, E.elf path = some e ∧ (e.shdr.drop 1).find? (fun s => s.name == ".text") = some s ∧
    s.addr = S.vaddr + (s.offset - S.offset)
  maps : getTextStartInMemory path none (E.spawn pg.loads).maps = some (S.vaddr + S.bias)

/-- Addresses are translated as the segment was moved, and `Load` reads the code where it is. -/
structure Translates {R : Type} (S : Segment) (pg : Program R) : Prop where
  elfToVm : ∀ a, elfToVm a pg.elftext pg.elftextoff pg.vmtext = a + S.bias
  vmToElf : ∀ a, vmToElf a pg.elftext pg.elftextoff pg.vmtext = a - S.bias
  textAddr : ∀ i, pg.textAddr i = pg.elftext + S.bias + BitVec.ofNat 64 (8 * i)

variable {R : Type} {E : Env R} {path : Path} {pg pg' : Program R} {S : Segment}

theorem elfToVm_vmToElf (a e o v : Addr) : elfToVm (vmToElf a e o v) e o v = a := by
  rw [elfToVm, vmToElf]
  split_ifs
  · rfl
  · exact BitVec.sub_add_cancel a v

theorem vmToElf_elfToVm (a e o v : Addr) : vmToElf (elfToVm a e o v) e o v = a := by
  rw [elfToVm, vmToElf]
  split_ifs
  · rfl
  · exact BitVec.add_sub_cancel a v

/-- The fields that `Load` leaves in place while it lists the instructions. -/
theorem Program.loadInstructions_fields (h : pg.loadInstructions E = some pg') :
    pg'.elftext = pg.elftext ∧ pg'.elftextoff = pg.elftextoff ∧ pg'.vmtext = pg.vmtext := by
  rw [Program.loadInstructions] at h
  split_ifs at h
  · simp only [Option.bind_eq_bind, Option.bind_eq_some_iff] at h
    obtain ⟨_, _, h⟩ := h
    obtain rfl := Option.some.inj h
    exact ⟨rfl, rfl, rfl⟩
  · obtain rfl := Option.some.inj h
    exact ⟨rfl, rfl, rfl⟩

theorem Segment.Loads.fields (hS : S.Loads E path pg) (h : pg.load E path = some (0, pg')) :
    pg'.elftext = S.vaddr + (pg'.elftextoff - S.offset) ∧ pg'.vmtext = S.vaddr + S.bias := by
  obtain ⟨e, s, he, hs, haddr⟩ := hS.elf
  rw [Program.load] at h
  split_ifs at h
  · simp at h
  · simp at h
  · simp only [hS.maps, he, Option.bind_eq_bind, Option.bind_some, Option.bind_eq_some_iff] at h
    obtain ⟨pg₁, h₁, h⟩ := h
    obtain ⟨_, rfl⟩ := Prod.mk.inj (Option.some.inj h)
    obtain ⟨hf₁, hf₂, hf₃⟩ := Program.loadInstructions_fields h₁
    simp only [Program.readElf, hs] at hf₁ hf₂ hf₃
    change pg₁.elftext = S.vaddr + (pg₁.elftextoff - S.offset) ∧ pg₁.vmtext = S.vaddr + S.bias
    rw [hf₁, hf₂, hf₃]
    exact ⟨haddr, rfl⟩

/-- The test of the code compares the offset of the segment with how far it was moved. -/
theorem sub_eq_vmtext_iff (v o b x : Addr) : v + (x - o) - x = v + b ↔ b = -o := by
  constructor
  · intro e
    linear_combination -e
  · intro e
    linear_combination -e

/-- The translations are those of the loader, and the code is read where it is, exactly when the
segment starts the file and either has not been moved or has address 0 in the file. -/
theorem translates_iff (hfields : pg.elftext = S.vaddr + (pg.elftextoff - S.offset))
    (hvm : pg.vmtext = S.vaddr + S.bias) :
    Translates S pg ↔ S.offset = 0 ∧ (S.bias = 0 ∨ S.vaddr = 0) := by
  have htest : pg.elftext - pg.elftextoff = pg.vmtext ↔ S.bias = -S.offset := by
    rw [hfields, hvm]
    exact sub_eq_vmtext_iff _ _ _ _
  constructor
  · intro h
    have hoff : S.offset = 0 := by
      have h0 := h.textAddr 0
      rw [Program.textAddr, hfields, hvm] at h0
      linear_combination h0
    refine ⟨hoff, ?_⟩
    have h0 := h.elfToVm 0
    rw [elfToVm] at h0
    split_ifs at h0 with hc
    · exact .inl (by linear_combination -h0)
    · rw [hvm] at h0
      exact .inr (by linear_combination h0)
  · intro h
    obtain ⟨hoff, hor⟩ := h
    -- With offset 0 the test says whether the segment has been moved.
    have hmoved : pg.elftext - pg.elftextoff = pg.vmtext ↔ S.bias = 0 := by
      rw [htest, hoff, neg_zero]
    have hstart : S.bias ≠ 0 → pg.vmtext = S.bias := fun hne => by
      rw [hvm, hor.resolve_left hne, zero_add]
    refine ⟨fun a => ?_, fun a => ?_, fun i => ?_⟩
    · rw [elfToVm]
      split_ifs with hc
      · rw [hmoved.mp hc, add_zero]
      · rw [hstart fun e => hc (hmoved.mpr e)]
    · rw [vmToElf]
      split_ifs with hc
      · rw [hmoved.mp hc, sub_zero]
      · rw [hstart fun e => hc (hmoved.mpr e)]
    · rw [Program.textAddr, hfields, hvm, hoff]
      ring

/-- A processor whose instructions all end the process. -/
def exitCpu : Cpu Unit where
  size _ := 1
  exec _ _ _ := none
  size_pos _ := Nat.one_pos
  size_local _ _ _ := rfl
  exec_local _ _ _ _ _ := rfl

/-- A file with one executable segment at `vaddr`, which the kernel does not move. -/
def fileEnv (vaddr textAddr textOffset textSize : Addr) : Env Unit where
  cpu := exitCpu
  access _ := true
  elf _ := some ⟨textAddr, [⟨"", 0, 0, 0⟩, ⟨".text", textAddr, textOffset, textSize⟩]⟩
  spawn _ := ⟨[⟨vaddr, "r-xp", some ["a.out"]⟩], ⟨fun _ => some 0x90#8, textAddr, (), false, []⟩⟩
  disasm _ _ := []

/-- The state before a program is loaded. -/
def unloadedProgram : Program Unit where
  name := []
  stat := .unloaded
  vmtext := 0
  elfentry := 0
  elftext := 0
  elftextoff := 0
  textSize := 0
  breakpoints := []
  instructions := []
  tracee := ⟨fun _ => none, 0, (), false, []⟩
  loads := 0
  gone := []
  out := []

theorem fileEnv_loads (vaddr offset textOffset textSize : Addr) :
    (Segment.mk offset vaddr 0).Loads
      (fileEnv vaddr (vaddr + (textOffset - offset)) textOffset textSize)
        ["a.out"] unloadedProgram :=
  ⟨⟨_, ⟨".text", vaddr + (textOffset - offset), textOffset, textSize⟩, rfl, rfl, rfl⟩,
    by simp [getTextStartInMemory, fileEnv]⟩

/-- For every executable whose `.text` lies in one segment, wherever the kernel has mapped it. -/
theorem load_translates (hL : S.Loads E path pg) (h : pg.load E path = some (0, pg')) :
    Translates S pg' ↔ S.offset = 0 ∧ (S.bias = 0 ∨ S.vaddr = 0) := by
  obtain ⟨h1, h2⟩ := hL.fields h
  exact translates_iff h1 h2

/-- The segment of `hello64`. -/
theorem load_translates_hello64 :
    ∃ pg, unloadedProgram.load (fileEnv 0x400000 0x4000b0 0xb0 0x23) ["a.out"] = some (0, pg) ∧
      (Translates ⟨0, 0x400000, 0⟩ pg ↔ (0 : Addr) = 0 ∧
        ((0 : Addr) = 0 ∨ (0x400000 : Addr) = 0)) := by
  refine ⟨_, rfl, ?_⟩
  exact load_translates (fileEnv_loads 0x400000 0 0xb0 0x23) rfl

/-- A file whose code starts at the second page of the file: the code takes it to be moved, adds the
start of the mapping to every address and reads one page too far. -/
theorem load_translates_separate_code :
    ∃ pg, unloadedProgram.load (fileEnv 0x401000 0x401000 0x1000 0x23) ["a.out"] = some (0, pg) ∧
      (Segment.mk 0x1000 0x401000 0).Loads (fileEnv 0x401000 0x401000 0x1000 0x23) ["a.out"]
        unloadedProgram ∧
      elfToVm 0x401000 pg.elftext pg.elftextoff pg.vmtext = 0x802000 ∧ pg.textAddr 0 = 0x402000 ∧
      ¬ Translates ⟨0x1000, 0x401000, 0⟩ pg := by
  refine ⟨_, rfl, fileEnv_loads 0x401000 0x1000 0x1000 0x23, rfl, rfl, ?_⟩
  intro h
  exact absurd (h.textAddr 0) (by decide)

end NctuCourses.Sdb
