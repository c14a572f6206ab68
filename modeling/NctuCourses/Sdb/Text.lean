import NctuCourses.Sdb.Address

namespace NctuCourses.Sdb

/-- Memory with `0xcc` at the addresses `as`. -/
def patched (m : Mem) (as : List Addr) : Mem := fun x => if x ∈ as then some 0xcc#8 else m x

theorem patched_nil (m : Mem) : patched m [] = m := by
  funext x
  simp [patched]

theorem patched_congr {m : Mem} {as bs : List Addr} (h : ∀ x, x ∈ as ↔ x ∈ bs) :
    patched m as = patched m bs := by
  funext x
  simp [patched, h x]

theorem update_patched (m : Mem) (a : Addr) (as : List Addr) :
    Function.update (patched m as) a (some 0xcc#8) = patched m (a :: as) := by
  funext x
  by_cases hx : x = a
  · simp [patched, hx]
  · simp [patched, hx]

theorem patched_update (m : Mem) (a : Addr) (as : List Addr) :
    patched (Function.update m a (some 0xcc#8)) as = patched m (a :: as) := by
  funext x
  by_cases hx : x = a
  · simp [patched, hx]
  · simp [patched, hx]

theorem restore_patched {m : Mem} {a : Addr} {as : List Addr} {v : Byte} (hm : m a = some v)
    (ha : a ∉ as) : Function.update (patched m (a :: as)) a (some v) = patched m as := by
  funext x
  by_cases hx : x = a
  · simp [patched, hx, ha, hm]
  · simp [patched, hx]

theorem repatch {m : Mem} {a : Addr} {as : List Addr} (ha : a ∈ as) (v : Option Byte) :
    Function.update (Function.update (patched m as) a v) a (some 0xcc#8) = patched m as := by
  rw [Function.update_idem, update_patched]
  exact patched_congr fun x => by
    simp only [List.mem_cons, or_iff_right_iff_imp]
    intro h
    rwa [h]

/-- An executable file: what `ReadElf` reads, whether it is position independent, and the byte at
each address of `.text`. -/
structure File where
  elfentry : Addr
  elftext : Addr
  elftextoff : Addr
  textSize : Addr
  pie : Bool
  byte : Addr → Byte

namespace File

/-- The test of `Break`. -/
def InText (F : File) (a : Addr) : Prop := F.elftext ≤ a ∧ a < F.elftext + F.textSize

/-- The address in memory of address `a` of the file. -/
def vmAddr (F : File) (vmtext a : Addr) : Addr := if F.pie then a + vmtext else a

end File

/-- The file that is debugged: every process started for it has the code of the file, at an address
that the code recognises as moved or not. -/
structure Loadable {R : Type} (E : Env R) (path : Path) (F : File) : Prop where
  elf : ∃ e s, E.elf path = some e ∧ (e.shdr.drop 1).find? (fun s => s.name == ".text") = some s ∧
    e.entrypoint = F.elfentry ∧ s.addr = F.elftext ∧ s.offset = F.elftextoff ∧ s.size = F.textSize
  mode : ∀ n vm, getTextStartInMemory path none (E.spawn n).maps = some vm →
    (F.elftext - F.elftextoff = vm ↔ F.pie = false)
  code : ∀ n vm, getTextStartInMemory path none (E.spawn n).maps = some vm →
    ∀ a, F.InText a → (E.spawn n).tracee.mem (F.vmAddr vm a) = some (F.byte a)

namespace Program

variable {R : Type}

/-- The address in memory that the code takes for address `a` of the file. -/
def vm (pg : Program R) (a : Addr) : Addr := elfToVm a pg.elftext pg.elftextoff pg.vmtext

def vmPoints (pg : Program R) : List Addr := pg.breakpoints.map fun b => pg.vm b.addr

/-- The process as it was started. -/
def origin (E : Env R) (pg : Program R) : Tracee R := (E.spawn (pg.loads - 1)).tracee

def setMem (pg : Program R) (m : Mem) : Program R :=
  { pg with tracee := { pg.tracee with mem := m } }

theorem vm_injective (pg : Program R) : Function.Injective pg.vm := by
  intro a b h
  have := congrArg (fun x => vmToElf x pg.elftext pg.elftextoff pg.vmtext) h
  simpa [vm, vmToElf_elfToVm] using this

theorem mem_vmPoints {pg : Program R} {a : Addr} :
    pg.vm a ∈ pg.vmPoints ↔ a ∈ pg.breakpoints.map (·.addr) := by
  simp only [vmPoints, List.mem_map]
  constructor
  · intro h
    obtain ⟨b, hb, he⟩ := h
    exact ⟨b, hb, pg.vm_injective he⟩
  · intro h
    obtain ⟨b, hb, rfl⟩ := h
    exact ⟨b, hb, rfl⟩

theorem patchCode_eq {pg pg' : Program R} {rip : Addr} {v : Byte}
    (h : pg.patchCode rip v = some pg') :
    pg' = pg.setMem (Function.update pg.tracee.mem rip (some v)) := by
  simp only [patchCode, Option.bind_eq_bind, Option.bind_eq_some_iff] at h
  obtain ⟨codes, hcodes, h⟩ := h
  rw [pokeText_peekText hcodes] at h
  exact (Option.some.inj h).symm

theorem patchAll_eq {pg pg' : Program R} {bs : List BreakPoint}
    (h : bs.foldlM (fun pg b =>
      pg.patchBreakPoint (elfToVm b.addr pg.elftext pg.elftextoff pg.vmtext)) pg = some pg') :
    pg' = pg.setMem (patched pg.tracee.mem (bs.map fun b => pg.vm b.addr)) := by
  induction bs generalizing pg with
  | nil =>
    obtain rfl : pg = pg' := by simpa using h
    rw [List.map_nil, patched_nil]
    rfl
  | cons b bs ih =>
    rw [List.foldlM_cons] at h
    obtain ⟨pg₁, h₁, h⟩ := Option.bind_eq_some_iff.mp h
    obtain rfl := patchCode_eq h₁
    have hrest : pg' = pg.setMem
        (patched (Function.update pg.tracee.mem (pg.vm b.addr) (some 0xcc#8))
        (bs.map fun b => pg.vm b.addr)) := ih h
    rw [hrest, patched_update, List.map_cons]

theorem setBreakPoints_eq {pg pg' : Program R} (h : pg.setBreakPoints = some pg') :
    pg' = pg.setMem (patched pg.tracee.mem pg.vmPoints) := patchAll_eq h

end Program

end NctuCourses.Sdb
