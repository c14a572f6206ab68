import NctuCourses.Osdi.Task.AddrSpace

namespace NctuCourses.Osdi

/-- Where the sections that `kern.ld` places come from: the objects of `lib` and `user` that it
lists, the compiler's library, and every other object. -/
inductive Owner where
  | user
  | libgcc
  | kernel
  deriving DecidableEq

/-- A section of an object file; its alignment is `2 ^ p2align`. -/
structure InSec where
  size : Nat
  p2align : Nat

/-- A section in the linked kernel. -/
structure Placed where
  owner : Owner
  start : Nat
  size : Nat
  deriving DecidableEq

/-- The input sections, by the line of `kern.ld` that collects them. -/
structure Objects where
  utext : List InSec
  gcc : List InSec
  ktext : List InSec
  urodata : List InSec
  krodata : List InSec
  stab : List InSec
  stabstr : List InSec
  udata : List InSec
  kdata : List InSec
  ubss : List InSec
  kbss : List InSec

/-- The symbols of `kern.ld` that the kernel uses, as pairs of start and end, with the placement. -/
structure Layout where
  utext : Nat × Nat
  urodata : Nat × Nat
  udata : Nat × Nat
  ubss : Nat × Nat
  placed : List Placed
  endAddr : Nat

def kernelLoadAddr : Nat := 0xF0100000

/-- `ALIGN(1 << k)`. -/
def alignUp (k dot : Nat) : Nat := (dot + (2 ^ k - 1)) / 2 ^ k * 2 ^ k

/-- The location counter after the sections have been placed from `dot` on. -/
def dotAfter : Nat → List InSec → Nat
  | dot, [] => dot
  | dot, s :: ss => dotAfter (alignUp s.p2align dot + s.size) ss

def places (owner : Owner) : Nat → List InSec → List Placed
  | _, [] => []
  | dot, s :: ss =>
    ⟨owner, alignUp s.p2align dot, s.size⟩ :: places owner (alignUp s.p2align dot + s.size) ss

/-- An output section starts at the strictest alignment of its input sections. -/
def outStart (dot : Nat) (ss : List InSec) : Nat :=
  alignUp (ss.foldr (fun s k => max s.p2align k) 0) dot

/-- The `SECTIONS` of `kern.ld`. `UTEXT_end` and `UDATA_end` stand before the sections of the other
objects, `URODATA_end` and `UBSS_end` after them. -/
def link (o : Objects) : Layout :=
  let utextStart := alignUp 12 kernelLoadAddr
  let text := outStart utextStart (o.utext ++ o.gcc ++ o.ktext)
  let gcc := dotAfter text o.utext
  let utextEnd := dotAfter gcc o.gcc
  let etext := dotAfter utextEnd o.ktext
  let urodataStart := alignUp 12 etext
  let rodata := outStart urodataStart (o.urodata ++ o.krodata)
  let krodata := dotAfter rodata o.urodata
  let urodataEnd := dotAfter krodata o.krodata
  -- `.stab` and `.stabstr` end with `BYTE(0)`.
  let stab := outStart urodataEnd o.stab
  let stabEnd := dotAfter stab o.stab
  let stabstr := outStart (stabEnd + 1) o.stabstr
  let stabstrEnd := dotAfter stabstr o.stabstr
  let udataStart := outStart (alignUp 12 (stabstrEnd + 1)) (o.udata ++ o.kdata)
  let udataEnd := dotAfter udataStart o.udata
  let bssStart := dotAfter udataEnd o.kdata
  let ubssStart := outStart bssStart (o.ubss ++ o.kbss)
  let kbss := dotAfter ubssStart o.ubss
  let ubssEnd := dotAfter kbss o.kbss
  { utext := (utextStart, utextEnd)
    urodata := (urodataStart, urodataEnd)
    udata := (udataStart, udataEnd)
    ubss := (ubssStart, ubssEnd)
    placed := places .user text o.utext ++ places .libgcc gcc o.gcc ++
      places .kernel utextEnd o.ktext ++ places .user rodata o.urodata ++
      places .kernel krodata o.krodata ++ places .kernel stab o.stab ++
      [⟨.kernel, stabEnd, 1⟩] ++ places .kernel stabstr o.stabstr ++ [⟨.kernel, stabstrEnd, 1⟩] ++
      places .user udataStart o.udata ++ places .kernel udataEnd o.kdata ++
      places .user ubssStart o.ubss ++ places .kernel kbss o.kbss
    endAddr := ubssEnd }

/-- The four ranges, in the order in which they are mapped for a task. -/
def Layout.ranges (l : Layout) : List (Nat × Nat) := [l.utext, l.udata, l.ubss, l.urodata]

/-- Page number `v` is one of those that `setupvm` maps for the range. -/
def Covers (r : Nat × Nat) (v : Nat) : Prop :=
  r.1 / 4096 ≤ v ∧ v < r.1 / 4096 + (r.2 - r.1 + 4095) / 4096

/-- A byte of the section lies on physical page `p`: the kernel is loaded at
its addresses less `KERNBASE`. -/
def Placed.On (s : Placed) (p : Nat) : Prop :=
  0 < s.size ∧ s.start < 4096 * (p + 983041) ∧ 4096 * (p + 983040) < s.start + s.size

instance (s : Placed) (p : Nat) : Decidable (s.On p) := inferInstanceAs (Decidable (_ ∧ _ ∧ _))

/-- Physical page `p` holds sections, and those of the user objects only. -/
def Layout.OnlyUser (l : Layout) (p : Nat) : Prop :=
  (∃ s ∈ l.placed, s.On p) ∧ ∀ s ∈ l.placed, s.On p → s.owner = .user

instance (l : Layout) (p : Nat) : Decidable (l.OnlyUser p) := inferInstanceAs (Decidable (_ ∧ _))

/-- Physical page `p` is part of the linked kernel: of a section, or of
what is mapped for the user. -/
def Layout.Loaded (l : Layout) (p : Nat) : Prop :=
  (∃ s ∈ l.placed, s.On p) ∨ ∃ r ∈ l.ranges, Covers r (p + 983040)

/-- Each page that is mapped for the user holds a section of the user
objects, and no other section. -/
def Layout.Clean (l : Layout) : Prop :=
  ∀ r ∈ l.ranges, ∀ v, Covers r v → l.OnlyUser (v - 983040)

/-- The kernel uses the addresses that the linker has chosen. -/
structure Image.LinkedBy (L : Image) (l : Layout) : Prop where
  sections : L.sections = l.ranges.map fun r => (BitVec.ofNat 32 r.1, BitVec.ofNat 32 r.2)
  fits : l.endAddr + 4096 ≤ 2 ^ 32

theorem le_alignUp (k dot : Nat) : dot ≤ alignUp k dot := by
  have hpos : 0 < 2 ^ k := Nat.two_pow_pos k
  have hlt := Nat.lt_div_mul_add hpos (a := dot + (2 ^ k - 1))
  rw [alignUp]
  omega

theorem le_dotAfter (dot : Nat) (ss : List InSec) : dot ≤ dotAfter dot ss := by
  induction ss generalizing dot with
  | nil => exact le_rfl
  | cons s ss ih =>
    have h1 := le_alignUp s.p2align dot
    have h2 := ih (alignUp s.p2align dot + s.size)
    rw [dotAfter]
    omega

theorem le_outStart (dot : Nat) (ss : List InSec) : dot ≤ outStart dot ss := le_alignUp _ dot

/-- The ranges lie above `KERNBASE` and below `end`. -/
theorem link_ranges (o : Objects) {r : Nat × Nat} (hr : r ∈ (link o).ranges) :
    0xF0000000 ≤ r.1 ∧ r.1 ≤ r.2 ∧ r.2 ≤ (link o).endAddr := by
  simp only [Layout.ranges, link, List.mem_cons, List.not_mem_nil, or_false] at hr
  simp only [link]
  -- The location counter only grows.
  have h₀ : 0xF0100000 ≤ alignUp 12 kernelLoadAddr := le_alignUp 12 kernelLoadAddr
  generalize alignUp 12 kernelLoadAddr = utextStart at *
  have h₁ := le_outStart utextStart (o.utext ++ o.gcc ++ o.ktext)
  generalize outStart utextStart (o.utext ++ o.gcc ++ o.ktext) = text at *
  have h₂ := (le_dotAfter text o.utext).trans (le_dotAfter _ o.gcc)
  generalize dotAfter (dotAfter text o.utext) o.gcc = utextEnd at *
  have h₃ := (le_dotAfter utextEnd o.ktext).trans (le_alignUp 12 _)
  generalize alignUp 12 (dotAfter utextEnd o.ktext) = urodataStart at *
  have h₄ := ((le_outStart urodataStart (o.urodata ++ o.krodata)).trans
    (le_dotAfter _ o.urodata)).trans
    (le_dotAfter _ o.krodata)
  generalize dotAfter (dotAfter (outStart urodataStart (o.urodata ++ o.krodata)) o.urodata)
    o.krodata = urodataEnd at *
  have h₅ := (le_outStart urodataEnd o.stab).trans (le_dotAfter _ o.stab)
  generalize dotAfter (outStart urodataEnd o.stab) o.stab = stabEnd at *
  have h₆ := (le_outStart (stabEnd + 1) o.stabstr).trans (le_dotAfter _ o.stabstr)
  generalize dotAfter (outStart (stabEnd + 1) o.stabstr) o.stabstr = stabstrEnd at *
  have h₇ := (le_alignUp 12 (stabstrEnd + 1)).trans (le_outStart _ (o.udata ++ o.kdata))
  generalize outStart (alignUp 12 (stabstrEnd + 1)) (o.udata ++ o.kdata) = udataStart at *
  have h₈ := le_dotAfter udataStart o.udata
  generalize dotAfter udataStart o.udata = udataEnd at *
  have h₉ := (le_dotAfter udataEnd o.kdata).trans (le_outStart _ (o.ubss ++ o.kbss))
  generalize outStart (dotAfter udataEnd o.kdata) (o.ubss ++ o.kbss) = ubssStart at *
  have h₁₀ := (le_dotAfter ubssStart o.ubss).trans (le_dotAfter _ o.kbss)
  generalize dotAfter (dotAfter ubssStart o.ubss) o.kbss = ubssEnd at *
  rcases hr with rfl | rfl | rfl | rfl <;> dsimp only <;> omega

theorem places_bounds {owner : Owner} {dot : Nat} {ss : List InSec} {q : Placed}
    (hq : q ∈ places owner dot ss) : dot ≤ q.start ∧ q.start + q.size ≤ dotAfter dot ss := by
  induction ss generalizing dot with
  | nil => simp [places] at hq
  | cons s ss ih =>
    have h1 := le_alignUp s.p2align dot
    rw [dotAfter]
    rcases List.mem_cons.mp hq with rfl | hq
    · exact ⟨h1, le_dotAfter _ ss⟩
    · have := ih hq
      omega

theorem exists_places {owner : Owner} {ss : List InSec} {s : InSec} (hs : s ∈ ss) (dot : Nat) :
    ∃ q ∈ places owner dot ss, q.owner = owner ∧ q.size = s.size := by
  induction ss generalizing dot with
  | nil => simp at hs
  | cons s' ss ih =>
    rcases List.mem_cons.mp hs with rfl | hs
    · exact ⟨_, List.mem_cons_self, rfl, rfl⟩
    · obtain ⟨q, hq, h⟩ := ih hs (alignUp s'.p2align dot + s'.size)
      exact ⟨q, List.mem_cons_of_mem _ hq, h⟩

/-- A kernel with variables in `.bss` is not clean. -/
theorem Layout.Clean.kbss_empty {o : Objects} (h : (link o).Clean)
    (hal : (link o).ubss.1 % 4096 = 0) {s : InSec} (hs : s ∈ o.kbss) : s.size = 0 := by
  by_contra hne
  obtain ⟨q, hq, hown, hsize⟩ := @exists_places .kernel _ _ hs (dotAfter (link o).ubss.1 o.ubss)
  have hmem : q ∈ (link o).placed := List.mem_append_right _ hq
  have hlow := le_dotAfter (link o).ubss.1 o.ubss
  obtain ⟨h1, h2⟩ := places_bounds hq
  have hend : dotAfter (dotAfter (link o).ubss.1 o.ubss) o.kbss = (link o).ubss.2 := rfl
  obtain ⟨hbase, _, _⟩ := link_ranges o (r := (link o).ubss) (by simp [Layout.ranges])
  have hcov : Covers (link o).ubss (q.start / 4096) := by
    constructor <;> omega
  have huser := (h _ (by simp [Layout.ranges]) _ hcov).2 q hmem ⟨by omega, by omega, by omega⟩
  rw [hown] at huser
  exact Owner.noConfusion huser

end NctuCourses.Osdi
