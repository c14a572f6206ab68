import NctuCourses.Osdi.Task.Fork

namespace NctuCourses.Osdi

/-- What is in memory when `mp_init` looks for the tables of the BIOS, by virtual address. -/
abbrev Bytes := Word → BitVec 8

namespace Bytes

def read16 (b : Bytes) (a : Word) : BitVec 16 := b (a + 1) ++ b a

def read32 (b : Bytes) (a : Word) : Word := b (a + 3) ++ b (a + 2) ++ b (a + 1) ++ b a

/-- `memcmp` with a text of the same length gives 0. -/
def same (b : Bytes) (a : Word) (text : List (BitVec 8)) : Bool :=
  (List.range text.length).map (fun i => b (a + BitVec.ofNat 32 i)) == text

def sum (b : Bytes) (a : Word) (len : Nat) : BitVec 8 :=
  (List.range len).foldl (fun s i => s + b (a + BitVec.ofNat 32 i)) 0

end Bytes

/-- The loop of `mpsearch1`. -/
def mpsearchFrom (b : Bytes) : Nat → Word → Word → Option Word
  | 0, _, _ => none
  | n + 1, mp, last =>
    if mp < last then
      -- "_MP_"
      if b.same mp [0x5F, 0x4D, 0x50, 0x5F] && b.sum mp 16 == 0 then some mp
      else mpsearchFrom b n (mp + 16) last
    else none

/-- The outer `none` is a panic of `KADDR`. -/
def mpsearch1 (npages : Nat) (b : Bytes) (a : Word) (len : Nat) : Option (Option Word) := do
  let mp ← kaddr npages a
  let last ← kaddr npages (a + BitVec.ofNat 32 len)
  some (mpsearchFrom b (len / 16 + 1) mp last)

def mpsearch (npages : Nat) (b : Bytes) : Option (Option Word) := do
  let bda ← kaddr npages 0x400#32
  let p := (b.read16 (bda + 0x0E)).setWidth 32
  let mp ←
    if p ≠ 0 then mpsearch1 npages b (p <<< 4) 1024
    else mpsearch1 npages b ((b.read16 (bda + 0x13)).setWidth 32 * 1024 - 1024) 1024
  match mp with
  | some mp => some (some mp)
  | none => mpsearch1 npages b 0xF0000#32 0x10000

/-- The configuration table, if there is one and it is accepted. -/
def mpconfig (npages : Nat) (b : Bytes) : Option (Option Word) := do
  match ← mpsearch npages b with
  | none => some none
  | some mp =>
    let physaddr := b.read32 (mp + 4)
    if physaddr = 0 ∨ b (mp + 11) ≠ 0 then some none
    else
      let conf ← kaddr npages physaddr
      let length := (b.read16 (conf + 4)).toNat
      let version := b (conf + 6)
      -- "PCMP"
      if !b.same conf [0x50, 0x43, 0x4D, 0x50] then some none
      else if b.sum conf length ≠ 0 then some none
      else if version ≠ 1 ∧ version ≠ 4 then some none
      else if b.sum (conf + BitVec.ofNat 32 length) (b.read16 (conf + 40)).toNat ≠ b (conf + 42)
        then some none
      else some (some conf)

inductive CpuStatus where
  | unused
  | started
  | halted
  deriving DecidableEq

/-- What `mp_init` sets. A pointer to a CPU is its index in `cpus`; of a CPU only
the first two fields are here. -/
structure CpuSet where
  cpuId : Nat → BitVec 8
  cpuStatus : Nat → CpuStatus
  bootcpu : Nat
  ismp : Bool
  ncpu : Nat
  lapicaddr : Word

/-- Static storage, after the first assignment of `mp_init`. -/
def CpuSet.zero : CpuSet := ⟨fun _ => 0, fun _ => .unused, 0, false, 0, 0⟩

/-- A processor entry of the table; `boot` is its flag `MPPROC_BOOT`. -/
def CpuSet.processor (s : CpuSet) (boot : Bool) : CpuSet :=
  let s := if boot then { s with bootcpu := s.ncpu } else s
  if s.ncpu < maxCpu then
    { s with cpuId := Function.update s.cpuId s.ncpu (BitVec.ofNat 8 s.ncpu), ncpu := s.ncpu + 1 }
  else s

/-- The loop of `mp_init` with `n` entries to go, the next one at `p`. An entry
of an unknown type ends it. -/
def mpEntries (b : Bytes) : Nat → Word → CpuSet → CpuSet
  | 0, _, s => s
  | n + 1, p, s =>
    if b p = 0 then mpEntries b n (p + 20) (s.processor (b (p + 3) &&& 0x02 ≠ 0))
    else if b p = 1 ∨ b p = 2 ∨ b p = 3 ∨ b p = 4 then mpEntries b n (p + 8) s
    else { s with ismp := false }

/-- What `mp_init` does after its loop. `none` is the status written outside `cpus`. -/
def CpuSet.finish (s : CpuSet) : Option CpuSet :=
  if maxCpu ≤ s.bootcpu then none
  else
    let s := { s with cpuStatus := Function.update s.cpuStatus s.bootcpu .started }
    if !s.ismp then some { s with ncpu := 1, lapicaddr := 0 } else some s

def mpInit (npages : Nat) (b : Bytes) : Option CpuSet := do
  match ← mpconfig npages b with
  | none => some CpuSet.zero
  | some conf =>
    let s := { CpuSet.zero with ismp := true, lapicaddr := b.read32 (conf + 36) }
    (mpEntries b (b.read16 (conf + 34)).toNat (conf + 44) s).finish

/-- `nextCPU` after `n` tasks have been forked; `none` is a division by zero. -/
def nextCpuAfter (ncpu : Nat) : Nat → Option Nat
  | 0 => some 0
  | n + 1 => (nextCpuAfter ncpu n).bind fun next => if ncpu = 0 then none
      else some ((next + 1) % ncpu)

/-- What the rest of the kernel needs from `mp_init`. -/
structure CpuSet.Usable (s : CpuSet) : Prop where
  ncpu_pos : 1 ≤ s.ncpu
  ncpu_le : s.ncpu ≤ maxCpu
  cpuId_eq : ∀ k < s.ncpu, s.cpuId k = BitVec.ofNat 8 k
  bootcpu_lt : s.bootcpu < s.ncpu
  started : s.cpuStatus s.bootcpu = .started
  dispatch : ∀ n, ∃ next, nextCpuAfter s.ncpu n = some next ∧ next < s.ncpu

theorem nextCpuAfter_lt {ncpu : Nat} (h : 1 ≤ ncpu) (n : Nat) :
    ∃ next, nextCpuAfter ncpu n = some next ∧ next < ncpu := by
  induction n with
  | zero => exact ⟨0, rfl, h⟩
  | succ n ih =>
    obtain ⟨next, hnext, _⟩ := ih
    refine ⟨(next + 1) % ncpu, ?_, Nat.mod_lt _ h⟩
    rw [nextCpuAfter, hnext, Option.bind_some, if_neg (by omega)]

/-- `sys_fork` goes on to the next CPU as counted here. -/
theorem sysFork_nextCpu {L : Image} {c t n : Nat} {K K' : Kernel} {r : Int}
    (ht : (K.cpus c).cpuTask = some t) (h : sysFork L c K = some (r, K')) (hr : r ≠ -1)
    (hncpu : K.ncpu ≠ 0) (hnext : nextCpuAfter K.ncpu n = some K.nextCpu) :
    K'.ncpu = K.ncpu ∧ nextCpuAfter K'.ncpu (n + 1) = some K'.nextCpu := by
  cases sysFork_inv ht h with
  | inl hfail => exact absurd hfail.1 hr
  | inr hdone =>
    obtain ⟨p, pgdir, s, m₁, m₂, m₃, _, _, _, _, _, _, _, _, rfl⟩ := hdone
    refine ⟨rfl, ?_⟩
    change nextCpuAfter K.ncpu (n + 1) = some ((K.nextCpu + 1) % K.ncpu)
    rw [nextCpuAfter, hnext, Option.bind_some, if_neg hncpu]

/-- An entry of the table, as far as it matters. -/
inductive MpEntry where
  | proc (boot : Bool)
  | other
  | unknown
  deriving DecidableEq

namespace MpEntry

/-- The entries that the table has, up to the first one of an unknown type. -/
def ofBytes (b : Bytes) : Nat → Word → List MpEntry
  | 0, _ => []
  | n + 1, p =>
    if b p = 0 then .proc (b (p + 3) &&& 0x02 ≠ 0) :: ofBytes b n (p + 20)
    else if b p = 1 ∨ b p = 2 ∨ b p = 3 ∨ b p = 4 then .other :: ofBytes b n (p + 8)
    else [.unknown]

/-- The boot flags of the processors. -/
def boots (es : List MpEntry) : List Bool :=
  es.filterMap fun
    | .proc boot => some boot
    | _ => none

/-- With only known types: there is a processor, and none after the first `NCPU` has the boot flag.
With an unknown one, where the processors are given up: none but the first has it. -/
def Sound (es : List MpEntry) : Prop :=
  if .unknown ∈ es then ∀ i, 1 ≤ i → (boots es)[i]? ≠ some true
  else boots es ≠ [] ∧ ∀ i, maxCpu ≤ i → (boots es)[i]? ≠ some true

/-- What an entry does to the CPUs. -/
def apply (s : CpuSet) : MpEntry → CpuSet
  | .proc boot => s.processor boot
  | .other => s
  | .unknown => { s with ismp := false }

end MpEntry

/-- The table that starts at `conf`. -/
def mpTable (b : Bytes) (conf : Word) : List MpEntry :=
  MpEntry.ofBytes b (b.read16 (conf + 34)).toNat (conf + 44)

theorem mpEntries_eq (b : Bytes) (n : Nat) (p : Word) (s : CpuSet) :
    mpEntries b n p s = (MpEntry.ofBytes b n p).foldl MpEntry.apply s := by
  induction n generalizing p s with
  | zero => rfl
  | succ n ih =>
    rw [mpEntries, MpEntry.ofBytes]
    split
    · rw [ih, List.foldl_cons, MpEntry.apply]
    · split
      · rw [ih, List.foldl_cons, MpEntry.apply]
      · rfl

section Processor

variable (s : CpuSet) (boot : Bool)

theorem processor_ncpu :
    (s.processor boot).ncpu = if s.ncpu < maxCpu then s.ncpu + 1 else s.ncpu := by
  cases boot <;> simp only [CpuSet.processor] <;> split_ifs <;> rfl

theorem processor_cpuId (k : Nat) : (s.processor boot).cpuId k =
    if k = s.ncpu ∧ s.ncpu < maxCpu then BitVec.ofNat 8 k else s.cpuId k := by
  by_cases hn : s.ncpu < maxCpu
  · by_cases hk : k = s.ncpu
    · cases boot <;> simp [CpuSet.processor, hn, hk]
    · cases boot <;> simp [CpuSet.processor, hn, hk]
  · cases boot <;> simp [CpuSet.processor, hn]

theorem processor_bootcpu : (s.processor boot).bootcpu = if boot then s.ncpu else s.bootcpu := by
  cases boot <;> simp only [CpuSet.processor] <;> split_ifs <;> rfl

theorem processor_ismp : (s.processor boot).ismp = s.ismp := by
  cases boot <;> simp only [CpuSet.processor] <;> split_ifs <;> rfl

end Processor

/-- The CPUs after the entries `es`. -/
structure Counted (es : List MpEntry) (s : CpuSet) : Prop where
  ncpu : s.ncpu = min (MpEntry.boots es).length maxCpu
  cpuId : ∀ k, s.cpuId k = if k < s.ncpu then BitVec.ofNat 8 k else 0
  bootcpu : ∀ m, 1 ≤ m → m ≤ maxCpu →
    (s.bootcpu < m ↔ ∀ i, m ≤ i → (MpEntry.boots es)[i]? ≠ some true)
  ismp : s.ismp = true ↔ .unknown ∉ es

namespace Counted

variable {es : List MpEntry} {s : CpuSet}

theorem zero (lapicaddr : Word) :
    Counted [] { CpuSet.zero with ismp := true, lapicaddr := lapicaddr } where
  ncpu := rfl
  cpuId := fun _ => rfl
  bootcpu := by
    intro m hm _
    simp only [CpuSet.zero, MpEntry.boots]
    exact ⟨fun _ i _ => by simp, fun _ => hm⟩
  ismp := by simp

theorem boots_append (es : List MpEntry) (e : MpEntry) :
    MpEntry.boots (es ++ [e]) = MpEntry.boots es ++ MpEntry.boots [e] :=
  List.filterMap_append

theorem apply_proc (h : Counted es s) (boot : Bool) :
    Counted (es ++ [.proc boot]) (s.processor boot) := by
  have hboots : MpEntry.boots (es ++ [.proc boot]) = MpEntry.boots es ++ [boot] := boots_append es _
  have hn := h.ncpu
  constructor
  · rw [processor_ncpu, hboots, List.length_append, List.length_singleton]
    split <;> omega
  · intro k
    rw [processor_cpuId, processor_ncpu, h.cpuId]
    split_ifs <;> first | rfl | omega
  · intro m h1 hm
    rw [processor_bootcpu, hboots]
    cases boot with
    | true =>
      -- The new processor has index `length`, and `bootcpu` stays within the array and one past it.
      have hlt : s.ncpu < m ↔ (MpEntry.boots es).length < m := by omega
      simp only [if_true, hlt]
      constructor
      · intro hlen i hi
        rw [List.getElem?_eq_none (by simp; omega)]
        simp
      · intro hall
        by_contra hge
        exact hall (MpEntry.boots es).length (by omega) (by simp)
    | false =>
      rw [if_neg (by decide), h.bootcpu m h1 hm]
      refine forall_congr' fun i => imp_congr_right fun _ => ?_
      rw [List.getElem?_append]
      split
      · rfl
      · rw [List.getElem?_eq_none (by omega), List.getElem?_singleton]
        split <;> simp
  · rw [processor_ismp, h.ismp]
    simp

theorem apply (h : Counted es s) (e : MpEntry) : Counted (es ++ [e]) (MpEntry.apply s e) := by
  cases e with
  | proc boot => exact h.apply_proc boot
  | other =>
    have hboots : MpEntry.boots (es ++ [.other]) = MpEntry.boots es := by simp [MpEntry.boots]
    exact ⟨by rw [hboots]; exact h.ncpu, h.cpuId, by rw [hboots]; exact h.bootcpu,
      by simpa [MpEntry.apply] using h.ismp⟩
  | unknown =>
    have hboots : MpEntry.boots (es ++ [.unknown]) = MpEntry.boots es := by simp [MpEntry.boots]
    exact ⟨by rw [hboots]; exact h.ncpu, h.cpuId, by rw [hboots]; exact h.bootcpu,
      by simp [MpEntry.apply]⟩

theorem foldl (h : Counted es s) (l : List MpEntry) :
    Counted (es ++ l) (l.foldl MpEntry.apply s) := by
  induction l generalizing es s with
  | nil => simpa using h
  | cons e l ih =>
    rw [List.foldl_cons, List.append_cons]
    exact ih (h.apply e)

end Counted

theorem finish_eq (s : CpuSet) : s.finish =
    if maxCpu ≤ s.bootcpu then none
    else some { s with
      cpuStatus := Function.update s.cpuStatus s.bootcpu .started
      ncpu := if s.ismp then s.ncpu else 1
      lapicaddr := if s.ismp then s.lapicaddr else 0 } := by
  rw [CpuSet.finish]
  cases s.ismp <;> rfl

/-- With `n` CPUs counted in the end, all depends on `bootcpu`. -/
theorem finish_usable {s : CpuSet} {n : Nat} (hn : (if s.ismp then s.ncpu else 1) = n)
    (hle : n ≤ maxCpu) (hid : ∀ k < n, s.cpuId k = BitVec.ofNat 8 k) :
    (∃ s', s.finish = some s' ∧ s'.Usable) ↔ s.bootcpu < n := by
  rw [finish_eq, hn]
  constructor
  · intro h
    obtain ⟨s', hs', hus⟩ := h
    by_cases hout : maxCpu ≤ s.bootcpu
    · rw [if_pos hout] at hs'
      cases hs'
    · rw [if_neg hout] at hs'
      obtain rfl := Option.some.inj hs'
      exact hus.bootcpu_lt
  · intro hlt
    have hpos : 1 ≤ n := by omega
    rw [if_neg (by omega)]
    exact ⟨_, rfl, hpos, hle, hid, hlt, Function.update_self .., nextCpuAfter_lt hpos⟩

theorem Counted.finish {es : List MpEntry} {s : CpuSet} (h : Counted es s) :
    (∃ s', s.finish = some s' ∧ s'.Usable) ↔ MpEntry.Sound es := by
  have hn := h.ncpu
  have hismp := h.ismp
  rw [MpEntry.Sound]
  by_cases hunknown : .unknown ∈ es
  · have hn1 : (if s.ismp then s.ncpu else 1) = 1 := if_neg fun hs => hismp.mp hs hunknown
    rw [if_pos hunknown, finish_usable hn1 (by decide), h.bootcpu 1 le_rfl (by decide)]
    intro k hk
    obtain rfl : k = 0 := by omega
    rw [h.cpuId]
    split <;> rfl
  · have hall : (if s.ismp then s.ncpu else 1) = s.ncpu := if_pos (hismp.mpr hunknown)
    rw [if_neg hunknown, finish_usable hall (by omega) fun k hk => by rw [h.cpuId, if_pos hk],
      ← h.bootcpu maxCpu (by decide) le_rfl, ← List.length_pos_iff]
    constructor
    · intro hlt
      omega
    · intro hlt
      obtain ⟨hpos, hlt⟩ := hlt
      by_cases hlen : (MpEntry.boots es).length ≤ maxCpu
      · -- No flag comes after the last processor.
        rw [hn, Nat.min_eq_left hlen, h.bootcpu _ hpos hlen]
        intro i hi
        rw [List.getElem?_eq_none hi]
        simp
      · omega

theorem counted_table (b : Bytes) (conf : Word) :
    Counted (mpTable b conf) (mpEntries b (b.read16 (conf + 34)).toNat (conf + 44)
      { CpuSet.zero with ismp := true, lapicaddr := b.read32 (conf + 36) }) := by
  rw [mpEntries_eq]
  exact (Counted.zero (b.read32 (conf + 36))).foldl (mpTable b conf)

theorem mpInit_table {npages : Nat} {b : Bytes} {conf : Word}
    (h : mpconfig npages b = some (some conf)) :
    mpInit npages b = (mpEntries b (b.read16 (conf + 34)).toNat (conf + 44)
      { CpuSet.zero with ismp := true, lapicaddr := b.read32 (conf + 36) }).finish := by
  rw [mpInit, h]
  rfl

/-- CPU discovery leaves a usable set of CPUs if there is a table that is accepted and its entries
are sound, and only then. -/
theorem mpInit_usable (npages : Nat) (b : Bytes) :
    (∃ s, mpInit npages b = some s ∧ s.Usable) ↔
      ∃ conf, mpconfig npages b = some (some conf) ∧ MpEntry.Sound (mpTable b conf) := by
  constructor
  · intro hs
    obtain ⟨s, hinit, hus⟩ := hs
    cases hc : mpconfig npages b with
    | none => simp [mpInit, hc] at hinit
    | some r =>
      cases r with
      | none =>
        simp only [mpInit, hc, Option.bind_eq_bind, Option.bind_some, Option.some.injEq] at hinit
        rw [← hinit] at hus
        exact absurd hus.ncpu_pos (by decide)
      | some conf =>
        rw [mpInit_table hc] at hinit
        exact ⟨conf, rfl, (counted_table b conf).finish.mp ⟨s, hinit, hus⟩⟩
  · intro h
    obtain ⟨conf, hc, hsound⟩ := h
    rw [mpInit_table hc]
    exact (counted_table b conf).finish.mpr hsound

theorem mpsearchFrom_eq_none {b : Bytes} (h : ∀ a, b a ≠ 0x5F) (n : Nat) (mp last : Word) :
    mpsearchFrom b n mp last = none := by
  induction n generalizing mp with
  | zero => rfl
  | succ n ih =>
    have hsame : b.same mp [0x5F, 0x4D, 0x50, 0x5F] = false := by
      have := h (mp + 0#32)
      simp only [Bytes.same, beq_eq_false_iff_ne]
      intro he
      exact this (List.cons.inj he).1
    rw [mpsearchFrom, hsame, Bool.false_and, ih]
    simp

/-- A machine with 640 KB of base memory and no tables. -/
def plainMachine : Bytes :=
  fun a => if a = 0xF0000413#32 then 0x80 else if a = 0xF0000414#32 then 0x02 else 0

/-- There is no CPU, and the first fork divides by zero. -/
theorem mpInit_plainMachine :
    mpInit 1024 plainMachine = some CpuSet.zero ∧ CpuSet.zero.ncpu = 0 ∧
      CpuSet.zero.cpuStatus CpuSet.zero.bootcpu = .unused ∧
      nextCpuAfter CpuSet.zero.ncpu 1 = none := by
  have hnone : ∀ n mp last, mpsearchFrom plainMachine n mp last = none := by
    apply mpsearchFrom_eq_none
    intro a
    rw [plainMachine]
    split_ifs <;> decide
  have hscan : ∀ a len mp last, kaddr 1024 a = some mp →
      kaddr 1024 (a + BitVec.ofNat 32 len) = some last →
      mpsearch1 1024 plainMachine a len = some none := by
    intro a len mp last hmp hlast
    simp only [mpsearch1, hmp, hlast, Option.bind_eq_bind, Option.bind_some, hnone]
  have hbda : kaddr 1024 0x400#32 = some 0xF0000400#32 := by decide
  have hebda : (plainMachine.read16 (0xF0000400#32 + 0x0E)).setWidth 32 = 0#32 := by decide
  have hbase : (plainMachine.read16 (0xF0000400#32 + 0x13)).setWidth 32 = 640#32 := by decide
  have hlow : mpsearch1 1024 plainMachine (640#32 * 1024 - 1024) 1024 = some none :=
    hscan _ _ 0xF009FC00#32 0xF00A0000#32 (by decide) (by decide)
  have hrom : mpsearch1 1024 plainMachine 0xF0000#32 0x10000 = some none :=
    hscan _ _ 0xF00F0000#32 0xF0100000#32 (by decide) (by decide)
  have hsearch : mpsearch 1024 plainMachine = some none := by
    simp only [mpsearch, hbda, Option.bind_eq_bind, Option.bind_some, hebda, hbase, hlow, hrom]
    rfl
  refine ⟨?_, rfl, rfl, rfl⟩
  rw [mpInit, mpconfig, hsearch]
  rfl

end NctuCourses.Osdi
