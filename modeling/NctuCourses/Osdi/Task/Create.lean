import NctuCourses.Osdi.Task.Steady

namespace NctuCourses.Osdi

open Lib

/-- A free slot, and the free pages that a new task takes. -/
def Room (L : Image) (K : Kernel) : Prop :=
  (∃ pid < nrTasks, (K.tasks pid).state = .free) ∧ EnoughPages L K

inductive KernelOp where
  | init (c : Nat)
  | trap (e : Nat × Trapframe × Call)

/-- The steps of the kernel that return: the start of a CPU, and traps
of which the forks find room. -/
inductive KernelStep (L : Image) : Kernel → KernelOp → Kernel → Prop
  | init {K K' : Kernel} {c : Nat} :
      c < K.ncpu → taskInitPercpu L c K = some K' → KernelStep L K (.init c) K'
  | trap {K K' : Kernel} {e : Nat × Trapframe × Call} :
      TrapStep L K e K' → (e.2.2 = .fork → Room L K) → KernelStep L K (.trap e) K'

theorem Room.find {L : Image} {K : Kernel} (h : Room L K) :
    ∃ pid, (List.range nrTasks).find? (fun pid => (K.tasks pid).state == .free) = some pid := by
  obtain ⟨⟨pid, hp, hfree⟩, _⟩ := h
  refine Option.isSome_iff_exists.mp (List.find?_isSome.mpr ⟨pid, List.mem_range.mpr hp, ?_⟩)
  simp [hfree]

namespace Steady

variable {L : Image} {rsv : Nat → Prop} {I : Set Nat} {K K' : Kernel} {fl : List Nat}

theorem start {s : Mem} {ncpu : Nat} (h : Sound L rsv I (taskInit s ncpu) fl) :
    Steady L rsv I ∅ (taskInit s ncpu) fl :=
  ⟨h, fun _ ht => absurd rfl ht, fun _ ht => absurd rfl ht,
    fun c _ t ht => by simp [taskInit] at ht, fun c _ c' _ t ht => by simp [taskInit] at ht⟩

theorem fork (h : Steady L rsv I ∅ K fl) (hsec : L.Bounded) {c t : Nat} {r : Int}
    (hc : (K.cpus c).cpuTask = some t) (hroom : Room L K) (hf : sysFork L c K = some (r, K')) :
    ∃ fl', Steady L rsv I ∅ K' fl' := by
  rcases sysFork_inv hc hf with
    ⟨_, hno⟩ | ⟨p, pgdir, s, m₁, m₂, m₃, _, hp, hfree, hkvm, hstack, hcopy, hvm, _, rfl⟩
  · obtain ⟨pid, hfind⟩ := hroom.find
    obtain ⟨_, _, _, _, _, _, _, hyes⟩ := h.create c hfind hroom.2
    have he := (Prod.mk.inj (Option.some.inj (hno.symm.trans hyes))).1
    omega
  · have ht := h.cur_live (by simp) hc
    obtain ⟨fl', h1, _⟩ := h.forkedSpace ht hp hfree hkvm hstack hcopy hvm hsec
    exact ⟨fl', h.forked hp hfree (Sound.forked h1)⟩

theorem trap (h : Steady L rsv I ∅ K fl) (hsec : L.Bounded) {c : Nat} {tf : Trapframe} {call : Call}
    (hroom : call = .fork → Room L K) (ht : K.trap L c tf call = some K') :
    ∃ fl', Steady L rsv I ∅ K' fl' := by
  simp only [Kernel.trap, saveFrame, Option.bind_eq_bind, Option.bind_eq_some_iff,
    Option.map_eq_some_iff] at ht
  obtain ⟨_, ⟨t, hc, rfl⟩, ht⟩ := ht
  have h1 := h.setTf t tf
  have hc₁ : ((K.setTf t tf).cpus c).cpuTask = some t := hc
  cases call with
  | fork =>
    obtain ⟨⟨r, K₂⟩, hf, he⟩ := Option.bind_eq_some_iff.mp ht
    cases he
    have hroom₁ : Room L (K.setTf t tf) := by
      obtain ⟨⟨pid, hp, hfree⟩, hpages⟩ := hroom rfl
      refine ⟨⟨pid, hp, ?_⟩, hpages⟩
      by_cases hpt : pid = t
      · simpa [Kernel.setTf, hpt] using hpt ▸ hfree
      · simpa [Kernel.setTf, hpt] using hfree
    obtain ⟨fl', h2⟩ := h1.fork hsec hc₁ hroom₁ hf
    exact ⟨fl', h2.setTf t _⟩
  | kill =>
    obtain ⟨K₂, hk, he⟩ := Option.bind_eq_some_iff.mp ht
    cases he
    obtain ⟨fl', h2⟩ := h1.kill hc₁ hk
    split_ifs
    · exact ⟨fl', h2⟩
    · exact ⟨fl', h2.setTf t _⟩
  | sleep a1 => exact ⟨fl, h1.sleep hc₁ ht⟩
  | timer => exact ⟨fl, h1.timer hc₁ ht⟩

theorem step (h : Steady L rsv I ∅ K fl) (hsec : L.Bounded) {op : KernelOp}
    (hs : KernelStep L K op K') : ∃ fl', Steady L rsv I ∅ K' fl' := by
  cases hs with
  | init _ hi =>
    obtain ⟨p, pgdir, s, m₁, m₃, hp, hfree, hkvm, hstack, hvm, rfl⟩ := taskInitPercpu_inv hi
    obtain ⟨fl', h1, _⟩ := h.initedSpace hp hfree hkvm hstack hvm hsec _
    exact ⟨fl', h.inited hp hfree h1⟩
  | trap ht hroom => exact h.trap hsec hroom ht.2

theorem run (h : Steady L rsv I ∅ K fl) (hsec : L.Bounded) {ops : List KernelOp}
    (hr : Reach (KernelStep L) K ops K') : ∃ fl', Steady L rsv I ∅ K' fl' := by
  induction hr with
  | init => exact ⟨fl, h⟩
  | snoc _ hs ih =>
    obtain ⟨fl₁, h1⟩ := ih
    exact h1.step hsec hs

end Steady

theorem kstack_tables : ∀ i ∈ List.range maxCpu, pageTables
    (kstacktop - BitVec.ofNat 32 i * (kstksize + kstkgap) - kstksize)
    ((roundup kstksize pgsize).toNat / 4096) = {959} := by
  have hn : (roundup kstksize pgsize).toNat / 4096 = 8 := by decide
  have hpg : ∀ i ∈ List.range maxCpu, 982016 ≤ pgnum
      (kstacktop - BitVec.ofNat 32 i * (kstksize + kstkgap) - kstksize) ∧ pgnum
      (kstacktop - BitVec.ofNat 32 i * (kstksize + kstkgap) - kstksize) ≤ 983032 := by decide
  intro i hi
  obtain ⟨h1, h2⟩ := hpg i hi
  rw [hn, pageTables_eq_Icc (by omega) (by omega)]
  have ha : pgnum (kstacktop - BitVec.ofNat 32 i * (kstksize + kstkgap) - kstksize) /
      1024 = 959 := by
    omega
  have hb : (pgnum (kstacktop - BitVec.ofNat 32 i * (kstksize + kstkgap) - kstksize) + 8 - 1) /
      1024 = 959 := by
    omega
  rw [ha, hb, Finset.Icc_self]

theorem upages_tables {n : Nat} (h0 : 0 < n) (hn : n ≤ 65536) :
    pageTables upages ((roundup (sizeofPageInfo * BitVec.ofNat 32 n) pgsize).toNat / 4096) =
      {956} := by
  have hsz : (sizeofPageInfo * BitVec.ofNat 32 n).toNat = 8 * n := by
    rw [BitVec.toNat_mul, BitVec.toNat_ofNat, show sizeofPageInfo.toNat = 8 from rfl]
    omega
  have hpg : pgnum upages = 978944 := by decide
  have hlen : 0 < (8 * n + 4095) / 4096 * 4096 / 4096 ∧
      (8 * n + 4095) / 4096 * 4096 / 4096 ≤ 128 := by
    omega
  rw [roundup_toNat (by omega), hsz, pageTables_eq_Icc hlen.1 (by omega), hpg]
  have hb : (978944 + (8 * n + 4095) / 4096 * 4096 / 4096 - 1) / 1024 = 956 := by omega
  rw [hb, show 978944 / 1024 = 956 from rfl, Finset.Icc_self]

theorem bootstack_tables : pageTables (kstacktop - kstksize) (kstksize.toNat / 4096) = {959} := by
  decide

theorem kernbase_tables :
    pageTables kernbase ((roundup (0xffffffff#32 - kernbase) pgsize).toNat / 4096) =
      Finset.Icc 960 1023 := by
  have hsz : (roundup (0xffffffff#32 - kernbase) pgsize).toNat / 4096 = 65536 := by decide
  have hpg : pgnum kernbase = 983040 := by decide
  rw [hsz, pageTables_eq_Icc (by omega) (by omega), hpg]

theorem iophysmem_tables :
    pageTables iophysmem ((roundup (extphysmem - iophysmem) pgsize).toNat / 4096) = {0} := by
  have hsz : (roundup (extphysmem - iophysmem) pgsize).toNat / 4096 = 96 := by decide
  have hpg : pgnum iophysmem = 160 := by decide
  rw [hsz, pageTables_eq_Icc (by omega) (by omega), hpg]
  rfl

/-- The page tables of `UPAGES`, of the kernel stacks, from `KERNBASE` on and of the I/O hole. -/
theorem kernel_tables {n : Nat} (h0 : 0 < n) (hn : n ≤ 65536) {ks : List Region}
    (hstacks : ∀ r ∈ ks, pageTables r.va (r.size.toNat / 4096) = {959}) {size : Word}
    (hsize : size = kstksize) {pa₁ pa₂ pa₃ pa₄ perm₁ perm₂ perm₃ perm₄ : Word} (i : Nat) :
    i ∈ regionsTables ([⟨upages, roundup (sizeofPageInfo * BitVec.ofNat 32 n) pgsize, pa₁, perm₁⟩,
        ⟨kstacktop - kstksize, size, pa₂, perm₂⟩,
        ⟨kernbase, roundup (0xffffffff#32 - kernbase) pgsize, pa₃, perm₃⟩,
        ⟨iophysmem, roundup (extphysmem - iophysmem) pgsize, pa₄, perm₄⟩] ++ ks) ↔
      i = 956 ∨ 959 ≤ i ∧ i < 1024 ∨ i = 0 := by
  subst hsize
  rw [mem_regionsTables]
  simp only [List.mem_append, List.mem_cons, List.not_mem_nil, or_false]
  constructor
  · intro h
    obtain ⟨r, hr, hi⟩ := h
    rcases hr with (rfl | rfl | rfl | rfl) | hr
    · rw [upages_tables h0 hn, Finset.mem_singleton] at hi
      exact .inl hi
    · rw [bootstack_tables, Finset.mem_singleton] at hi
      omega
    · rw [kernbase_tables, Finset.mem_Icc] at hi
      omega
    · rw [iophysmem_tables, Finset.mem_singleton] at hi
      omega
    · rw [hstacks r hr, Finset.mem_singleton] at hi
      omega
  · intro h
    rcases h with rfl | hi | rfl
    · exact ⟨_, .inl (.inl rfl), by rw [upages_tables h0 hn, Finset.mem_singleton]⟩
    · by_cases h959 : i = 959
      · exact ⟨_, .inl (.inr (.inl rfl)), by rw [bootstack_tables, Finset.mem_singleton, h959]⟩
      · exact ⟨_, .inl (.inr (.inr (.inl rfl))), by rw [kernbase_tables, Finset.mem_Icc]; omega⟩
    · exact ⟨_, .inl (.inr (.inr (.inr rfl))), by rw [iophysmem_tables, Finset.mem_singleton]⟩

/-- The page tables of `setupkvm`: the kernel's, and that of the local APIC. -/
theorem kvmRegions_tables {L : Image} {n : Nat} {rs : List Region} (h0 : 0 < n) (hn : n ≤ 65536)
    (hrs : kvmRegions L n = some rs) (i : Nat) :
    i ∈ regionsTables rs ↔ i = 956 ∨ 959 ≤ i ∧ i < 1024 ∨ i = 0 ∨ i = pdx L.lapic := by
  simp only [kvmRegions, Option.bind_eq_bind, Option.bind_eq_some_iff] at hrs
  obtain ⟨pagesPa, _, bootPa, _, ks, hks, hrs⟩ := hrs
  obtain rfl := Option.some.inj hrs
  have hlapic : pageTables L.lapic (pgsize.toNat / 4096) = {pdx L.lapic} := by
    have hlt := pgnum_lt L.lapic
    rw [show pgsize.toNat / 4096 = 1 from rfl, pageTables_eq_Icc (by omega) (by omega)]
    rw [show pgnum L.lapic + 1 - 1 = pgnum L.lapic from rfl, pgnum_div, Finset.Icc_self]
  have hstacks : ∀ r ∈ ks, pageTables r.va (r.size.toNat / 4096) = {959} := by
    intro r hr
    obtain ⟨j, hj, he⟩ := exists_of_mem_mapM hks hr
    simp only [Option.bind_eq_some_iff] at he
    obtain ⟨pa, _, he⟩ := he
    obtain rfl := Option.some.inj he
    exact kstack_tables j hj
  have hlast : i ∈ regionsTables [⟨L.lapic, pgsize, L.lapicaddr, ptePcd ||| ptePwt ||| pteW⟩] ↔
      i = pdx L.lapic := by
    rw [mem_regionsTables]
    simp [hlapic]
  rw [mem_regionsTables_append, kernel_tables h0 hn hstacks rfl, hlast, or_assoc, or_assoc]

theorem pagesNeeded_eq {L : Image} {n : Nat} {rs : List Region} (h0 : 0 < n) (hn : n ≤ 65536)
    (hL : L.lapic = 0#32 ∨ mmiobase ≤ L.lapic ∧ L.lapic < mmiolim)
    (hrs : kvmRegions L n = some rs) :
    pagesNeeded rs = if L.lapic = 0#32 then 79 else 80 := by
  have hmem := kvmRegions_tables h0 hn hrs
  by_cases hz : L.lapic = 0#32
  · have hset : insert 954 (regionsTables rs) = {0, 954, 956} ∪ Finset.Icc 959 1023 := by
      have hp : pdx L.lapic = 0 := by rw [hz]; decide
      ext i
      simp only [Finset.mem_insert, hmem, hp, Finset.mem_union, Finset.mem_singleton,
        Finset.mem_Icc]
      omega
    rw [pagesNeeded, hset, if_pos hz]
    decide +kernel
  · have hset : insert 954 (regionsTables rs) = {0, 954, 956, 958} ∪ Finset.Icc 959 1023 := by
      obtain ⟨h1, h2⟩ := hL.resolve_left hz
      have hlow : mmiobase.toNat = 4018143232 := by decide
      have hhigh : mmiolim.toNat = 4022337536 := by decide
      rw [BitVec.le_def] at h1
      rw [BitVec.lt_def] at h2
      have hp : pdx L.lapic = 958 := by
        rw [← pgnum_div, pgnum_eq]
        omega
      ext i
      simp only [Finset.mem_insert, hmem, hp, Finset.mem_union, Finset.mem_singleton,
        Finset.mem_Icc]
      omega
    rw [pagesNeeded, hset, if_neg hz]
    decide +kernel

/-- Task `pid` has been created, with all of its mappings, and nothing else has changed. -/
structure Created (L : Image) (K K' : Kernel) (pid : Nat) : Prop where
  slot : pid < nrTasks ∧ (K.tasks pid).state = .free
  state : (K'.tasks pid).state = .runnable ∧ (K'.tasks pid).taskId = pid
  others : ∀ q, q ≠ pid → K'.tasks q = K.tasks q
  cpus : K'.cpus = K.cpus
  lock : K'.taskLock = false
  kernel : ∃ rs, kvmRegions L K.mem.npages = some rs ∧ ∀ v < 2 ^ 20, stackVpn v = false →
    K'.mem.pteAt (K'.dir pid) v = regionsEntry rs 0#32 v
  stack : ∀ v < 2 ^ 20, stackVpn v = true →
    ∃ p, K'.mem.pteAt (K'.dir pid) v = page2pa p ||| pteP ||| (pteW ||| pteU)
  mappings : ∀ q, K.Live q → ∀ v < 2 ^ 20, K'.mem.pteAt (K.dir q) v = K.mem.pteAt (K.dir q) v
  kernDir : ∀ v < 2 ^ 20, K'.mem.pteAt L.kernDir v = K.mem.pteAt L.kernDir v

/-- The tasks, their directories and the free pages are as before, and the lock is free. -/
structure Unchanged (K K' : Kernel) : Prop where
  tasks : K'.tasks = K.tasks
  lock : K'.taskLock = false
  rows : ∀ q, K.Live q → ∀ i < 1024, K'.mem.ram (K.dir q) i = K.mem.ram (K.dir q) i
  mappings : ∀ q, K.Live q → ∀ v < 2 ^ 20, K'.mem.pteAt (K.dir q) v = K.mem.pteAt (K.dir q) v
  free : ∀ fl, FreeList K.mem fl → ∃ fl', FreeList K'.mem fl' ∧ ∀ p, p ∈ fl' ↔ p ∈ fl
  num : K'.mem.numFreePages = K.mem.numFreePages

/-- `task_create` returns without a fault, with a complete task or with `-1` and no trace. -/
def AllOrNothing (L : Image) (c : Nat) (K : Kernel) : Prop :=
  ∃ r K', taskCreate L c K = some (r, K') ∧
    ((∃ pid : Nat, r = pid ∧ Created L K K' pid) ∨
      r = -1 ∧ Unchanged K K' ∧ sysFork L c K = some (-1, K'))

namespace Sound

variable {L : Image} {rsv : Nat → Prop} {I : Set Nat} {K K' : Kernel} {fl : List Nat}

theorem created_complete (h : Sound L rsv I K fl) {c pid : Nat} {pgdir : Word} {s mem : Mem}
    (hpid : pid < nrTasks) (hfree : (K.tasks pid).state = .free)
    (hkvm : setupkvm L K.mem = some (some pgdir, s))
    (hstack : mapUserStack pgdir userStack s = some (true, mem)) :
    Created L K (K.created c pid pgdir mem) pid ∧ EnoughPages L K := by
  obtain ⟨fl', h1, hu, hspace, _⟩ := h.created c hpid hfree hkvm hstack
  obtain ⟨rs, hrs, hslots, hent⟩ := hspace.regions
  refine ⟨⟨⟨hpid, hfree⟩, ?_, fun q hq => ?_, rfl, rfl, ⟨rs, hrs, hent⟩, fun v hv hs => ?_,
    fun q hq => hu.pte q hq (Set.notMem_empty q), fun v hv => hu.kernDir h.kernDir h.kernTbl hv⟩,
    rs, hrs, ?_⟩
  · simp [Kernel.created]
  · simp [Kernel.created, hq]
  · obtain ⟨p, _, he⟩ := hspace.stack v hv hs
    exact ⟨p, he⟩
  · have hpages := hspace.pages
    rw [h.numFree, pagesNeeded, ← hslots, ← tabs_eq]
    omega

theorem allOrNothing_iff (h : Sound L rsv I K fl) (c : Nat) : AllOrNothing L c K ↔ Room L K := by
  constructor
  · intro hall
    obtain ⟨r, K', hc, hcase⟩ := hall
    obtain ⟨_, ⟨hr, mem, q, pgdir, _, rfl⟩ | ⟨pid, pgdir, s, mem, _, hpid, hfree,
        hkvm, hstack, _⟩⟩ :=
      taskCreate_cases hc
    · rcases hcase with ⟨pid, he, _⟩ | ⟨_, hun, _⟩
      · omega
      · exact Bool.noConfusion hun.lock
    · exact ⟨⟨pid, hpid, hfree⟩, (h.created_complete (c := c) hpid hfree hkvm hstack).2⟩
  · intro hroom
    obtain ⟨pid, hfind⟩ := hroom.find
    obtain ⟨pgdir, s, mem, hpid, hfree, hkvm, hstack, hc⟩ := h.create c hfind hroom.2
    exact ⟨pid, _, hc, .inl ⟨pid, rfl, (h.created_complete hpid hfree hkvm hstack).1⟩⟩

end Sound

theorem taskCreate_failed {L : Image} {cpu pid : Nat} {K : Kernel} {pgdir : Word} {s mem : Mem}
    (hlock : K.taskLock = false)
    (hfind : (List.range nrTasks).find? (fun pid => (K.tasks pid).state == .free) = some pid)
    (hkvm : setupkvm L K.mem = some (some pgdir, s))
    (hstack : mapUserStack pgdir userStack s = some (false, mem)) :
    taskCreate L cpu K = some (-1, { K with mem := mem, taskLock := true }.setTask pid
      { K.tasks pid with pgdir := pgdir }) := by
  simp only [taskCreate, hlock, Bool.false_eq_true, if_false]
  rw [hfind]
  simp only [hkvm, Option.bind_eq_bind, Option.bind_some, Kernel.setTask, hstack, Bool.not_false,
    if_true]

/-- In every state of a run whose forks have found room, `task_create` is all or
nothing exactly if it finds room. -/
theorem taskCreate_allOrNothing {L : Image} {rsv : Nat → Prop} {I : Set Nat} {s₀ : Mem} {ncpu : Nat}
    {fl₀ : List Nat} (h0 : Sound L rsv I (taskInit s₀ ncpu) fl₀) (hsec : L.Bounded)
    {ops : List KernelOp} {K : Kernel} (hrun : Reach (KernelStep L) (taskInit s₀ ncpu) ops K)
    (c : Nat) : AllOrNothing L c K ↔ Room L K := by
  obtain ⟨fl, h⟩ := (Steady.start h0).run hsec hrun
  exact h.allOrNothing_iff c

/-- After the first CPU of a machine has started, the next `task_create` finds room. -/
theorem taskCreate_allOrNothing_second :
    ∃ s₀ K, pageInit smallBoot (bootMem smallBoot fun _ _ => 0#32) = some s₀ ∧
      Reach (KernelStep smallImage) (taskInit s₀ 1) [.init 0] K ∧ Room smallImage K ∧
      AllOrNothing smallImage 0 K := by
  obtain ⟨s₀, fl, hs₀, hlen, h0⟩ := sound_small 1
  have hsec : smallImage.Bounded := fun p hp => (smallImage_sections p hp).bound
  obtain ⟨pgdir, mem, fl', hi, h1, hle⟩ := h0.initPercpu 0 0 rfl smallImage_sections
    (h0.enoughPages (by omega))
  have hrun : Reach (KernelStep smallImage) (taskInit s₀ 1) ([] ++ [.init 0]) _ :=
    Reach.init.snoc (.init Nat.one_pos hi)
  have hroom : Room smallImage ((taskInit s₀ 1).inited
      (if 0 = smallImage.bootcpu then smallImage.userEntry else smallImage.idleEntry)
        0 0 pgdir mem) := by
    refine ⟨⟨1, by decide, ?_⟩, h1.enoughPages (by omega)⟩
    simp [Kernel.inited, Kernel.created, taskInit]
  exact ⟨s₀, _, hs₀, hrun, hroom, (taskCreate_allOrNothing h0 hsec hrun 0).mpr hroom⟩

/-- A machine with 70 free pages. -/
def tightBoot : Boot := ⟨1094#32, 1#32, 0xF0400000#32⟩

/-- The page tables of the first task fit into 70 pages, its stack does not: `task_create` returns
`-1`, but keeps the lock and the new directory. -/
theorem taskCreate_leaks :
    ∃ s₀ K', pageInit tightBoot (bootMem tightBoot fun _ _ => 0#32) = some s₀ ∧
      s₀.numFreePages = 70#32 ∧ taskCreate smallImage 0 (taskInit s₀ 1) = some (-1, K') ∧
      K'.taskLock = true ∧ (K'.tasks 0).pgdir ≠ ((taskInit s₀ 1).tasks 0).pgdir := by
  obtain ⟨s₀, hs₀, hn, h⟩ := taskInv_boot tightBoot (fun _ _ => 0#32) smallImage 1 (by decide)
    (by decide) (.inl rfl) (by decide) (by decide) (by simp)
  have hlen : ((List.range tightBoot.npages.toNat).filter (madeFree tightBoot)).reverse.length =
      70 := by
    decide +kernel
  generalize ((List.range tightBoot.npages.toNat).filter (madeFree tightBoot)).reverse =
    fl at h hlen
  have hvm : VmInv (taskSpace ∅ fun p => madeFree tightBoot p = false) ∅ 0 s₀ fl := h.vm
  have hnp : s₀.npages ≤ 65536 := h.npages
  have hn' : s₀.npages = 1094 := hn
  obtain ⟨rs, hrs⟩ : ∃ rs, kvmRegions smallImage s₀.npages = some rs := by
    rw [hn']
    exact Option.ne_none_iff_exists'.mp (by decide)
  have hneed := pagesNeeded_eq (by omega) hnp h.lapic hrs
  have hz : smallImage.lapic = 0#32 := rfl
  rw [if_pos hz, pagesNeeded] at hneed
  have h954 : 954 ∉ regionsTables rs := by
    rw [kvmRegions_tables (by omega) hnp hrs]
    decide
  rw [Finset.card_insert_of_notMem h954] at hneed
  rcases setupkvm_spec hvm hnp h.lapic with
    ⟨hno, _⟩ | ⟨rs', d, fl₁, t, fl₂, hrs', hfl, hkvm, _, h1, _, _, hent, hset, hpages, _,
      _⟩
  · have := hno rs hrs
    omega
  cases hrs.symm.trans hrs'
  rw [tabs_eq, hset] at hpages
  have habs : ∀ v < 2 ^ 20, stackVpn v = true → t.pteAt d v = 0#32 := fun v hv hs => by
    rw [hent v hv, regionsEntry_stack hnp h.lapic hrs _ hv hs]
  have hlen₁ : fl₁.length = 69 := by
    rw [hfl, List.length_cons] at hlen
    omega
  rcases createSpace_spec h1 (by decide) habs with ⟨_, u, hstack⟩ | ⟨u, fl₃, hstack, h3, hm⟩
  · have hnum : s₀.numFreePages = 70#32 := by rw [hvm.free.num, hlen]
    have hd : d < 65536 := by
      have := hvm.free.lt d (by rw [hfl]; simp)
      omega
    refine ⟨s₀, _, hs₀, hnum, taskCreate_failed rfl rfl hkvm hstack, rfl, ?_⟩
    have hk := kernbase_le_kva hd
    intro he
    have he' : kva d = 0#32 := by simpa [taskInit] using he
    rw [he'] at hk
    exact absurd hk (by decide)
  · have hten : userStack.length = 10 := by rw [userStack_eq]; rfl
    have hpages₃ := hm.pages
    rw [hten] at hpages₃
    have hcard : tabs t d ≤ tabs u d := by
      rw [tabs_eq, tabs_eq, hm.tables]
      exact Finset.card_le_card Finset.subset_union_left
    omega

end NctuCourses.Osdi
