import NctuCourses.Osdi.Task.Sched
import NctuCourses.Osdi.Task.Teardown

namespace NctuCourses.Osdi

theorem VmInv.congr_ram {G : Space} {I : Set Nat} {x : Nat → Nat} {s : Mem} {fl : List Nat}
    (h : VmInv G I x s fl) {r : Nat → Nat → Word} (hap : Apart G.dirs G.rsv s { s with ram := r }) :
    VmInv G I x { s with ram := r } fl := by
  have hdata : ∀ p, IsData G { s with ram := r } fl p ↔ IsData G s fl p :=
    isData_congr hap.npages hap.row
  have hrefs : ∀ p, refs G { s with ram := r } p = refs G s p := fun p => by
    rw [refs, refs, mapSites_congr hap.pte, tableSites_congr hap.row]
  refine ⟨h.np, ⟨h.free.linked, h.free.lt, h.free.num, h.free.ref, h.free.off⟩,
    h.pool, h.dir, ?_, ?_, ?_, fun p hp => (hdata p).mpr (h.held p hp), ?_, ?_⟩
  · intro d hd i hi hp
    rw [hap.row d hd i hi] at hp ⊢
    exact h.tbl d hd i hi hp
  · intro d hd i hi d' hd' i' hi'
    rw [hap.row d hd i hi, hap.row d' hd' i' hi']
    exact h.tblInj d hd i hi d' hd' i' hi'
  · intro d hd v hv hc hp
    rw [hap.pte d hd v hv] at hp ⊢
    exact (hdata _).mpr (h.mapped d hd v hv hc hp)
  · intro p hlt hp
    rw [hrefs]
    exact h.ref p hlt hp
  · intro p
    rw [hdata, hrefs]
    exact h.idle p

theorem IsData.apart {G : Space} {s : Mem} {fl : List Nat} {p : Nat} (hp : IsData G s fl p)
    {r : Nat → Nat → Word} (hr : ∀ q, q ≠ p → ∀ i, r q i = s.ram q i) :
    Apart G.dirs G.rsv s { s with ram := r } := by
  have hram : ∀ q, q ∈ G.dirs ∨ IsTable G s q → ∀ i, r q i = s.ram q i := by
    intro q hq i
    refine hr q (fun e => ?_) i
    rw [e] at hq
    exact hq.elim hp.notDir hp.notTable
  exact ⟨rfl, fun q hq i => hr q (fun e => hp.pool (e ▸ hq)) i, fun d hd i _ => hram d (.inl hd) i,
    fun d hd v hv => VmInv.pteAt_frame hram hd hv⟩

theorem VmInv.memcpy {G : Space} {I : Set Nat} {x : Nat → Nat} {s : Mem} {fl : List Nat} {p q : Nat}
    (h : VmInv G I x s fl) (hp : IsData G s fl p) :
    Apart G.dirs G.rsv s (memcpyPage (kva p) (kva q) s) := by
  have hp20 : p < 2 ^ 20 := hp.lt.trans_le h.np
  refine hp.apart fun r hr i => ?_
  simp [kva_sub_kernbase, pgnum_page2pa p hp20, hr]

/-- The user program is mapped page by page from `KERNBASE` on. -/
structure Section (p : Word × Word) : Prop where
  start : kernbase ≤ p.1
  aligned : p.1.toNat % 4096 = 0
  nonempty : 4096 ≤ (roundup (p.2 - p.1) pgsize).toNat
  bound : p.1.toNat + (roundup (p.2 - p.1) pgsize).toNat ≤ 2 ^ 32

/-- The sections of the user program end below 4 GB. -/
def Image.Bounded (L : Image) : Prop := ∀ p ∈ [L.utext, L.udata, L.ubss, L.urodata],
  p.1.toNat + (roundup (p.2 - p.1) pgsize).toNat ≤ 2 ^ 32

/-- What holds between two calls: the invariant of the address spaces, with a stack of its own for
every live task, and nobody holds the lock. -/
structure Sound (L : Image) (rsv : Nat → Prop) (I : Set Nat) (K : Kernel) (fl : List Nat) : Prop
    extends TaskInv L rsv I K fl where
  own : ∀ q, K.Live q → K.OwnStack rsv q
  lock : K.taskLock = false
  regions : kvmRegions L K.mem.npages ≠ none

theorem sound_small (ncpu : Nat) :
    ∃ s₀ fl, pageInit smallBoot (bootMem smallBoot fun _ _ => 0#32) = some s₀ ∧ 7000 ≤ fl.length ∧
      Sound smallImage (fun p => madeFree smallBoot p = false) ∅ (taskInit s₀ ncpu) fl := by
  obtain ⟨s₀, fl, hs₀, hn, hlen, h⟩ := taskInv_small ncpu
  have hrs : kvmRegions smallImage (taskInit s₀ ncpu).mem.npages ≠ none := by
    change kvmRegions smallImage s₀.npages ≠ none
    rw [hn]
    decide
  exact ⟨s₀, fl, hs₀, hlen, h, fun q hq => absurd rfl hq.2, rfl, hrs⟩

/-- There are as many free pages as `task_create` takes. -/
def EnoughPages (L : Image) (K : Kernel) : Prop :=
  ∃ rs, kvmRegions L K.mem.npages = some rs ∧ pagesNeeded rs ≤ K.mem.numFreePages.toNat

/-- The state after a successful `sys_fork`. -/
def Kernel.forked (K : Kernel) (c t pid : Nat) (pgdir : Word) (mem : Mem) : Kernel :=
  let K := K.created c pid pgdir mem
  let K := K.setTask pid { K.tasks pid with tf := { (K.tasks t).tf with regEax := 0 } }
  let q := (K.cpus K.nextCpu).cpuRq
  { K.setRq K.nextCpu ⟨q.cnt + 1, Function.update q.rq q.cnt.toNat (some pid)⟩ with
    nextCpu := (K.nextCpu + 1) % K.ncpu }

/-- The state after a successful `task_init_percpu`. -/
def Kernel.inited (K : Kernel) (eip : Word) (c pid : Nat) (pgdir : Word) (mem : Mem) : Kernel :=
  let K := K.created c pid pgdir mem
  let K := K.setTask pid
    { K.tasks pid with tf := { (K.tasks pid).tf with tfEip := eip }, state := .running }
  K.setCpu c ⟨some pid, ⟨1, Function.update (fun _ => none) 0 (some pid)⟩⟩

/-- A fork that returns: `task_create` has failed, or every step has succeeded. -/
theorem sysFork_inv {L : Image} {c t : Nat} {K K' : Kernel} {r : Int}
    (ht : (K.cpus c).cpuTask = some t) (h : sysFork L c K = some (r, K')) :
    (r = -1 ∧ taskCreate L c K = some (-1, K')) ∨
      ∃ (p : Nat) (pgdir : Word) (s m₁ m₂ m₃ : Mem), r = p ∧ p < nrTasks ∧
      (K.tasks p).state = .free ∧
        setupkvm L K.mem = some (some pgdir, s) ∧ mapUserStack pgdir userStack s = some (true, m₁) ∧
        userStack.foldlM (copyStackPage ((K.created c p pgdir m₁).tasks t).pgdir
          ((K.created c p pgdir m₁).tasks p).pgdir) m₁ = some m₂ ∧
        setupUser L ((K.created c p pgdir m₁).tasks p).pgdir m₂ = some m₃ ∧
        (K.cpus K.nextCpu).cpuRq.cnt.toNat < nrTasks ∧ K' = K.forked c t p pgdir m₃ := by
  simp only [sysFork, Option.bind_eq_bind, Option.bind_eq_some_iff] at h
  obtain ⟨⟨pid, K₁⟩, hc, h⟩ := h
  obtain ⟨_, ⟨rfl, _⟩ | ⟨p, pgdir, s, m₁, rfl, hp, hfree, hkvm, hstack, rfl⟩⟩ := taskCreate_cases hc
  · cases h
    exact .inl ⟨rfl, hc⟩
  · have hne : (p : Int) ≠ -1 := by omega
    have ht' : ((K.created c p pgdir m₁).cpus c).cpuTask = some t := ht
    simp only [if_neg hne, ht', Option.bind_eq_some_iff] at h
    obtain ⟨m₂, hcopy, m₃, hvm, K₂, he, h⟩ := h
    simp only [Kernel.enqueue] at he
    split_ifs at he with hq
    cases he
    split_ifs at h
    cases h
    have hcnt : ¬ nrTasks ≤ (K.cpus K.nextCpu).cpuRq.cnt.toNat := fun hle => hq (.inr hle)
    exact .inr ⟨p, pgdir, s, m₁, m₂, m₃, rfl, hp, hfree, hkvm, hstack, hcopy, hvm, by omega, rfl⟩

theorem taskInitPercpu_inv {L : Image} {c : Nat} {K K' : Kernel}
    (h : taskInitPercpu L c K = some K') :
    ∃ (p : Nat) (pgdir : Word) (s m₁ m₃ : Mem), p < nrTasks ∧ (K.tasks p).state = .free ∧
      setupkvm L K.mem = some (some pgdir, s) ∧ mapUserStack pgdir userStack s = some (true, m₁) ∧
      setupUser L ((K.created c p pgdir m₁).tasks p).pgdir m₁ = some m₃ ∧
      K' = K.inited (if c = L.bootcpu then L.userEntry else L.idleEntry) c p pgdir m₃ := by
  simp only [taskInitPercpu, Option.bind_eq_bind, Option.bind_eq_some_iff] at h
  obtain ⟨⟨i, K₁⟩, hcr, h⟩ := h
  obtain ⟨_, ⟨rfl, _⟩ | ⟨p, pgdir, s, m₁, rfl, hp, hfree, hkvm, hstack, rfl⟩⟩ :=
    taskCreate_cases hcr
  · simp at h
  have hne : (p : Int) ≠ -1 := by omega
  simp only [if_neg hne, Option.bind_eq_some_iff] at h
  obtain ⟨m₃, hvm, h⟩ := h
  cases h
  exact ⟨p, pgdir, s, m₁, m₃, hp, hfree, hkvm, hstack, hvm, rfl⟩

/-- Between the states `K` and `K'` task `p` has got a copy of the stack of task `t`, in pages that
were free, and everything that was in use before is as it was. -/
structure Copied (rsv : Nat → Prop) (t p : Nat) (K K' : Kernel) (fl : List Nat) : Prop where
  untouched : Untouched rsv ∅ K K'
  ram : ∀ q, q ∉ fl → ∀ j, K'.mem.ram q j = K.mem.ram q j
  fresh : ∀ va ∈ userStack, pgnum (K'.mem.pteAt (K'.dir p) (pgnum va)) ∈ fl
  stack : ∀ va ∈ userStack, ∀ j, K'.mem.ram (pgnum (K'.mem.pteAt (K'.dir p) (pgnum va))) j =
    K.mem.ram (pgnum (K.mem.pteAt (K.dir t) (pgnum va))) j

/-- Directory `d` as the first creation of a task leaves it: the mappings of the kernel, the user
program over them, and a stack in pages of `fl`. -/
structure UserSpace (L : Image) (npages : Nat) (fl : List Nat) (mem : Mem) (d : Nat) : Prop where
  aligned : ∀ p ∈ L.sections, p.1.toNat % 4096 = 0 ∧ kernbase ≤ p.1
  entry : ∃ rs, kvmRegions L npages = some rs ∧ ∀ v < 2 ^ 20, stackVpn v = false →
    mem.pteAt d v = regionsEntry (rs ++ userRegions L) 0#32 v
  stack : ∀ v < 2 ^ 20, stackVpn v = true →
    ∃ p ∈ fl, mem.pteAt d v = page2pa p ||| pteP ||| (pteW ||| pteU)

/-- `task_create`, changes to memory that is no page table of the task, and the
mapping of the user program. -/
theorem NewSpace.userSpace {L : Image} {dirs : Finset Nat} {rsv : Nat → Prop} {I : Set Nat}
    {s m : Mem} {fl fl' fl₂ fl₃ : List Nat} {pid : Nat} {K : Kernel} {mem : Mem}
    (h : NewSpace L dirs rsv I s fl (K.dir pid) m fl') (hl : K.Live pid)
    (hpte : ∀ v < 2 ^ 20, K.mem.pteAt (K.dir pid) v = m.pteAt (K.dir pid) v)
    (hal : ∀ p ∈ L.sections, p.1.toNat % 4096 = 0 ∧ kernbase ≤ p.1)
    (hm : Mapped rsv K fl₂ pid (userRegions L) mem fl₃) :
    UserSpace L s.npages fl mem (K.dir pid) := by
  obtain ⟨rs, hrs, _, hent⟩ := h.regions
  refine ⟨hal, ⟨rs, hrs, fun v hv hs => ?_⟩, fun v hv hs => ?_⟩
  · rw [hm.entry v hv, hpte v hv, hent v hv hs, regionsEntry_append]
  · rw [hm.stack pid hl v hv hs, hpte v hv]
    exact h.stack v hv hs

namespace Sound

variable {L : Image} {rsv : Nat → Prop} {I : Set Nat} {K K' : Kernel} {fl : List Nat}

/-- Changes to everything but the memory, the lock, the directories and which slots are free. -/
theorem congr (h : Sound L rsv I K fl) (hm : K'.mem = K.mem) (hl : K'.taskLock = K.taskLock)
    (hfree : ∀ t, (K'.tasks t).state = .free ↔ (K.tasks t).state = .free)
    (hpg : ∀ t, (K'.tasks t).pgdir = (K.tasks t).pgdir) : Sound L rsv I K' fl := by
  have hlive : ∀ t, K'.Live t ↔ K.Live t := fun t => and_congr_right fun _ => not_congr (hfree t)
  have hdir : ∀ t, K'.dir t = K.dir t := fun t => by rw [Kernel.dir, hpg, Kernel.dir]
  have hdirs : K'.dirs = K.dirs := by
    ext d
    simp only [Kernel.mem_dirs, hlive, hdir]
  refine ⟨⟨?_, ?_, h.lapic, h.kern, h.kernDir, ?_, ?_, ?_⟩, ?_, by rw [hl, h.lock], ?_⟩
  · rw [hdirs, hm]
    exact h.vm
  · rw [hm]
    exact h.npages
  · rw [hm]
    exact h.kernTbl
  · intro t ht
    rw [hpg, hdir]
    exact h.pgdir t ((hlive t).mp ht)
  · intro t t' ht ht'
    rw [hdir, hdir]
    exact h.inj t t' ((hlive t).mp ht) ((hlive t').mp ht')
  · intro t ht
    rw [Kernel.OwnStack, hdirs, hm, hdir]
    exact h.own t ((hlive t).mp ht)
  · rw [hm]
    exact h.regions

theorem congr_ram (h : Sound L rsv I K fl) {r : Nat → Nat → Word}
    (hap : Apart K.dirs rsv K.mem { K.mem with ram := r }) :
    Sound L rsv I { K with mem := { K.mem with ram := r } } fl := by
  refine ⟨⟨h.vm.congr_ram hap, h.npages, h.lapic, h.kern, h.kernDir, h.kernTbl_of hap.rsv, h.pgdir,
    h.inj⟩, fun q hq v hv hc => ?_, h.lock, h.regions⟩
  have hpte : Mem.pteAt { K.mem with ram := r } (K.dir q) v = K.mem.pteAt (K.dir q) v :=
    hap.pte _ (h.dir_mem hq) v hv
  change present (Mem.pteAt { K.mem with ram := r } (K.dir q) v) = true ∧
    mapSites (taskSpace K.dirs rsv) { K.mem with ram := r }
      (pgnum (Mem.pteAt { K.mem with ram := r } (K.dir q) v)) = {(K.dir q, v)}
  rw [hpte, mapSites_congr hap.pte]
  exact h.own q hq v hv hc

theorem numFree (h : Sound L rsv I K fl) : K.mem.numFreePages.toNat = fl.length := by
  have hle : fl.length ≤ K.mem.npages := h.vm.free.length_le
  have hnp := h.npages
  rw [h.vm.free.num, BitVec.toNat_ofNat]
  omega

theorem enoughPages (h : Sound L rsv I K fl) (hlen : 1035 ≤ fl.length) : EnoughPages L K := by
  obtain ⟨rs, hrs⟩ := Option.ne_none_iff_exists'.mp h.regions
  refine ⟨rs, hrs, (pagesNeeded_le rs).trans ?_⟩
  rw [h.numFree]
  exact hlen

theorem created (h : Sound L rsv I K fl) (cpu : Nat) {pid : Nat} {pgdir : Word} {s mem : Mem}
    (hpid : pid < nrTasks) (hfree : (K.tasks pid).state = .free)
    (hkvm : setupkvm L K.mem = some (some pgdir, s))
    (hstack : mapUserStack pgdir userStack s = some (true, mem)) :
    ∃ fl', Sound L rsv I (K.created cpu pid pgdir mem) fl' ∧
      Untouched rsv ∅ K (K.created cpu pid pgdir mem) ∧
      NewSpace L K.dirs rsv I K.mem fl ((K.created cpu pid pgdir mem).dir pid) mem fl' ∧
      KernTables mem ((K.created cpu pid pgdir mem).dir pid) := by
  obtain ⟨fl', h1, hu, hself, hspace, hown⟩ := h.toTaskInv.created cpu hpid hfree hkvm hstack
  obtain ⟨rs, hrs, hslots, _⟩ := hspace.regions
  refine ⟨fl', ⟨h1, fun q hq => ?_, rfl, ?_⟩, hu, hspace, kernTables_of_regions hrs hslots⟩
  · rcases (live_created hpid).mp hq with rfl | hq
    · exact hself
    · exact hown q hq (h.own q hq)
  · rw [hu.npages]
    exact h.regions

theorem create (h : Sound L rsv I K fl) (cpu : Nat) {pid : Nat}
    (hfind : (List.range nrTasks).find? (fun pid => (K.tasks pid).state == .free) = some pid)
    (hroom : EnoughPages L K) :
    ∃ pgdir s mem, pid < nrTasks ∧ (K.tasks pid).state = .free ∧
      setupkvm L K.mem = some (some pgdir, s) ∧ mapUserStack pgdir userStack s = some (true, mem) ∧
      taskCreate L cpu K = some ((pid : Int), K.created cpu pid pgdir mem) := by
  obtain ⟨rs, hrs, hlen⟩ := hroom
  rw [h.numFree] at hlen
  obtain ⟨pgdir, s, mem, hkvm, hstack, hc⟩ := h.create_progress cpu pid h.lock hfind hrs hlen
  exact ⟨pgdir, s, mem, List.mem_range.mp (List.mem_of_find?_eq_some hfind),
    by simpa using List.find?_some hfind, hkvm, hstack, hc⟩

theorem mappedSection (h : Sound L rsv I K fl) {pid : Nat} (hl : K.Live pid) {p : Word × Word}
    {mem : Mem} (hend : p.1.toNat + (roundup (p.2 - p.1) pgsize).toNat ≤ 2 ^ 32)
    (hs : setupvm (K.tasks pid).pgdir p.1 (p.2 - p.1) K.mem = some mem) :
    ∃ fl', Sound L rsv I { K with mem := mem } fl' ∧ p.1.toNat % 4096 = 0 ∧ kernbase ≤ p.1 ∧
      Mapped rsv K fl pid [sectionRegion p.1 (p.2 - p.1)] mem fl' := by
  have hstart : kernbase ≤ p.1 := by
    simp only [setupvm, Option.bind_eq_bind, Option.bind_eq_some_iff] at hs
    obtain ⟨pa, hpa, _⟩ := hs
    by_contra hn
    simp [paddr, BitVec.not_le.mp hn] at hpa
  obtain ⟨fl', h1, hm, hal, hown⟩ := h.remapped hl hstart hend hs
  refine ⟨fl', ⟨h1, fun q hq => hown q hq (h.own q hq), h.lock, ?_⟩, hal, hstart, hm⟩
  rw [hm.untouched.npages]
  exact h.regions

theorem mappedUser (h : Sound L rsv I K fl) {pid : Nat} (hl : K.Live pid) {mem : Mem}
    (hsec : L.Bounded)
    (hs : Osdi.setupUser L (K.tasks pid).pgdir K.mem = some mem) :
    ∃ fl', Sound L rsv I { K with mem := mem } fl' ∧
      (∀ p ∈ L.sections, p.1.toNat % 4096 = 0 ∧ kernbase ≤ p.1) ∧
      Mapped rsv K fl pid (userRegions L) mem fl' := by
  simp only [Osdi.setupUser, Option.bind_eq_bind, Option.bind_eq_some_iff] at hs
  obtain ⟨m₁, e₁, m₂, e₂, m₃, e₃, e₄⟩ := hs
  obtain ⟨fl₁, h1, a₁, b₁, r₁⟩ := h.mappedSection hl (hsec L.utext (by simp)) e₁
  obtain ⟨fl₂, h2, a₂, b₂, r₂⟩ := h1.mappedSection hl (hsec L.udata (by simp)) e₂
  obtain ⟨fl₃, h3, a₃, b₃, r₃⟩ := h2.mappedSection hl (hsec L.ubss (by simp)) e₃
  obtain ⟨fl₄, h4, a₄, b₄, r₄⟩ := h3.mappedSection hl (hsec L.urodata (by simp)) e₄
  refine ⟨fl₄, h4, fun p hp => ?_, r₁.trans (r₂.trans (r₃.trans r₄))⟩
  simp only [Image.sections, List.mem_cons, List.not_mem_nil, or_false] at hp
  rcases hp with rfl | rfl | rfl | rfl
  · exact ⟨a₁, b₁⟩
  · exact ⟨a₂, b₂⟩
  · exact ⟨a₃, b₃⟩
  · exact ⟨a₄, b₄⟩

theorem mapSection (h : Sound L rsv I K fl) {pid : Nat} (hl : K.Live pid) {p : Word × Word}
    (hp : Section p) (htab : KernTables K.mem (K.dir pid)) :
    ∃ mem fl', setupvm (K.tasks pid).pgdir p.1 (p.2 - p.1) K.mem = some mem ∧
      Sound L rsv I { K with mem := mem } fl' ∧ KernTables mem (K.dir pid) := by
  obtain ⟨mem, hs⟩ := h.setupvm_progress p.1 (p.2 - p.1) hl hp.start hp.aligned
    hp.nonempty hp.bound htab
  obtain ⟨fl', h1, _, _, hm⟩ := h.mappedSection hl hp.bound hs
  refine ⟨mem, fl', hs, h1, fun i hi hlow => ?_⟩
  have hpr := htab i hi hlow
  rw [hm.frame.row _ (h.dir_mem hl) i hi hpr, hpr]

theorem setupUser (h : Sound L rsv I K fl) {pid : Nat} (hl : K.Live pid)
    (hsec : ∀ p ∈ L.sections, Section p)
    (htab : KernTables K.mem (K.dir pid)) :
    ∃ mem, Osdi.setupUser L (K.tasks pid).pgdir K.mem = some mem := by
  obtain ⟨m₁, fl₁, e₁, h1, t₁⟩ := h.mapSection hl (hsec L.utext (by simp [Image.sections])) htab
  obtain ⟨m₂, fl₂, e₂, h2, t₂⟩ := h1.mapSection hl (hsec L.udata (by simp [Image.sections])) t₁
  obtain ⟨m₃, fl₃, e₃, h3, t₃⟩ := h2.mapSection hl (hsec L.ubss (by simp [Image.sections])) t₂
  obtain ⟨m₄, fl₄, e₄, h4, t₄⟩ := h3.mapSection hl (hsec L.urodata (by simp [Image.sections])) t₃
  refine ⟨m₄, ?_⟩
  simp only [Osdi.setupUser, e₁, Option.bind_eq_bind, Option.bind_some]
  simp only at e₂ e₃ e₄
  rw [e₂, Option.bind_some, e₃, Option.bind_some, e₄]

/-- A stack page of a live task is found by `page_lookup` and holds data. -/
theorem lookupStack (h : Sound L rsv I K fl) {pid : Nat} (hl : K.Live pid) {va : Word}
    (hva : va ∈ userStack) :
    ∃ pte, pageLookup (K.tasks pid).pgdir va K.mem =
        some (some (pgnum (K.mem.pteAt (K.dir pid) (pgnum va)), pte)) ∧
      IsData (taskSpace K.dirs rsv) K.mem fl (pgnum (K.mem.pteAt (K.dir pid) (pgnum va))) := by
  have hc : stackVpn (pgnum va) = true := (stackVpn_userStack _).mpr ⟨va, hva, rfl⟩
  have hd : K.dir pid ∈ (taskSpace K.dirs rsv).dirs := h.dir_mem hl
  have hp := (h.own pid hl _ (pgnum_lt va) hc).1
  have hdat := h.vm.mapped _ hd _ (pgnum_lt va) hc hp
  have ht := h.vm.tbl_lt hd (pdx_lt va) (VmInv.pde_present hp)
  rw [h.pgdir pid hl]
  exact ⟨_, pageLookup_some (h.vm.dir_lt hd) hp ht hdat.lt, hdat⟩

theorem stack_inj (h : Sound L rsv I K fl) {q q' : Nat} (hq : K.Live q) (hq' : K.Live q')
    {va va' : Word} (hva : va ∈ userStack) (hva' : va' ∈ userStack)
    (he : pgnum (K.mem.pteAt (K.dir q) (pgnum va)) = pgnum (K.mem.pteAt (K.dir q') (pgnum va'))) :
    q = q' ∧ pgnum va = pgnum va' := by
  have hc : ∀ va ∈ userStack, stackVpn (pgnum va) = true := fun va hva =>
    (stackVpn_userStack _).mpr ⟨va, hva, rfl⟩
  have h1 := (h.own q hq _ (pgnum_lt va) (hc va hva)).2
  have h2 := (h.own q' hq' _ (pgnum_lt va') (hc va' hva')).2
  rw [he, h2, Finset.singleton_inj] at h1
  obtain ⟨hd, hv⟩ := Prod.mk.inj h1
  exact ⟨h.inj q q' hq hq' hd.symm, hv.symm⟩

/-- The loop of `sys_fork` over the user stack: the pages of task `pid` become copies of those of
task `t`, and nothing else changes. -/
theorem copyStack (h : Sound L rsv I K fl) {t pid : Nat} (ht : K.Live t) (hl : K.Live pid)
    (hne : t ≠ pid) (vas : List Word) (hvas : ∀ va ∈ vas, va ∈ userStack)
    (hnd : (vas.map pgnum).Nodup) :
    ∃ mem, vas.foldlM (copyStackPage (K.tasks t).pgdir (K.tasks pid).pgdir) K.mem = some mem ∧
      Sound L rsv I { K with mem := mem } fl ∧ Apart K.dirs rsv K.mem mem ∧
      (∀ va ∈ vas, ∀ j, mem.ram (pgnum (K.mem.pteAt (K.dir pid) (pgnum va))) j =
        K.mem.ram (pgnum (K.mem.pteAt (K.dir t) (pgnum va))) j) ∧
      ∀ q, (∀ va ∈ vas, q ≠ pgnum (K.mem.pteAt (K.dir pid) (pgnum va))) →
        ∀ j, mem.ram q j = K.mem.ram q j := by
  induction vas generalizing K with
  | nil => exact ⟨K.mem, rfl, h, Apart.refl _ _ _, by simp, fun _ _ _ => rfl⟩
  | cons va vas ih =>
    have hva := hvas va (by simp)
    obtain ⟨hnew, hnd⟩ := List.nodup_cons.mp hnd
    obtain ⟨_, hsrc, hdsrc⟩ := h.lookupStack ht hva
    obtain ⟨_, hdst, hddst⟩ := h.lookupStack hl hva
    have hap := h.vm.memcpy (q := pgnum (K.mem.pteAt (K.dir t) (pgnum va))) hddst
    have hsound : Sound L rsv I
        { K with mem := (memcpyPage (kva (pgnum (K.mem.pteAt (K.dir pid) (pgnum va))))
          (kva (pgnum (K.mem.pteAt (K.dir t) (pgnum va)))) K.mem) } fl := h.congr_ram hap
    have hram : ∀ q j, (memcpyPage (kva (pgnum (K.mem.pteAt (K.dir pid) (pgnum va))))
        (kva (pgnum (K.mem.pteAt (K.dir t) (pgnum va)))) K.mem).ram q j =
        if q = pgnum (K.mem.pteAt (K.dir pid) (pgnum va))
          then K.mem.ram (pgnum (K.mem.pteAt (K.dir t) (pgnum va))) j else K.mem.ram q j := by
      intro q j
      simp only [memcpyPage, kva_sub_kernbase, pgnum_page2pa _ (pgnum_lt _)]
    have hstep : copyStackPage (K.tasks t).pgdir (K.tasks pid).pgdir K.mem va = some (memcpyPage
        (kva (pgnum (K.mem.pteAt (K.dir pid) (pgnum va))))
        (kva (pgnum (K.mem.pteAt (K.dir t) (pgnum va)))) K.mem) := by
      simp only [copyStackPage, hsrc, hdst, Option.bind_eq_bind, Option.bind_some,
        page2kva_of_lt hdsrc.lt, page2kva_of_lt hddst.lt]
    generalize memcpyPage _ _ K.mem = m at hap hsound hram hstep
    have hpte : ∀ q, K.Live q → ∀ va : Word,
        m.pteAt (K.dir q) (pgnum va) = K.mem.pteAt (K.dir q) (pgnum va) := fun q hq va =>
      hap.pte _ (h.dir_mem hq) _ (pgnum_lt va)
    obtain ⟨mem, he, h2, hap', hcopy, hkeep⟩ := ih hsound ht hl
      (fun va' hva' => hvas va' (by simp [hva'])) hnd
    change ∀ va ∈ vas, ∀ j, mem.ram (pgnum (m.pteAt (K.dir pid) (pgnum va))) j =
      m.ram (pgnum (m.pteAt (K.dir t) (pgnum va))) j at hcopy
    change ∀ q, (∀ va ∈ vas, q ≠ pgnum (m.pteAt (K.dir pid) (pgnum va))) →
      ∀ j, mem.ram q j = m.ram q j at hkeep
    refine ⟨mem, ?_, h2, hap.trans hap', fun va' hva' j => ?_, fun q hq j => ?_⟩
    · rw [List.foldlM_cons, hstep, Option.bind_eq_bind, Option.bind_some]
      exact he
    · rcases List.mem_cons.mp hva' with rfl | hva'
      · rw [hkeep _ (fun w hw e => hnew ?_) j, hram, if_pos rfl]
        rw [hpte pid hl] at e
        rw [(h.stack_inj hl hl hva (hvas w (by simp [hw])) e).2]
        exact List.mem_map_of_mem hw
      · have hsrc' : pgnum (K.mem.pteAt (K.dir t) (pgnum va')) ≠
            pgnum (K.mem.pteAt (K.dir pid) (pgnum va)) := fun e =>
          hne (h.stack_inj ht hl (hvas va' (by simp [hva'])) hva e).1
        rw [← hpte pid hl, hcopy va' hva', hpte t ht, hram, if_neg hsrc']
    · rw [hkeep q (fun w hw => ?_) j, hram, if_neg (hq va (by simp))]
      rw [hpte pid hl]
      exact hq w (by simp [hw])

/-- The memory of a fork: a new task, the stack copied, and the user program mapped. -/
theorem forkedSpace (h : Sound L rsv I K fl) {c t p : Nat} {pgdir : Word} {s m₁ m₂ m₃ : Mem}
    (ht : K.Live t) (hp : p < nrTasks) (hfree : (K.tasks p).state = .free)
    (hkvm : setupkvm L K.mem = some (some pgdir, s))
    (hstack : mapUserStack pgdir userStack s = some (true, m₁))
    (hcopy : userStack.foldlM (copyStackPage ((K.created c p pgdir m₁).tasks t).pgdir
      ((K.created c p pgdir m₁).tasks p).pgdir) m₁ = some m₂)
    (hvm : Osdi.setupUser L ((K.created c p pgdir m₁).tasks p).pgdir m₂ = some m₃)
    (hsec : L.Bounded) :
    ∃ fl', Sound L rsv I { K.created c p pgdir m₁ with mem := m₃ } fl' ∧
      fl.length ≤ fl'.length + 1035 ∧
      UserSpace L K.mem.npages fl m₃ ((K.created c p pgdir m₁).dir p) ∧
      Copied rsv t p K { K.created c p pgdir m₁ with mem := m₃ } fl := by
  have hl₁ : (K.created c p pgdir m₁).Live p := (live_created hp).mpr (.inl rfl)
  have ht₁ : (K.created c p pgdir m₁).Live t := (live_created hp).mpr (.inr ht)
  have hne : t ≠ p := fun e => ht.2 (e ▸ hfree)
  have hvpn : ∀ va ∈ userStack, stackVpn (pgnum va) = true := fun va hva =>
    (stackVpn_userStack _).mpr ⟨va, hva, rfl⟩
  obtain ⟨fl₁, h1, u₁, hspace, _⟩ := h.created c hp hfree hkvm hstack
  obtain ⟨m₂', e₂, h2, hap, hsame, hkeep⟩ :=
    h1.copyStack ht₁ hl₁ hne userStack (fun _ hva => hva) userStack_nodup
  obtain rfl : m₂' = m₂ := Option.some.inj (e₂.symm.trans hcopy)
  obtain ⟨fl₃, h3, hal, hm⟩ := h2.mappedUser hl₁ hsec hvm
  have huser : UserSpace L K.mem.npages fl m₃ ((K.created c p pgdir m₁).dir p) :=
    NewSpace.userSpace (K := { K.created c p pgdir m₁ with mem := m₂' }) hspace hl₁
      (hap.pte _ (h1.dir_mem hl₁)) hal hm
  generalize hd : (K.created c p pgdir m₁).dir p = d at *
  have hloc : Local d m₂' fl₁ m₃ fl₃ := hd ▸ hm.near
  have hrow : ∀ i < 1024, m₂'.ram d i = m₁.ram d i := hap.row _ (hd ▸ h1.dir_mem hl₁)
  have hpte₂ : ∀ v < 2 ^ 20, m₂'.pteAt d v = m₁.pteAt d v := hap.pte _ (hd ▸ h1.dir_mem hl₁)
  have hpte₃ : ∀ va ∈ userStack, m₃.pteAt d (pgnum va) = m₁.pteAt d (pgnum va) := by
    intro va hva
    have hs := hm.stack p hl₁ _ (pgnum_lt va) (hvpn va hva)
    change m₃.pteAt ((K.created c p pgdir m₁).dir p) _ = m₂'.pteAt
      ((K.created c p pgdir m₁).dir p) _ at hs
    rw [hd] at hs
    exact hs.trans (hpte₂ _ (pgnum_lt va))
  have hnear : ∀ q, Near m₂' fl₁ d q → q ∈ fl := fun q hq => hspace.near q ((near_congr hrow).mp hq)
  have hfresh : ∀ va ∈ userStack, pgnum (m₁.pteAt d (pgnum va)) ∈ fl := by
    intro va hva
    obtain ⟨q, hq, he⟩ := hspace.stack _ (pgnum_lt va) (hvpn va hva)
    have hq20 : q < 2 ^ 20 := (h.vm.free.lt q hq).trans_le h.vm.np
    rw [he, VmInv.entry_assoc, pgnum_entry q _ hq20 (by decide)]
    exact hq
  refine ⟨fl₃, h3, ?_, huser, ⟨?_, fun q hq j => ?_, fun va hva => ?_, fun va hva j => ?_⟩⟩
  · have htabs : tabs m₂' d = tabs m₁ d := tabs_congr hrow
    have hl₃ : fl₁.length + tabs m₂' d = fl₃.length + tabs m₃ d := hd ▸ hm.pages
    have hpages := hspace.pages
    have hle := tabs_le m₃ d
    omega
  · have u₂ : Untouched rsv {p} (K.created c p pgdir m₁)
        { K.created c p pgdir m₁ with mem := m₂' } :=
      Untouched.of_apart hap
    exact ((u₁.mono (Set.empty_subset {p})).trans (u₂.trans hm.untouched)).of_free fun hl =>
      hl.2 hfree
  · have hkeep₃ : m₃.ram q j = m₂'.ram q j := hloc.ram q (fun hn => hq (hnear q hn)) j
    have hkeep₂ : m₂'.ram q j = m₁.ram q j :=
      hkeep q (fun va hva e => hq (e ▸ hfresh va hva)) j
    exact hkeep₃.trans (hkeep₂.trans (hspace.ram q hq j))
  · change pgnum (m₃.pteAt ((K.created c p pgdir m₁).dir p) (pgnum va)) ∈ fl
    rw [hd, hpte₃ va hva]
    exact hfresh va hva
  · change m₃.ram (pgnum (m₃.pteAt ((K.created c p pgdir m₁).dir p) (pgnum va))) j = _
    rw [hd, hpte₃ va hva]
    obtain ⟨_, _, hdat⟩ := h2.lookupStack hl₁ hva
    change IsData _ m₂' fl₁ (pgnum (m₂'.pteAt ((K.created c p pgdir m₁).dir p) (pgnum va))) at hdat
    rw [hd, hpte₂ _ (pgnum_lt va)] at hdat
    have hfar : ¬ Near m₂' fl₁ d (pgnum (m₁.pteAt d (pgnum va))) :=
      hdat.not_near (hd ▸ h1.dir_mem hl₁)
    have hparent : m₁.pteAt (K.dir t) (pgnum va) = K.mem.pteAt (K.dir t) (pgnum va) :=
      u₁.pte t ht (Set.notMem_empty t) _ (pgnum_lt va)
    have hsame' : m₂'.ram (pgnum (m₁.pteAt d (pgnum va))) j =
        m₁.ram (pgnum (m₁.pteAt ((K.created c p pgdir m₁).dir t) (pgnum va))) j := hsame va hva j
    rw [hloc.ram _ hfar j, hsame', u₁.dir t ht (Set.notMem_empty t), hparent]
    exact hspace.ram _ (h.stack_notMem ht (pgnum_lt va) (hvpn va hva) (h.own t ht)) j

theorem forked {c t p : Nat} {pgdir : Word} {m₁ m₃ : Mem}
    (h : Sound L rsv I { K.created c p pgdir m₁ with mem := m₃ } fl) :
    Sound L rsv I (K.forked c t p pgdir m₃) fl := by
  refine h.congr rfl rfl (fun u => ?_) (fun u => ?_)
  · by_cases hu : u = p
    · simp only [Kernel.forked, Kernel.setRq, Kernel.setCpu, Kernel.setTask,
        hu, Function.update_self]
      rfl
    · simp only [Kernel.forked, Kernel.setRq, Kernel.setCpu, Kernel.setTask,
        Function.update_of_ne hu]
      rfl
  · by_cases hu : u = p
    · simp only [Kernel.forked, Kernel.setRq, Kernel.setCpu, Kernel.setTask,
        hu, Function.update_self]
      rfl
    · simp only [Kernel.forked, Kernel.setRq, Kernel.setCpu, Kernel.setTask,
        Function.update_of_ne hu]
      rfl

/-- With a free slot, enough pages and room in the runqueue, `sys_fork` succeeds, unless
there is no CPU to count modulo. -/
theorem fork (h : Sound L rsv I K fl) {c t pid : Nat} (hcur : (K.cpus c).cpuTask = some t)
    (ht : K.Live t)
    (hfind : (List.range nrTasks).find? (fun pid => (K.tasks pid).state == .free) = some pid)
    (hsec : ∀ p ∈ L.sections, Section p) (hroom : EnoughPages L K)
    (hnext : K.nextCpu < maxCpu) (hcnt : (K.cpus K.nextCpu).cpuRq.cnt.toNat < nrTasks) :
    ∃ pgdir s m₁ m₂ m₃, pid < nrTasks ∧ (K.tasks pid).state = .free ∧
      setupkvm L K.mem = some (some pgdir, s) ∧ mapUserStack pgdir userStack s = some (true, m₁) ∧
      userStack.foldlM (copyStackPage ((K.created c pid pgdir m₁).tasks t).pgdir
        ((K.created c pid pgdir m₁).tasks pid).pgdir) m₁ = some m₂ ∧
      Osdi.setupUser L ((K.created c pid pgdir m₁).tasks pid).pgdir m₂ = some m₃ ∧
      sysFork L c K =
        if K.ncpu = 0 then none else some ((pid : Int), K.forked c t pid pgdir m₃) := by
  obtain ⟨pgdir, s, m₁, hpid, hfree, hkvm, hstack, hc⟩ := h.create c hfind hroom
  have hl₁ : (K.created c pid pgdir m₁).Live pid := (live_created hpid).mpr (.inl rfl)
  have ht₁ : (K.created c pid pgdir m₁).Live t := (live_created hpid).mpr (.inr ht)
  have hne : t ≠ pid := fun e => ht.2 (e ▸ hfree)
  obtain ⟨fl₁, h1, _, _, htab⟩ := h.created c hpid hfree hkvm hstack
  obtain ⟨m₂, e₂, h2, hap, _, _⟩ :=
    h1.copyStack ht₁ hl₁ hne userStack (fun _ hva => hva) userStack_nodup
  have htab₂ : KernTables m₂ ((K.created c pid pgdir m₁).dir pid) := fun i hi hlow => by
    rw [hap.row _ (h1.dir_mem hl₁) i hi]
    exact htab i hi hlow
  obtain ⟨m₃, e₃⟩ := h2.setupUser hl₁ hsec htab₂
  refine ⟨pgdir, s, m₁, m₂, m₃, hpid, hfree, hkvm, hstack, e₂, e₃, ?_⟩
  have hne' : (pid : Int) ≠ -1 := by omega
  have hcur₁ : ((K.created c pid pgdir m₁).cpus c).cpuTask = some t := hcur
  have hq : ¬ (maxCpu ≤ K.nextCpu ∨ nrTasks ≤ (K.cpus K.nextCpu).cpuRq.cnt.toNat) := by omega
  simp only [sysFork, hc, Option.bind_eq_bind, Option.bind_some, if_neg hne',
    hcur₁, Int.toNat_natCast, e₂]
  rw [e₃, Option.bind_some]
  exact (congrArg (Option.bind · _) (if_neg hq)).trans rfl

theorem initedSpace (h : Sound L rsv I K fl) {c p : Nat} {pgdir : Word} {s m₁ m₃ : Mem}
    (hp : p < nrTasks) (hfree : (K.tasks p).state = .free)
    (hkvm : setupkvm L K.mem = some (some pgdir, s))
    (hstack : mapUserStack pgdir userStack s = some (true, m₁))
    (hvm : Osdi.setupUser L ((K.created c p pgdir m₁).tasks p).pgdir m₁ = some m₃)
    (hsec : L.Bounded) (eip : Word) :
    ∃ fl', Sound L rsv I (K.inited eip c p pgdir m₃) fl' ∧ fl.length ≤ fl'.length + 1035 ∧
      UserSpace L K.mem.npages fl m₃ ((K.created c p pgdir m₁).dir p) := by
  have hl₁ : (K.created c p pgdir m₁).Live p := (live_created hp).mpr (.inl rfl)
  obtain ⟨fl₁, h1, _, hspace, _⟩ := h.created c hp hfree hkvm hstack
  obtain ⟨fl₃, h3, hal, hm⟩ := h1.mappedUser hl₁ hsec hvm
  refine ⟨fl₃, h3.congr rfl rfl (fun u => ?_) (fun u => ?_), ?_,
    hspace.userSpace hl₁ (fun _ _ => rfl) hal hm⟩
  · by_cases hu : u = p
    · simp [Kernel.inited, Kernel.setCpu, Kernel.setTask, Kernel.created, hu]
    · simp [Kernel.inited, Kernel.setCpu, Kernel.setTask, Kernel.created, hu]
  · by_cases hu : u = p
    · simp [Kernel.inited, Kernel.setCpu, Kernel.setTask, Kernel.created, hu]
    · simp [Kernel.inited, Kernel.setCpu, Kernel.setTask, Kernel.created, hu]
  · have hl₃ : fl₁.length + tabs m₁ ((K.created c p pgdir m₁).dir p) =
      fl₃.length + tabs m₃ ((K.created c p pgdir m₁).dir p) := hm.pages
    have hpages := hspace.pages
    have hle := tabs_le m₃ ((K.created c p pgdir m₁).dir p)
    omega

theorem initPercpu (h : Sound L rsv I K fl) (c pid : Nat)
    (hfind : (List.range nrTasks).find? (fun pid => (K.tasks pid).state == .free) = some pid)
    (hsec : ∀ p ∈ L.sections, Section p) (hroom : EnoughPages L K) :
    ∃ pgdir mem fl', taskInitPercpu L c K =
        some (K.inited (if c = L.bootcpu then L.userEntry else L.idleEntry) c pid pgdir mem) ∧
      Sound L rsv I (K.inited (if c = L.bootcpu then L.userEntry else L.idleEntry)
        c pid pgdir mem) fl' ∧
      fl.length ≤ fl'.length + 1035 := by
  obtain ⟨pgdir, s, m₁, hpid, hfree, hkvm, hstack, hc⟩ := h.create c hfind hroom
  have hl₁ : (K.created c pid pgdir m₁).Live pid := (live_created hpid).mpr (.inl rfl)
  obtain ⟨fl₁, h1, _, _, htab⟩ := h.created c hpid hfree hkvm hstack
  obtain ⟨m₃, e₃⟩ := h1.setupUser hl₁ hsec htab
  obtain ⟨fl₃, h3, hle, _⟩ :=
    h.initedSpace hpid hfree hkvm hstack e₃ (fun p hp => (hsec p hp).bound)
    (if c = L.bootcpu then L.userEntry else L.idleEntry)
  refine ⟨pgdir, m₃, fl₃, ?_, h3, hle⟩
  have hne : (pid : Int) ≠ -1 := by omega
  have e₃' : Osdi.setupUser L ((K.created c pid pgdir m₁).tasks pid).pgdir
    (K.created c pid pgdir m₁).mem = some m₃ := e₃
  simp only [taskInitPercpu, hc, Option.bind_eq_bind, Option.bind_some, if_neg hne,
    Int.toNat_natCast, e₃']
  rfl

theorem setTf (h : Sound L rsv I K fl) (t : Nat) (tf : Trapframe) :
    Sound L rsv I (K.setTf t tf) fl := by
  refine h.congr rfl rfl (fun u => ?_) (fun u => ?_)
  · by_cases hu : u = t
    · simp [Kernel.setTf, Kernel.setTask, hu]
    · simp [Kernel.setTf, Kernel.setTask, hu]
  · by_cases hu : u = t
    · simp [Kernel.setTf, Kernel.setTask, hu]
    · simp [Kernel.setTf, Kernel.setTask, hu]

theorem trapFork (h : Sound L rsv I K fl) (tf : Trapframe) (c t pid : Nat)
    (hcur : (K.cpus c).cpuTask = some t) (ht : K.Live t)
    (hfind : (List.range nrTasks).find? (fun pid => ((K.setTf t tf).tasks pid).state == .free) =
      some pid)
    (hsec : ∀ p ∈ L.sections, Section p) (hroom : EnoughPages L K)
    (hnext : K.nextCpu < maxCpu) (hcnt : (K.cpus K.nextCpu).cpuRq.cnt.toNat < nrTasks)
    (hncpu : K.ncpu ≠ 0) :
    ∃ pgdir mem tf' fl', K.trap L c tf .fork =
        some (((K.setTf t tf).forked c t pid pgdir mem).setTf t tf') ∧
      Sound L rsv I (((K.setTf t tf).forked c t pid pgdir mem).setTf t tf') fl' ∧
      fl.length ≤ fl'.length + 1035 := by
  have ht' : (K.setTf t tf).Live t := by
    refine ⟨ht.1, ?_⟩
    simpa [Kernel.setTf, Kernel.setTask] using ht.2
  obtain ⟨pgdir, s, m₁, m₂, mem, hpid, hfree, hkvm, hstack, hcopy, hvm, he⟩ :=
    (h.setTf t tf).fork (c := c) hcur ht' hfind hsec hroom hnext hcnt
  rw [if_neg (show (K.setTf t tf).ncpu ≠ 0 from hncpu)] at he
  obtain ⟨fl', h1, hl, _⟩ := (h.setTf t tf).forkedSpace ht' hpid hfree hkvm hstack hcopy hvm
    fun p hp => (hsec p hp).bound
  have hsave : saveFrame c tf K = some (t, K.setTf t tf) := by simp [saveFrame, hcur]
  obtain ⟨tf', htrap⟩ : ∃ tf', K.trap L c tf .fork =
      some (((K.setTf t tf).forked c t pid pgdir mem).setTf t tf') := by
    simp only [Kernel.trap, hsave, he, Option.bind_eq_bind, Option.bind_some]
    exact ⟨_, rfl⟩
  exact ⟨pgdir, mem, tf', fl', htrap, (forked h1).setTf t tf', hl⟩

theorem dispatch (h : Sound L rsv I K fl) (c : Nat) {t : Nat} (hl : K.Live t) :
    Sound L rsv I (K.dispatch c t) fl := by
  refine h.congr rfl rfl (fun u => ?_) (fun u => ?_)
  · by_cases hu : u = t
    · simpa [Kernel.dispatch, Kernel.setTask, Kernel.setCpu, hu] using hl.2
    · simp [Kernel.dispatch, Kernel.setTask, Kernel.setCpu, hu]
  · by_cases hu : u = t
    · simp [Kernel.dispatch, Kernel.setTask, Kernel.setCpu, hu]
    · simp [Kernel.dispatch, Kernel.setTask, Kernel.setCpu, hu]

/-- `sched_yield` succeeds on the task it finds. -/
theorem yield (h : Sound L rsv I K fl) {c t : Nat} (hl : K.Live t)
    (hf : findRunnable K.tasks (K.cpus c).cpuRq.rq (K.cpus c).cpuRq.cnt.toNat = some (some t)) :
    schedYield c K = some (K.dispatch c t) := by
  have hk : kernbase ≤ (K.tasks t).pgdir := by
    rw [h.pgdir t hl]
    exact kernbase_le_kva (h.dir_lt hl)
  simp only [schedYield, hf, Option.bind_eq_bind, Option.bind_some, paddr_of_le hk]

theorem trapSleep (h : Sound L rsv I K fl) (tf : Trapframe) (a1 : Word) {c t u : Nat}
    (hcur : (K.cpus c).cpuTask = some t) (ht : K.Live t) {K₁ : Kernel}
    (hK₁ : K₁ = (K.setTf t tf).setTask t
      { (K.setTf t tf).tasks t with state := .sleep, remindTicks := a1 })
    (hu : K₁.Live u)
    (hf : findRunnable K₁.tasks (K₁.cpus c).cpuRq.rq (K₁.cpus c).cpuRq.cnt.toNat = some (some u)) :
    K.trap L c tf (.sleep a1) = some (K₁.dispatch c u) ∧ Sound L rsv I (K₁.dispatch c u) fl := by
  have h1 : Sound L rsv I K₁ fl := by
    refine (h.setTf t tf).congr (by rw [hK₁]; rfl) (by rw [hK₁]; rfl) (fun v => ?_) (fun v => ?_)
    · rw [hK₁]
      by_cases hv : v = t
      · simpa [Kernel.setTf, Kernel.setTask, hv] using ht.2
      · simp [Kernel.setTf, Kernel.setTask, hv]
    · rw [hK₁]
      by_cases hv : v = t
      · simp [Kernel.setTf, Kernel.setTask, hv]
      · simp [Kernel.setTf, Kernel.setTask, hv]
  refine ⟨?_, h1.dispatch c hu⟩
  have hcur' : ((K.setTf t tf).cpus c).cpuTask = some t := hcur
  rw [← h1.yield hu hf, hK₁]
  simp only [Kernel.trap, saveFrame, hcur, Option.map_some, Option.bind_eq_bind, Option.bind_some,
    sysSleep, hcur']

theorem released (h : Sound L rsv I K fl) {t : Nat} (ht : K.Live t) :
    ∃ mem fl', taskFree L (K.tasks t).pgdir K.mem = some mem ∧
      Sound L rsv I (K.released t mem) fl' := by
  obtain ⟨mem, l, he, h1, hu, hown, _⟩ := h.freed ht
  refine ⟨mem, l ++ fl, he, h1, fun q hq => ?_, h.lock, ?_⟩
  · obtain ⟨hne, hq⟩ := live_released.mp hq
    exact hown q hne hq (h.own q hq)
  · rw [hu.npages]
    exact h.regions

end Sound

end NctuCourses.Osdi
