import NctuCourses.Osdi.Task.Control

namespace NctuCourses.Osdi

open Lib

def Kernel.cnt (K : Kernel) (c : Nat) : Nat := (K.cpus c).cpuRq.cnt.toNat

def Kernel.rqAt (K : Kernel) (c j : Nat) : Option Nat := (K.cpus c).cpuRq.rq j

def Kernel.queue (K : Kernel) (c : Nat) : List (Option Nat) := (List.range (K.cnt c)).map (K.rqAt c)

/-- The runqueues partition the live tasks. -/
structure Partition (K : Kernel) : Prop where
  cnt_le : ∀ c < K.ncpu, K.cnt c ≤ nrTasks
  entry : ∀ c < K.ncpu, ∀ j < K.cnt c, ∃ t, K.rqAt c j = some t ∧ K.Live t
  once : ∀ t, K.Live t → ∃! p : Nat × Nat, p.1 < K.ncpu ∧ p.2 < K.cnt p.1 ∧ K.rqAt p.1 p.2 = some t

/-- The invariant behind it, for the CPUs in `S` that have run `task_init_percpu`: the current task
of each of them stands in its queue. -/
structure QueueInv (S : Set Nat) (K : Kernel) : Prop where
  entry : ∀ c < K.ncpu, ∀ j < K.cnt c, ∃ t, K.rqAt c j = some t ∧ K.Live t
  inj : ∀ c < K.ncpu, ∀ c' < K.ncpu, ∀ j < K.cnt c, ∀ j' < K.cnt c', K.rqAt c j = K.rqAt c' j' →
    c = c' ∧ j = j'
  cover : ∀ t, K.Live t → ∃ c < K.ncpu, ∃ j < K.cnt c, K.rqAt c j = some t
  idle : ∀ c < K.ncpu, c ∉ S → K.cnt c = 0
  cur : ∀ c < K.ncpu, c ∈ S → ∃ t, (K.cpus c).cpuTask = some t ∧ ∃ j < K.cnt c, K.rqAt c j = some t
  next : K.nextCpu < K.ncpu
  id : ∀ t, K.Live t → (K.tasks t).taskId = t

/-- The same tasks are live and stand in the same queues. -/
structure SameQueues (K K' : Kernel) : Prop where
  ncpu : K'.ncpu = K.ncpu
  nextCpu : K'.nextCpu = K.nextCpu
  rq : ∀ c, (K'.cpus c).cpuRq = (K.cpus c).cpuRq
  free : ∀ t, (K'.tasks t).state = .free ↔ (K.tasks t).state = .free
  id : ∀ t, (K'.tasks t).taskId = (K.tasks t).taskId

namespace SameQueues

variable {K K' K'' : Kernel}

theorem refl (K : Kernel) : SameQueues K K :=
  ⟨rfl, rfl, fun _ => rfl, fun _ => Iff.rfl, fun _ => rfl⟩

theorem trans (h : SameQueues K K') (k : SameQueues K' K'') : SameQueues K K'' :=
  ⟨k.ncpu.trans h.ncpu, k.nextCpu.trans h.nextCpu, fun c => (k.rq c).trans (h.rq c),
    fun t => (k.free t).trans (h.free t), fun t => (k.id t).trans (h.id t)⟩

theorem live (h : SameQueues K K') (t : Nat) : K'.Live t ↔ K.Live t :=
  and_congr_right fun _ => not_congr (h.free t)

theorem cnt (h : SameQueues K K') (c : Nat) : K'.cnt c = K.cnt c := by
  rw [Kernel.cnt, h.rq, Kernel.cnt]

theorem rqAt (h : SameQueues K K') (c j : Nat) : K'.rqAt c j = K.rqAt c j := by
  rw [Kernel.rqAt, h.rq, Kernel.rqAt]

theorem setTask (K : Kernel) {t : Nat} {ts : Task}
    (h : ts.state = .free ↔ (K.tasks t).state = .free) (hid : ts.taskId = (K.tasks t).taskId) :
    SameQueues K (K.setTask t ts) := by
  refine ⟨rfl, rfl, fun _ => rfl, fun u => ?_, fun u => ?_⟩
  · by_cases hu : u = t
    · simp [hu, h]
    · simp [hu]
  · by_cases hu : u = t
    · simp [hu, hid]
    · simp [hu]

theorem setTf (K : Kernel) (t : Nat) (tf : Trapframe) : SameQueues K (K.setTf t tf) :=
  setTask K Iff.rfl rfl

theorem setCpuTask (K : Kernel) (c : Nat) (o : Option Nat) :
    SameQueues K (K.setCpu c { K.cpus c with cpuTask := o }) := by
  refine ⟨rfl, rfl, fun c' => ?_, fun _ => Iff.rfl, fun _ => rfl⟩
  by_cases hc : c' = c
  · simp [Kernel.setCpu, hc]
  · simp [Kernel.setCpu, hc]

end SameQueues

theorem findRunnable_some {tasks : Nat → Task} {rq : Nat → Option Nat} {n t : Nat}
    (h : findRunnable tasks rq n = some (some t)) :
    (tasks t).state = .runnable ∧ ∃ j < n, rq j = some t := by
  induction n with
  | zero => simp [findRunnable] at h
  | succ n ih =>
    rw [findRunnable] at h
    split_ifs at h
    cases hq : rq n with
    | none => simp [hq] at h
    | some u =>
      simp only [hq] at h
      split_ifs at h with hr
      · obtain rfl : u = t := by simpa using h
        exact ⟨hr, n, by omega, hq⟩
      · obtain ⟨hs, j, hj, hjt⟩ := ih h
        exact ⟨hs, j, by omega, hjt⟩

/-- `sched_yield` keeps the queues and picks a task of its own queue. -/
theorem schedYield_some {c : Nat} {K K' : Kernel} (h : schedYield c K = some K') :
    SameQueues K K' ∧ (∀ c', c' ≠ c → (K'.cpus c').cpuTask = (K.cpus c').cpuTask) ∧
      ∃ t, (K'.cpus c).cpuTask = some t ∧ ∃ j < K.cnt c, K.rqAt c j = some t := by
  simp only [schedYield, Option.bind_eq_bind, Option.bind_eq_some_iff] at h
  obtain ⟨r, hf, h⟩ := h
  cases r with
  | none => simp at h
  | some t =>
    obtain ⟨_, _, h⟩ := Option.bind_eq_some_iff.mp h
    obtain rfl := Option.some.inj h
    obtain ⟨hr, hj⟩ := findRunnable_some hf
    have h2 : SameQueues _ (K.dispatch c t) := SameQueues.setTask _ (by simp [hr]) rfl
    refine ⟨(SameQueues.setCpuTask K c (some t)).trans h2, fun c' hc => ?_, t, ?_, hj⟩
    · simp [Kernel.dispatch, Kernel.setTask, Kernel.setCpu, hc]
    · simp [Kernel.dispatch, Kernel.setTask, Kernel.setCpu]

theorem wake_some {c i : Nat} {K K' : Kernel} (h : wake c K i = some K') :
    SameQueues K K' ∧ K'.cpus = K.cpus := by
  rw [wake] at h
  split_ifs at h
  cases hq : (K.cpus c).cpuRq.rq i with
  | none => simp [hq] at h
  | some t =>
    simp only [hq] at h
    split_ifs at h with hs hz
    · obtain rfl := Option.some.inj h
      exact ⟨SameQueues.setTask K (by simp [hs]) rfl, rfl⟩
    · obtain rfl := Option.some.inj h
      exact ⟨SameQueues.setTask K (by simp) rfl, rfl⟩
    · obtain rfl := Option.some.inj h
      exact ⟨SameQueues.refl K, rfl⟩

theorem wakeAll_some {c : Nat} {is : List Nat} {K K' : Kernel}
    (h : is.foldlM (wake c) K = some K') :
    SameQueues K K' ∧ K'.cpus = K.cpus := by
  induction is generalizing K with
  | nil =>
    obtain rfl := Option.some.inj h
    exact ⟨SameQueues.refl K, rfl⟩
  | cons i is ih =>
    rw [List.foldlM_cons, Option.bind_eq_bind, Option.bind_eq_some_iff] at h
    obtain ⟨K₁, h1, h2⟩ := h
    obtain ⟨hs, hc⟩ := wake_some h1
    obtain ⟨hs', hc'⟩ := ih h2
    exact ⟨hs.trans hs', hc'.trans hc⟩

/-- Task `p` has become live and has been put at the end of the queue of CPU `c`. -/
structure Pushed (K K' : Kernel) (c p : Nat) : Prop where
  ncpu : K'.ncpu = K.ncpu
  slot : p < nrTasks ∧ (K.tasks p).state = .free
  live : ∀ t, K'.Live t ↔ t = p ∨ K.Live t
  cnt : K'.cnt c = K.cnt c + 1
  last : K'.rqAt c (K.cnt c) = some p
  front : ∀ j < K.cnt c, K'.rqAt c j = K.rqAt c j
  other : ∀ c' ≠ c, (K'.cpus c').cpuRq = (K.cpus c').cpuRq
  id : (K'.tasks p).taskId = p ∧ ∀ t ≠ p, (K'.tasks t).taskId = (K.tasks t).taskId

theorem created_taskId {K : Kernel} {cpu p : Nat} {pgdir : Word} {mem : Mem} :
    ((K.created cpu p pgdir mem).tasks p).taskId = p ∧
      ∀ t ≠ p, ((K.created cpu p pgdir mem).tasks t).taskId = (K.tasks t).taskId :=
  ⟨by simp [Kernel.created], fun t ht => by simp [Kernel.created, ht]⟩

theorem sysFork_cases {L : Image} {c t : Nat} {K K' : Kernel} {r : Int}
    (ht : (K.cpus c).cpuTask = some t) (h : sysFork L c K = some (r, K')) :
    (r = -1 ∧ SameQueues K K' ∧ K'.cpus = K.cpus) ∨
      ∃ p : Nat, r = p ∧ Pushed K K' K.nextCpu p ∧ K'.nextCpu = (K.nextCpu + 1) % K.ncpu ∧
        ∀ c', (K'.cpus c').cpuTask = (K.cpus c').cpuTask := by
  rcases sysFork_inv ht h with ⟨rfl, hc⟩ | ⟨p, pgdir, _, _, _, m₃, rfl, hp, hfree,
    _, _, _, _, hcnt, rfl⟩
  · obtain ⟨_, ⟨_, mem, q, pgdir, _, rfl⟩ | ⟨p, _, _, _, hr, _⟩⟩ := taskCreate_cases hc
    · have hs : SameQueues K { K with mem := mem, taskLock := true } :=
        ⟨rfl, rfl, fun _ => rfl, fun _ => Iff.rfl, fun _ => rfl⟩
      exact .inl ⟨rfl, hs.trans (SameQueues.setTask _ Iff.rfl rfl), rfl⟩
    · omega
  · have hs : SameQueues (K.created c p pgdir m₃) ((K.created c p pgdir m₃).setTask p
        { (K.created c p pgdir m₃).tasks p with
          tf := { ((K.created c p pgdir m₃).tasks t).tf with regEax := 0 } }) :=
      SameQueues.setTask _ Iff.rfl rfl
    have hl : ∀ u, (K.created c p pgdir m₃).Live u ↔ u = p ∨ K.Live u := fun u => live_created hp
    refine .inr ⟨p, rfl, ⟨rfl, ⟨hp, hfree⟩, fun u => (hs.live u).trans (hl u),
      ?_, ?_, fun j hj => ?_, fun c' hc' => ?_, (hs.id p).trans created_taskId.1,
      fun u hu => (hs.id u).trans (created_taskId.2 u hu)⟩, rfl, fun c' => ?_⟩
    · have h1 : (1 : Word).toNat = 1 := rfl
      have hn : nrTasks = 32 := rfl
      simp only [Kernel.cnt, Kernel.forked, Kernel.setRq, Kernel.created, setCpu_cpus, setTask_cpus,
        setTask_nextCpu, Function.update_self, BitVec.toNat_add]
      omega
    · simp [Kernel.rqAt, Kernel.cnt, Kernel.forked, Kernel.setRq, Kernel.created]
    · have hne : j ≠ (K.cpus K.nextCpu).cpuRq.cnt.toNat := Nat.ne_of_lt hj
      simp [Kernel.rqAt, Kernel.forked, Kernel.setRq, Kernel.created, hne]
    · simp [Kernel.forked, Kernel.setRq, Kernel.created, hc']
    · by_cases hc' : c' = K.nextCpu
      · simp [Kernel.forked, Kernel.setRq, Kernel.created, hc']
      · simp [Kernel.forked, Kernel.setRq, Kernel.created, hc']

theorem taskInitPercpu_some {L : Image} {c : Nat} {K K' : Kernel}
    (h : taskInitPercpu L c K = some K') (hc : K.cnt c = 0) :
    ∃ p, Pushed K K' c p ∧ K'.nextCpu = K.nextCpu ∧ (K'.cpus c).cpuTask = some p ∧
      ∀ c' ≠ c, K'.cpus c' = K.cpus c' := by
  obtain ⟨p, pgdir, _, _, m₃, hp, hfree, _, _, _, rfl⟩ := taskInitPercpu_inv h
  have hs : SameQueues (K.created c p pgdir m₃) ((K.created c p pgdir m₃).setTask p
      { (K.created c p pgdir m₃).tasks p with
        tf := { ((K.created c p pgdir m₃).tasks p).tf with
          tfEip := if c = L.bootcpu then L.userEntry else L.idleEntry }
        state := .running }) :=
    SameQueues.setTask _ (by simp [Kernel.created]) rfl
  refine ⟨p, ⟨rfl, ⟨hp, hfree⟩, fun t => ?_, ?_, ?_, ?_, fun c' hne => ?_, ?_⟩, rfl, ?_,
    fun c' hne => ?_⟩
  · exact (hs.live t).trans (live_created hp)
  · rw [hc]
    simp [Kernel.cnt, Kernel.inited]
  · rw [hc]
    simp [Kernel.rqAt, Kernel.inited]
  · simp [hc]
  · simp [Kernel.inited, Kernel.created, hne]
  · exact ⟨(hs.id p).trans created_taskId.1, fun t ht => (hs.id t).trans (created_taskId.2 t ht)⟩
  · simp [Kernel.inited]
  · simp [Kernel.inited, Kernel.created, hne]

theorem saveFrame_some {c t : Nat} {tf : Trapframe} {K K' : Kernel}
    (h : saveFrame c tf K = some (t, K')) : (K.cpus c).cpuTask = some t ∧
      K' = K.setTf t tf := by
  obtain ⟨u, hu, he⟩ := Option.map_eq_some_iff.mp h
  obtain ⟨rfl, rfl⟩ := Prod.mk.inj he
  exact ⟨hu, rfl⟩

/-- The queue that the inner loop of `sys_kill` leaves: the entries behind index `k` are moved down,
and the last one stays where it was. -/
def shiftFrom (k cnt : Nat) (rq : Nat → Option Nat) (i : Nat) : Option Nat :=
  if k ≤ i ∧ i < cnt - 1 then rq (i + 1) else rq i

section Kill

variable {tasks : Nat → Task} {pid : Int} {cnt : Nat} {rq : Nat → Option Nat}

private theorem killShift_found {n j : Nat} (hj : j + n = cnt) (hcnt : cnt ≤ nrTasks)
    (hrq : ∀ i < cnt, rq i ≠ none) :
    killShift tasks pid cnt n j true rq = some (true, shiftFrom j cnt rq) := by
  induction n generalizing j rq with
  | zero =>
    rw [killShift]
    congr 2
    funext i
    simp only [shiftFrom]
    split_ifs
    · omega
    · rfl
  | succ n ih =>
    obtain ⟨t, ht⟩ := Option.ne_none_iff_exists'.mp (hrq j (by omega))
    rw [killShift, if_neg (by omega), ht]
    simp only [Bool.true_or, true_and]
    by_cases hlast : j = cnt - 1
    · rw [if_neg (by simpa using hlast), ih (by omega) hrq]
      congr 2
      funext i
      simp only [shiftFrom]
      split_ifs <;> first | rfl | omega
    · rw [if_pos hlast, ih (by omega) ?_]
      · congr 2
        funext i
        simp only [shiftFrom, Function.update_apply]
        split_ifs <;> first | rfl | omega | simp_all
      · intro i hi
        by_cases hij : i = j
        · rw [hij, Function.update_self]
          exact hrq _ (by omega)
        · rw [Function.update_of_ne hij]
          exact hrq i hi

private theorem killShift_at {n j k : Nat} (hj : j + n = cnt) (hcnt : cnt ≤ nrTasks)
    (hrq : ∀ i < cnt, rq i ≠ none) (hjk : j ≤ k) (hk : k < cnt)
    (hbefore : ∀ i t, j ≤ i → i < k → rq i = some t → (tasks t).taskId ≠ pid)
    (hat : ∀ t, rq k = some t → (tasks t).taskId = pid) :
    killShift tasks pid cnt n j false rq = some (true, shiftFrom k cnt rq) := by
  induction n generalizing j with
  | zero => omega
  | succ n ih =>
    obtain ⟨t, ht⟩ := Option.ne_none_iff_exists'.mp (hrq j (by omega))
    by_cases hjk' : j = k
    · -- the round that finds `pid` is a round with `found` set
      have hfound : killShift tasks pid cnt (n + 1) j true rq = _ := killShift_found hj hcnt hrq
      subst hjk'
      rw [← hfound, killShift, killShift, ht]
      simp [hat t ht]
    · have hid : ¬ pid = (tasks t).taskId := fun e => hbefore j t le_rfl (by omega) ht e.symm
      rw [killShift, if_neg (by omega), ht]
      simp only [hid, decide_false, Bool.or_self, Bool.false_eq_true, false_and, if_false]
      exact ih (by omega) (by omega) fun i u hi => hbefore i u (by omega)

private theorem killShift_absent {n j : Nat} (hj : j + n = cnt) (hcnt : cnt ≤ nrTasks)
    (hrq : ∀ i < cnt, rq i ≠ none)
    (hne : ∀ i t, i < cnt → rq i = some t → (tasks t).taskId ≠ pid) :
    killShift tasks pid cnt n j false rq = some (false, rq) := by
  induction n generalizing j with
  | zero => rfl
  | succ n ih =>
    obtain ⟨t, ht⟩ := Option.ne_none_iff_exists'.mp (hrq j (by omega))
    have hid : ¬ pid = (tasks t).taskId := fun e => hne j t (by omega) ht e.symm
    rw [killShift, if_neg (by omega), ht]
    simp only [hid, decide_false, Bool.or_self, Bool.false_eq_true, false_and, if_false]
    exact ih (by omega)

/-- The loops of `sys_kill` shift the queue where `pid` stands, at index `k` of CPU
`c`, and end one CPU further. -/
theorem killLoop_at {K : Kernel} {n i c k : Nat} (hic : i ≤ c) (hcn : c < i + n)
    (hcnt : ∀ c' ≤ c, K.cnt c' ≤ nrTasks) (hrq : ∀ c' ≤ c, ∀ j < K.cnt c', K.rqAt c' j ≠ none)
    (hbefore : ∀ c' < c, ∀ j t, j < K.cnt c' → K.rqAt c' j = some t → (K.tasks t).taskId ≠ pid)
    (hk : k < K.cnt c) (hfirst : ∀ j t, j < k → K.rqAt c j = some t → (K.tasks t).taskId ≠ pid)
    (hat : ∀ t, K.rqAt c k = some t → (K.tasks t).taskId = pid) :
    killLoop pid n i K = some (c + 1, K.setRq c
      { (K.cpus c).cpuRq with rq := shiftFrom k (K.cnt c) (K.cpus c).cpuRq.rq }) := by
  induction n generalizing i with
  | zero => omega
  | succ n ih =>
    by_cases he : i = c
    · subst he
      have hs : killShift K.tasks pid (K.cnt i) (K.cnt i) 0 false (K.rqAt i) = _ :=
        killShift_at (Nat.zero_add _) (hcnt i le_rfl) (hrq i le_rfl) (Nat.zero_le k) hk
          (fun j t _ hj ht => hfirst j t hj ht) hat
      rw [killLoop]
      exact Option.bind_eq_some_iff.mpr ⟨_, hs, rfl⟩
    · have hs : killShift K.tasks pid (K.cnt i) (K.cnt i) 0 false (K.rqAt i) = _ :=
        killShift_absent (Nat.zero_add _) (hcnt i hic) (hrq i hic) (hbefore i (by omega))
      have hsame : K.setRq i { (K.cpus i).cpuRq with rq := K.rqAt i } = K := by
        change { K with cpus := Function.update K.cpus i (K.cpus i) } = K
        rw [Function.update_eq_self]
      rw [killLoop]
      refine Option.bind_eq_some_iff.mpr ⟨_, hs, ?_⟩
      exact (congrArg (killLoop pid n (i + 1)) hsame).trans (ih (by omega) (by omega))

theorem shrink_some {K K' : Kernel} {i : Nat} (h : K.shrink i = some K') :
    K'.tasks = K.tasks ∧ K'.ncpu = K.ncpu ∧ ∀ c ≠ i, K'.cpus c = K.cpus c := by
  simp only [Kernel.shrink] at h
  split_ifs at h
  · obtain rfl := Option.some.inj h
    exact ⟨rfl, rfl, fun c hc => by simp [Kernel.setRq, hc]⟩
  · obtain rfl := Option.some.inj h
    exact ⟨rfl, rfl, fun c hc => by simp [Kernel.setRq, hc]⟩

theorem sysKill_some {L : Image} {K K' : Kernel} {c t : Nat} (h : sysKill L c t K = some K')
    (h0 : 0 < t) (ht : t < nrTasks) :
    ∃ mem i K₁ K₂, killLoop t K.ncpu 0 (K.released t mem) = some (i, K₁) ∧
      K₁.shrink i = some K₂ ∧ schedYield c K₂ = some K' := by
  rw [sysKill, if_pos ⟨by omega, by omega⟩] at h
  split_ifs at h
  simp only [Option.bind_eq_bind, Option.bind_eq_some_iff] at h
  obtain ⟨mem, _, ⟨i, K₁⟩, hloop, K₂, hshrink, hyield⟩ := h
  exact ⟨mem, i, K₁, K₂, hloop, hshrink, hyield⟩

end Kill

/-- What one `task_init_percpu` keeps, over the CPUs of a list, none of them twice. `P`
has the CPUs that are set up. -/
theorem initPercpu_all {L : Image} {P : Set Nat → Kernel → Prop}
    (hstep : ∀ S K K' c, P S K → c < K.ncpu → c ∉ S → taskInitPercpu L c K = some K' →
      P (insert c S) K' ∧ K'.ncpu = K.ncpu)
    {S : Set Nat} {K K' : Kernel} {cs : List Nat} (h : P S K) (hnd : cs.Nodup)
    (hlt : ∀ c ∈ cs, c < K.ncpu) (hS : ∀ c ∈ cs, c ∉ S)
    (hi : cs.foldlM (fun K c => taskInitPercpu L c K) K = some K') :
    P (S ∪ {c | c ∈ cs}) K' ∧ K'.ncpu = K.ncpu := by
  induction cs generalizing S K with
  | nil =>
    obtain rfl := Option.some.inj hi
    simpa using h
  | cons c cs ih =>
    rw [List.foldlM_cons, Option.bind_eq_bind, Option.bind_eq_some_iff] at hi
    obtain ⟨K₁, h1, h2⟩ := hi
    obtain ⟨hc, hnd⟩ := List.nodup_cons.mp hnd
    obtain ⟨hinv, hn⟩ := hstep S K K₁ c h (hlt c (by simp)) (hS c (by simp)) h1
    have hnew : ∀ c' ∈ cs, c' ∉ insert c S := by
      intro c' hc' hm
      rcases Set.mem_insert_iff.mp hm with rfl | hm
      · exact hc hc'
      · exact hS c' (by simp [hc']) hm
    obtain ⟨hinv', hn'⟩ := ih hinv hnd (fun c' hc' => hn ▸ hlt c' (by simp [hc'])) hnew h2
    have hset : insert c S ∪ {c' | c' ∈ cs} = S ∪ {c' | c' ∈ c :: cs} := by
      ext x
      simp only [Set.mem_union, Set.mem_insert_iff, Set.mem_ofPred_eq, List.mem_cons]
      tauto
    exact ⟨hset ▸ hinv', hn'.trans hn⟩

namespace QueueInv

variable {S : Set Nat} {K K' : Kernel}

theorem cnt_le_card (h : QueueInv S K) {c : Nat} (hc : c < K.ncpu) {s : Finset Nat}
    (hs : ∀ t, K.Live t → t ∈ s) : K.cnt c ≤ s.card := by
  have hmaps : ∀ j ∈ Finset.range (K.cnt c), (K.rqAt c j).getD 0 ∈ s := by
    intro j hj
    obtain ⟨t, ht, hl⟩ := h.entry c hc j (Finset.mem_range.mp hj)
    rw [ht]
    exact hs t hl
  have hinj : Set.InjOn (fun j => (K.rqAt c j).getD 0) (Finset.range (K.cnt c) : Set Nat) := by
    intro j hj j' hj' he
    have hj := Finset.mem_range.mp hj
    have hj' := Finset.mem_range.mp hj'
    obtain ⟨t, ht, _⟩ := h.entry c hc j hj
    obtain ⟨t', ht', _⟩ := h.entry c hc j' hj'
    simp only [ht, ht', Option.getD_some] at he
    exact (h.inj c hc c hc j hj j' hj' (by rw [ht, ht', he])).2
  simpa using Finset.card_le_card_of_injOn _ hmaps hinj

theorem cnt_le (h : QueueInv S K) {c : Nat} (hc : c < K.ncpu) : K.cnt c ≤ nrTasks := by
  simpa using h.cnt_le_card hc fun t ht => Finset.mem_range.mpr ht.1

theorem partition (h : QueueInv S K) : Partition K := by
  refine ⟨fun c hc => h.cnt_le hc, h.entry, fun t ht => ?_⟩
  obtain ⟨c, hc, j, hj, he⟩ := h.cover t ht
  refine ⟨(c, j), ⟨hc, hj, he⟩, ?_⟩
  rintro ⟨c', j'⟩ ⟨hc', hj', he'⟩
  obtain ⟨rfl, rfl⟩ := h.inj c hc c' hc' j hj j' hj' (he.trans he'.symm)
  rfl

theorem congr (h : QueueInv S K) (hs : SameQueues K K')
    (hcur : ∀ c < K.ncpu, c ∈ S → ∃ t, (K'.cpus c).cpuTask = some t ∧
      ∃ j < K.cnt c, K.rqAt c j = some t) : QueueInv S K' := by
  refine ⟨?_, ?_, ?_, ?_, ?_, by rw [hs.nextCpu, hs.ncpu]; exact h.next, ?_⟩
  · simp only [hs.ncpu, hs.cnt, hs.rqAt, hs.live]
    exact h.entry
  · simp only [hs.ncpu, hs.cnt, hs.rqAt]
    exact h.inj
  · simp only [hs.ncpu, hs.cnt, hs.rqAt, hs.live]
    exact h.cover
  · simp only [hs.ncpu, hs.cnt]
    exact h.idle
  · simp only [hs.ncpu, hs.cnt, hs.rqAt]
    exact hcur
  · simp only [hs.live, hs.id]
    exact h.id

theorem congr_cpus (h : QueueInv S K) (hs : SameQueues K K') (hc : K'.cpus = K.cpus) :
    QueueInv S K' :=
  h.congr hs (by rw [hc]; exact h.cur)

theorem push (h : QueueInv S K) {S' : Set Nat} {c p : Nat} (hp : Pushed K K' c p) (hc : c < K.ncpu)
    (hS : S ⊆ S') (hcS : c ∈ S') (hnext : K'.nextCpu < K.ncpu)
    (hcur : ∀ c' < K.ncpu, c' ∈ S' → ∃ t, (K'.cpus c').cpuTask = some t ∧
      ∃ j < K'.cnt c', K'.rqAt c' j = some t) : QueueInv S' K' := by
  have hcnt : ∀ c' ≠ c, K'.cnt c' = K.cnt c' := fun c' hne => by
    rw [Kernel.cnt, hp.other c' hne, Kernel.cnt]
  have hrq : ∀ c' ≠ c, ∀ j, K'.rqAt c' j = K.rqAt c' j := fun c' hne j => by
    rw [Kernel.rqAt, hp.other c' hne, Kernel.rqAt]
  have hdead : ¬ K.Live p := fun hl => hl.2 hp.slot.2
  -- an entry is either the new one or an entry from before
  have hcase : ∀ c' < K.ncpu, ∀ j < K'.cnt c', (c' = c ∧ j = K.cnt c ∧ K'.rqAt c' j = some p) ∨
      (j < K.cnt c' ∧ K'.rqAt c' j = K.rqAt c' j) := by
    intro c' _ j hj
    by_cases hne : c' = c
    · subst hne
      rw [hp.cnt] at hj
      by_cases hjl : j = K.cnt c'
      · exact .inl ⟨rfl, hjl, hjl ▸ hp.last⟩
      · exact .inr ⟨by omega, hp.front j (by omega)⟩
    · rw [hcnt c' hne] at hj
      exact .inr ⟨hj, hrq c' hne j⟩
  have hnew : ∀ c' < K.ncpu, ∀ j < K.cnt c', K.rqAt c' j ≠ some p := by
    intro c' hc' j hj he
    obtain ⟨t, ht, hl⟩ := h.entry c' hc' j hj
    obtain rfl : t = p := Option.some.inj (ht.symm.trans he)
    exact hdead hl
  refine ⟨?_, ?_, ?_, ?_, ?_, by rw [hp.ncpu]; exact hnext, fun t ht => ?_⟩
  · intro c' hc' j hj
    rw [hp.ncpu] at hc'
    rcases hcase c' hc' j hj with ⟨_, _, he⟩ | ⟨hj', he⟩
    · exact ⟨p, he, (hp.live p).mpr (.inl rfl)⟩
    · obtain ⟨t, ht, hl⟩ := h.entry c' hc' j hj'
      exact ⟨t, he.trans ht, (hp.live t).mpr (.inr hl)⟩
  · intro c₁ hc₁ c₂ hc₂ j₁ hj₁ j₂ hj₂ he
    rw [hp.ncpu] at hc₁ hc₂
    rcases hcase c₁ hc₁ j₁ hj₁ with ⟨h1, h1', e₁⟩ | ⟨hj₁', e₁⟩ <;>
      rcases hcase c₂ hc₂ j₂ hj₂ with ⟨h2, h2', e₂⟩ | ⟨hj₂', e₂⟩
    · exact ⟨h1.trans h2.symm, h1'.trans h2'.symm⟩
    · exact absurd (e₂.symm.trans (he.symm.trans e₁)) (hnew c₂ hc₂ j₂ hj₂')
    · exact absurd (e₁.symm.trans (he.trans e₂)) (hnew c₁ hc₁ j₁ hj₁')
    · exact h.inj c₁ hc₁ c₂ hc₂ j₁ hj₁' j₂ hj₂' (e₁.symm.trans (he.trans e₂))
  · intro t ht
    rw [hp.ncpu]
    rcases (hp.live t).mp ht with rfl | hl
    · exact ⟨c, hc, K.cnt c, by rw [hp.cnt]; omega, hp.last⟩
    · obtain ⟨c', hc', j, hj, he⟩ := h.cover t hl
      by_cases hne : c' = c
      · subst hne
        exact ⟨c', hc', j, by rw [hp.cnt]; omega, by rw [hp.front j hj, he]⟩
      · exact ⟨c', hc', j, by rw [hcnt c' hne]; exact hj, by rw [hrq c' hne, he]⟩
  · intro c' hc' hn
    rw [hp.ncpu] at hc'
    rw [hcnt c' fun e => hn (e ▸ hcS)]
    exact h.idle c' hc' fun hm => hn (hS hm)
  · intro c' hc' hm
    rw [hp.ncpu] at hc'
    exact hcur c' hc' hm
  · by_cases htp : t = p
    · rw [htp]
      exact hp.id.1
    · rw [hp.id.2 t htp]
      exact h.id t (((hp.live t).mp ht).resolve_left htp)

theorem fork (h : QueueInv S K) {L : Image} {c : Nat} {r : Int} (hc : c < K.ncpu)
    (hS : ∀ c < K.ncpu, c ∈ S) (hf : sysFork L c K = some (r, K')) :
    QueueInv S K' ∧ K'.ncpu = K.ncpu := by
  obtain ⟨t, ht, _⟩ := h.cur c hc (hS c hc)
  rcases sysFork_cases ht hf with ⟨_, hs, hcpus⟩ | ⟨p, _, hp, hn, hcur⟩
  · exact ⟨h.congr_cpus hs hcpus, hs.ncpu⟩
  refine ⟨h.push hp h.next subset_rfl (hS _ h.next) ?_ fun c' hc' hm => ?_, hp.ncpu⟩
  · rw [hn]
    exact Nat.mod_lt _ (by omega)
  · obtain ⟨u, hu, j, hj, he⟩ := h.cur c' hc' hm
    refine ⟨u, by rw [hcur, hu], j, ?_⟩
    by_cases hne : c' = K.nextCpu
    · rw [hne] at hj he ⊢
      exact ⟨by rw [hp.cnt]; omega, by rw [hp.front j hj, he]⟩
    · rw [Kernel.cnt, Kernel.rqAt, hp.other c' hne]
      exact ⟨hj, he⟩

theorem yield (h : QueueInv S K) {c : Nat} (hs : schedYield c K = some K') :
    QueueInv S K' ∧ K'.ncpu = K.ncpu := by
  obtain ⟨hq, hother, ht⟩ := schedYield_some hs
  refine ⟨h.congr hq fun c' hc' hS => ?_, hq.ncpu⟩
  by_cases he : c' = c
  · rw [he]
    exact ht
  · rw [hother c' he]
    exact h.cur c' hc' hS

theorem initPercpu (h : QueueInv S K) {L : Image} {c : Nat} (hc : c < K.ncpu) (hS : c ∉ S)
    (hi : taskInitPercpu L c K = some K') : QueueInv (insert c S) K' ∧ K'.ncpu = K.ncpu := by
  have hzero := h.idle c hc hS
  obtain ⟨p, hp, hn, hcur, hother⟩ := taskInitPercpu_some hi hzero
  refine ⟨h.push hp hc (Set.subset_insert c S) (Set.mem_insert c S) (hn ▸ h.next) ?_, hp.ncpu⟩
  intro c' hc' hm
  by_cases hne : c' = c
  · rw [hne]
    exact ⟨p, hcur, K.cnt c, by rw [hp.cnt]; omega, hp.last⟩
  · rw [Kernel.cnt, hother c' hne]
    simp only [Kernel.rqAt, hother c' hne]
    exact h.cur c' hc' (Set.mem_of_mem_insert_of_ne hm hne)

theorem sleep (h : QueueInv S K) {c : Nat} {a1 : Word} (hc : c < K.ncpu) (hS : c ∈ S)
    (hs : sysSleep c a1 K = some K') : QueueInv S K' ∧ K'.ncpu = K.ncpu := by
  obtain ⟨t, ht, j, hj, he⟩ := h.cur c hc hS
  obtain ⟨u, hu, hl⟩ := h.entry c hc j hj
  obtain rfl : t = u := Option.some.inj (he.symm.trans hu)
  simp only [sysSleep, ht] at hs
  have hq : SameQueues K (K.setTask t { K.tasks t with state := .sleep, remindTicks := a1 }) :=
    SameQueues.setTask K (by simpa using hl.2) rfl
  exact (h.congr_cpus hq rfl).yield hs

theorem timer (h : QueueInv S K) {c : Nat} (hc : c < K.ncpu) (hS : c ∈ S)
    (hs : timerHandler c K = some K') : QueueInv S K' ∧ K'.ncpu = K.ncpu := by
  obtain ⟨t, ht, j, hj, he⟩ := h.cur c hc hS
  obtain ⟨u, hu, hl⟩ := h.entry c hc j hj
  obtain rfl : t = u := Option.some.inj (he.symm.trans hu)
  simp only [timerHandler, ht, Option.bind_eq_bind, Option.bind_eq_some_iff] at hs
  obtain ⟨K₁, hw, hs⟩ := hs
  obtain ⟨hq, hcpus⟩ := wakeAll_some hw
  have h1 := h.congr_cpus hq hcpus
  have hl1 : (K₁.tasks t).state ≠ .free := ((hq.live t).mpr hl).2
  rw [← hq.ncpu]
  split_ifs at hs
  · have hq₁ : SameQueues K₁ (K₁.setTask t
        { K₁.tasks t with remindTicks := (K₁.tasks t).remindTicks - 1, state := .runnable }) :=
      SameQueues.setTask K₁ (by simpa using hl1) rfl
    exact (h1.congr_cpus hq₁ rfl).yield hs
  · obtain rfl := Option.some.inj hs
    exact ⟨h1.congr_cpus (SameQueues.setTask K₁ Iff.rfl rfl) rfl, rfl⟩

theorem trap (h : QueueInv S K) {L : Image} {c : Nat} {tf : Trapframe} {call : Call}
    (hc : c < K.ncpu) (hS : ∀ c < K.ncpu, c ∈ S)
    (hk : call = .kill → ∀ t, (K.cpus c).cpuTask = some t → (K.tasks t).taskId = 0)
    (ht : K.trap L c tf call = some K') :
    QueueInv S K' ∧ K'.ncpu = K.ncpu ∧ (call = .kill → SameQueues K K') := by
  simp only [Kernel.trap, Option.bind_eq_bind, Option.bind_eq_some_iff] at ht
  obtain ⟨⟨t, K₁⟩, hsave, ht⟩ := ht
  obtain ⟨hcur, rfl⟩ := saveFrame_some hsave
  have hs₁ := SameQueues.setTf K t tf
  have h1 := h.congr_cpus hs₁ rfl
  cases call with
  | fork =>
    obtain ⟨⟨r, K₂⟩, hf, he⟩ := Option.bind_eq_some_iff.mp ht
    obtain rfl := Option.some.inj he
    obtain ⟨h2, hn⟩ := h1.fork hc hS hf
    exact ⟨h2.congr_cpus (SameQueues.setTf K₂ t _) rfl, hn, by simp⟩
  | kill =>
    have hid : ((K.setTf t tf).tasks t).taskId = 0 := by
      simpa [Kernel.setTf, Kernel.setTask] using hk rfl t hcur
    obtain ⟨K₂, hf, he⟩ := Option.bind_eq_some_iff.mp ht
    rw [hid] at hf he
    simp only [sysKill, lt_irrefl, false_and, if_false] at hf he
    obtain rfl := Option.some.inj hf
    obtain rfl := Option.some.inj he
    have hs₂ : ∀ tf', SameQueues K ((K.setTf t tf).setTf t tf') := fun tf' =>
      hs₁.trans (SameQueues.setTf _ t tf')
    exact ⟨h.congr_cpus (hs₂ _) rfl, rfl, fun _ => hs₂ _⟩
  | sleep a1 =>
    obtain ⟨h2, hn⟩ := h1.sleep hc (hS c hc) ht
    exact ⟨h2, hn, by simp⟩
  | timer =>
    obtain ⟨h2, hn⟩ := h1.timer hc (hS c hc) ht
    exact ⟨h2, hn, by simp⟩

/-- A kill that takes effect shifts the queue of the killed task without shortening it, so a dead
task stays or the last one stands there twice. -/
theorem kill_breaks (h : QueueInv S K) {L : Image} {c t : Nat} {tf : Trapframe} (hc : c < K.ncpu)
    (hS : c ∈ S) (hcur : (K.cpus c).cpuTask = some t) (h0 : (K.tasks t).taskId ≠ 0)
    (hk : K.trap L c tf .kill = some K') : ¬ Partition K' := by
  obtain ⟨u, hu, k, hkc, hkt⟩ := h.cur c hc hS
  obtain rfl : u = t := Option.some.inj (hu.symm.trans hcur)
  obtain ⟨v, hv, hl⟩ := h.entry c hc k hkc
  obtain rfl : u = v := Option.some.inj (hkt.symm.trans hv)
  have hid := h.id u hl
  have hpos : 0 < u := by
    rw [hid] at h0
    omega
  have hidf : ((K.setTf u tf).tasks u).taskId = u := by simp [Kernel.setTf, hid]
  simp only [Kernel.trap, saveFrame, hcur, Option.map_some, Option.bind_eq_bind,
    Option.bind_some, hidf, Option.bind_eq_some_iff] at hk
  obtain ⟨K₀, hkill, he⟩ := hk
  have hin : 0 < (u : Int) ∧ (u : Int) < nrTasks := ⟨by omega, by exact_mod_cast hl.1⟩
  rw [if_pos hin] at he
  rw [Option.some.inj he] at hkill
  obtain ⟨mem, i, K₁, K₂, hloop, hshrink, hyield⟩ := sysKill_some hkill hpos hl.1
  have hids : ∀ v, (((K.setTf u tf).released u mem).tasks v).taskId = (K.tasks v).taskId := by
    intro v
    by_cases hvu : v = u
    · simp [Kernel.released, Kernel.setTf, hvu]
    · simp [Kernel.released, Kernel.setTf, hvu]
  have helse : ∀ c' < K.ncpu, ∀ j < K.cnt c', (c', j) ≠ (c, k) → ∀ v, K.rqAt c' j = some v →
      (((K.setTf u tf).released u mem).tasks v).taskId ≠ u := by
    intro c' hc' j hj hne v hv' hid'
    obtain ⟨w, hw, hlw⟩ := h.entry c' hc' j hj
    obtain rfl : v = w := Option.some.inj (hv'.symm.trans hw)
    rw [hids, h.id v hlw] at hid'
    obtain rfl : v = u := by omega
    exact hne (by obtain ⟨rfl, rfl⟩ := h.inj c' hc' c hc j hj k hkc (hv'.trans hkt.symm); rfl)
  have hat : killLoop u K.ncpu 0 ((K.setTf u tf).released u mem) = _ := killLoop_at (Nat.zero_le c)
    (by omega) (fun c' hc' => h.cnt_le (show c' < K.ncpu by omega))
    (fun c' hc' j hj => by
      obtain ⟨w, hw, _⟩ := h.entry c' (by omega) j hj
      exact Option.ne_none_iff_exists'.mpr ⟨w, hw⟩)
    (fun c' hc' j v hj hv' => helse c' (by omega) j hj (fun e => by simp at e; omega) v hv') hkc
    (fun j v hj hv' => helse c hc j (by omega) (fun e => by simp at e; omega) v hv')
    (fun v hv' => by
      obtain rfl : v = u := Option.some.inj (hv'.symm.trans hkt)
      rw [hids, hid])
  obtain ⟨rfl, rfl⟩ := Prod.mk.inj (Option.some.inj (hat.symm.trans hloop))
  obtain ⟨htasks, hncpu, hcpus⟩ := shrink_some hshrink
  obtain ⟨hsame, _, _⟩ := schedYield_some hyield
  have hcpu := hcpus c (by omega)
  have hcnt : K'.cnt c = K.cnt c := by
    rw [hsame.cnt, Kernel.cnt, hcpu]
    simp [Kernel.setRq]
    rfl
  have hrq : ∀ j, K'.rqAt c j = shiftFrom k (K.cnt c) (K.rqAt c) j := by
    intro j
    rw [hsame.rqAt, Kernel.rqAt, hcpu]
    simp [Kernel.setRq]
    rfl
  have hdead : ¬ K'.Live u := by
    rw [hsame.live]
    intro hl'
    refine hl'.2 ?_
    rw [htasks]
    simp [Kernel.setRq, Kernel.released]
  have hc' : c < K'.ncpu := by
    rw [hsame.ncpu, hncpu]
    exact hc
  intro hp
  by_cases hlast : k = K.cnt c - 1
  · obtain ⟨w, hw, hlw⟩ := hp.entry c hc' k (by omega)
    rw [hrq, shiftFrom, if_neg (by omega), hkt] at hw
    obtain rfl := Option.some.inj hw
    exact hdead hlw
  · obtain ⟨w, hw, hlw⟩ := hp.entry c hc' (K.cnt c - 1) (by omega)
    have hw' : K'.rqAt c (K.cnt c - 2) = some w := by
      rw [← hw, hrq, hrq, shiftFrom, shiftFrom, if_pos (by omega), if_neg (by omega)]
      congr 1
      omega
    obtain ⟨_, _, huniq⟩ := hp.once w hlw
    have h1 := huniq (c, K.cnt c - 1) ⟨hc', by dsimp only; omega, hw⟩
    have h2 := huniq (c, K.cnt c - 2) ⟨hc', by dsimp only; omega, hw'⟩
    have h3 := congrArg Prod.snd (h1.trans h2.symm)
    dsimp only at h3
    omega

theorem init (mem : Mem) {ncpu : Nat} (hn : 1 ≤ ncpu) : QueueInv ∅ (taskInit mem ncpu) := by
  have hdead : ∀ t, ¬ (taskInit mem ncpu).Live t := fun t hl => hl.2 rfl
  have hzero : ∀ c, (taskInit mem ncpu).cnt c = 0 := fun c => rfl
  refine ⟨fun c _ j hj => ?_, fun c _ c' _ j hj => ?_, fun t ht => absurd ht (hdead t),
    fun c _ _ => hzero c, fun c _ hc => absurd hc (Set.notMem_empty c), hn,
    fun t ht => absurd ht (hdead t)⟩
  · rw [hzero] at hj
    omega
  · rw [hzero] at hj
    omega

theorem initAll (h : QueueInv S K) {L : Image} {cs : List Nat} (hnd : cs.Nodup)
    (hlt : ∀ c ∈ cs, c < K.ncpu) (hS : ∀ c ∈ cs, c ∉ S)
    (hi : cs.foldlM (fun K c => taskInitPercpu L c K) K = some K') :
    QueueInv (S ∪ {c | c ∈ cs}) K' ∧ K'.ncpu = K.ncpu :=
  initPercpu_all (fun _ _ _ _ h hc hS hi => h.initPercpu hc hS hi) h hnd hlt hS hi

end QueueInv

/-- What `sys_kill` does to the scheduler when the killed task is the last of its queue: the task
stays in the queue, and the next CPU loses the last task of its own. -/
def Control.killLast (A : Control) (c t : Nat) : Control :=
  { A.setState t .free with
    queue := Function.update A.queue (c + 1) (A.queue (c + 1)).dropLast }

namespace Shows

variable {K : Kernel} {A : Control}

theorem rqAt_eq (h : Shows K A) {c j : Nat} (hj : j < (A.queue c).length) :
    K.rqAt c j = some (A.queue c)[j] := by
  rw [Kernel.rqAt, h.rq c j hj, List.getElem?_eq_getElem hj]

theorem queue_eq (h : Shows K A) (c : Nat) : K.queue c = (A.queue c).map some := by
  refine List.ext_getElem (by simp [Kernel.queue, Kernel.cnt, h.cnt]) fun j hj _ => ?_
  have hlt : j < (A.queue c).length := by simpa [Kernel.queue, Kernel.cnt, h.cnt] using hj
  simp [Kernel.queue, h.rqAt_eq hlt]

theorem shrink (h : Shows K A) {c : Nat} (hc : c < maxCpu) (hlen : (A.queue c).length ≤ nrTasks)
    (hne : A.queue c ≠ []) :
    ∃ K', K.shrink c = some K' ∧ K'.mem = K.mem ∧ K'.tasks = K.tasks ∧ K'.taskLock = K.taskLock ∧
      Shows K' { A with queue := Function.update A.queue c (A.queue c).dropLast } := by
  have hcnt := h.cnt c
  have hpos := List.length_pos_of_ne_nil hne
  have hout : ¬ (maxCpu ≤ c ∨ nrTasks < (K.cpus c).cpuRq.cnt.toNat) := by omega
  have hzero : ¬ (K.cpus c).cpuRq.cnt = 0 := by
    intro e
    rw [e] at hcnt
    simp only [BitVec.ofNat_eq_ofNat, BitVec.toNat_ofNat, Nat.zero_mod] at hcnt
    omega
  refine ⟨K.setRq c ⟨(K.cpus c).cpuRq.cnt - 1,
    Function.update (K.cpus c).cpuRq.rq ((K.cpus c).cpuRq.cnt.toNat - 1) none⟩,
    by rw [Kernel.shrink, if_neg hout, if_neg hzero], rfl, rfl, rfl, ?_⟩
  have hcnt' : ((K.cpus c).cpuRq.cnt - 1).toNat = (A.queue c).dropLast.length := by
    rw [BitVec.toNat_sub, List.length_dropLast, hcnt]
    have h1 : (1 : Word).toNat = 1 := rfl
    have h32 : nrTasks = 32 := rfl
    omega
  have hrq' : ∀ j < (A.queue c).dropLast.length, Function.update (K.cpus c).cpuRq.rq
      ((K.cpus c).cpuRq.cnt.toNat - 1) none j = (A.queue c).dropLast[j]? := by
    intro j hj
    rw [List.length_dropLast] at hj
    rw [Function.update_of_ne (by omega), h.rq c j (by omega), List.getElem?_dropLast, if_pos hj]
  have h1 := h.setCpu c { K.cpus c with cpuRq := ⟨_, _⟩ } _ hcnt' hrq'
  have hcur : Function.update A.cur c (K.cpus c).cpuTask = A.cur := by
    rw [h.cur]
    exact Function.update_eq_self _ _
  simp only [hcur] at h1
  exact h1

/-- The loops of `sys_kill` leave a queue alone whose last task is the killed one. -/
theorem killLoop_last (h : Shows K A) {c t : Nat} {l : List Nat} (hid : (K.tasks t).taskId = t)
    (hc : c < A.ncpu) (hq : A.queue c = l ++ [t]) (hl : t ∉ l) (hbefore : ∀ c' < c, t ∉ A.queue c')
    (hlive : ∀ c' ≤ c, ∀ x ∈ A.queue c', x ≠ t → A.state x ≠ .free)
    (hlen : ∀ c' ≤ c, (A.queue c').length ≤ nrTasks) :
    killLoop t K.ncpu 0 K = some (c + 1, K) := by
  have hcnt : ∀ c', K.cnt c' = (A.queue c').length := h.cnt
  have hclen : (A.queue c).length = l.length + 1 := by simp [hq]
  have hother : ∀ c' ≤ c, ∀ j, (hj : j < (A.queue c').length) → (A.queue c')[j] ≠ t → ∀ x,
      K.rqAt c' j = some x → (K.tasks x).taskId ≠ t := by
    intro c' hc' j hj hne x hx
    rw [h.rqAt_eq hj] at hx
    obtain rfl := Option.some.inj hx
    rw [h.id _ (hlive c' hc' _ (List.getElem_mem hj) hne)]
    omega
  have hat : killLoop t K.ncpu 0 K = _ := killLoop_at (k := l.length) (Nat.zero_le c)
    (by rw [h.ncpu]; omega) (fun c' hc' => by rw [hcnt]; exact hlen c' hc') ?_ ?_
    (by rw [hcnt, hclen]; omega) ?_ ?_
  · have hsame : shiftFrom l.length (K.cnt c) (K.cpus c).cpuRq.rq = (K.cpus c).cpuRq.rq := by
      funext i
      rw [shiftFrom, if_neg (by rw [hcnt, hclen]; omega)]
    rw [hat, hsame]
    change some (c + 1, { K with cpus := Function.update K.cpus c (K.cpus c) }) = _
    rw [Function.update_eq_self]
  · intro c' _ j hj
    rw [hcnt] at hj
    rw [h.rqAt_eq hj]
    simp
  · intro c' hc' j x hj hx
    rw [hcnt] at hj
    exact hother c' hc'.le j hj (fun e => hbefore c' hc' (e ▸ List.getElem_mem hj)) x hx
  · intro j x hj hx
    have hj' : j < (A.queue c).length := by omega
    refine hother c le_rfl j hj' (fun e => hl ?_) x hx
    rw [← e]
    simp only [hq, List.getElem_append_left hj]
    exact List.getElem_mem hj
  · intro x hx
    rw [h.rqAt_eq (by omega)] at hx
    obtain rfl := Option.some.inj hx
    simpa [hq] using hid

theorem trapKill (hA : Shows K A) {L : Image} {rsv : Nat → Prop} {I : Set Nat} {fl : List Nat}
    (h : Sound L rsv I K fl) (tf : Trapframe) (c t u : Nat) {l : List Nat} (hcur : A.cur c = some t)
    (hpos : 0 < t) (ht : t < nrTasks) (hc : c < A.ncpu) (hc1 : c + 1 < maxCpu)
    (hq : A.queue c = l ++ [t]) (hl : t ∉ l) (hbefore : ∀ c' < c, t ∉ A.queue c')
    (hlive : ∀ c' ≤ c, ∀ x ∈ A.queue c', A.state x ≠ .free)
    (hlen : ∀ c' ≤ c + 1, (A.queue c').length ≤ nrTasks) (hne : A.queue (c + 1) ≠ [])
    (hu : u < nrTasks ∧ (A.killLast c t).state u ≠ .free)
    (hpick : (A.killLast c t).pick (l ++ [t]) = some u) :
    ∃ K', K.trap L c tf .kill = some K' ∧ Shows K' ((A.killLast c t).dispatch c u) := by
  have hts : A.state t ≠ .free := hlive c le_rfl t (by simp [hq])
  have hA₁ := hA.setTf t tf hts
  have hid : ((K.setTf t tf).tasks t).taskId = t := hA₁.id t hts
  obtain ⟨mem, fl', hf, h1⟩ := (h.setTf t tf).released (hA₁.live.mpr ⟨ht, hts⟩)
  have hR : Shows ((K.setTf t tf).released t mem) (A.setState t .free) :=
    (hA₁.setMem mem (K.setTf t tf).taskLock).setTask t
      { (K.setTf t tf).tasks t with state := .free } hid
  have hidR : (((K.setTf t tf).released t mem).tasks t).taskId = t := by simp [Kernel.released, hid]
  have hloop : killLoop t ((K.setTf t tf).released t mem).ncpu 0
      ((K.setTf t tf).released t mem) = _ :=
    hR.killLoop_last hidR hc hq hl hbefore
      (fun c' hc' x hx hxt => by simpa [Control.setState, hxt] using hlive c' hc' x hx)
      fun c' hc' => hlen c' (by omega)
  obtain ⟨R, hs, hm, htasks, hlock, hRA⟩ := hR.shrink hc1 (hlen (c + 1) le_rfl) hne
  have hRS : Sound L rsv I R fl' :=
    h1.congr hm hlock (fun x => by rw [htasks]) fun x => by rw [htasks]
  have hqc : (A.killLast c t).queue c = l ++ [t] := by simp [Control.killLast, hq]
  have hfind : findRunnable R.tasks (R.cpus c).cpuRq.rq (R.cpus c).cpuRq.cnt.toNat =
      some (some u) := by
    have hle : ((A.killLast c t).queue c).length ≤ nrTasks := by
      rw [hqc, ← hq]
      exact hlen c (by omega)
    rw [hRA.findRunnable_eq hle, ← hpick, ← hqc]
    rfl
  have hy := hRS.yield (hRA.live.mpr hu) hfind
  refine ⟨R.dispatch c u, ?_, hRA.dispatch c hu.2⟩
  have hin : 0 < (t : Int) ∧ (t : Int) < nrTasks := ⟨by omega, by exact_mod_cast ht⟩
  have hkill : sysKill L c t (K.setTf t tf) = some (R.dispatch c u) := by
    rw [sysKill, if_pos hin, if_neg (by simp [h.lock, Kernel.setTf, Kernel.setTask])]
    exact Option.bind_eq_some_iff.mpr ⟨mem, hf, Option.bind_eq_some_iff.mpr ⟨_, hloop,
      Option.bind_eq_some_iff.mpr ⟨R, hs, hy⟩⟩⟩
  simp only [Kernel.trap, saveFrame, (hA.cur c).trans hcur, Option.map_some, Option.bind_eq_bind,
    Option.bind_some, hid, hkill, if_pos hin]

theorem trapKillZero (hA : Shows K A) (L : Image) (tf : Trapframe) (c : Nat)
    (hcur : A.cur c = some 0) (h0 : A.state 0 ≠ .free) :
    ∃ K', K.trap L c tf .kill = some K' ∧ Shows K' A := by
  have hA₁ := hA.setTf 0 tf h0
  have hid : ((K.setTf 0 tf).tasks 0).taskId = 0 := hA₁.id 0 h0
  obtain ⟨tf', he⟩ : ∃ tf', K.trap L c tf .kill = some ((K.setTf 0 tf).setTf 0 tf') := by
    simp only [Kernel.trap, saveFrame, (hA.cur c).trans hcur, Option.map_some, Option.bind_eq_bind,
      Option.bind_some, hid, sysKill, lt_irrefl, false_and, if_false]
    exact ⟨_, rfl⟩
  exact ⟨_, he, hA₁.setTf 0 tf' h0⟩

end Shows

/-- A trap from user mode on an existing CPU, with the frame and the call that caused it. -/
def TrapStep (L : Image) (K : Kernel) (e : Nat × Trapframe × Call) (K' : Kernel) : Prop :=
  e.1 < K.ncpu ∧ K.trap L e.1 e.2.1 e.2.2 = some K'

/-- A kill, if `e` is one, comes from task 0, which `sys_kill` refuses to kill. -/
def KillByZero (K : Kernel) (e : Nat × Trapframe × Call) : Prop :=
  e.2.2 = .kill → ∀ t, (K.cpus e.1).cpuTask = some t → (K.tasks t).taskId = 0

/-- Killing `t` changes no queue but the one that holds `t`, and there it
keeps the order of the rest. -/
def KillExact (K K' : Kernel) (t : Nat) : Prop :=
  ∀ c < K.ncpu, (some t ∉ K.queue c → K'.queue c = K.queue c) ∧
    (K'.queue c).filter (· ≠ some t) = (K.queue c).filter (· ≠ some t)

theorem smallImage_sections :
    ∀ p ∈ [smallImage.utext, smallImage.udata, smallImage.ubss, smallImage.urodata], Section p := by
  simp only [List.mem_cons, List.not_mem_nil, or_false]
  rintro p (rfl | rfl | rfl | rfl) <;> exact ⟨by decide, by decide, by decide, by decide⟩

/-- Two CPUs after `task_init_percpu`: task 0 runs on the first and task 1 on the second. -/
theorem small_started :
    ∃ s₀ K₀ fl, pageInit smallBoot (bootMem smallBoot fun _ _ => 0#32) = some s₀ ∧
      [0, 1].foldlM (fun K c => taskInitPercpu smallImage c K) (taskInit s₀ 2) = some K₀ ∧
      Shows K₀ (((Control.init 2).inited 0 0).inited 1 1) ∧ 4900 ≤ fl.length ∧
      Sound smallImage (fun p => madeFree smallBoot p = false) ∅ K₀ fl := by
  obtain ⟨s₀, fl, hs₀, hlen, h0⟩ := sound_small 2
  obtain ⟨K₁, fl₁, e₁, hA₁, h1, l₁⟩ :=
    (Shows.init s₀ 2).initPercpu h0 0 0 (by decide) smallImage_sections (by omega)
  obtain ⟨K₂, fl₂, e₂, hA₂, h2, l₂⟩ :=
    hA₁.initPercpu h1 1 1 (by decide) smallImage_sections (by omega)
  refine ⟨s₀, K₂, fl₂, hs₀, ?_, hA₂, by omega, h2⟩
  simp only [List.foldlM_cons, e₁, e₂, List.foldlM_nil, Option.bind_eq_bind, Option.bind_some]
  rfl

/-- In every run in which each kill comes from task 0 the runqueues partition the live tasks, and
the next call keeps it so exactly when it is no kill of another task. -/
theorem runqueues_partition (L : Image) (mem : Mem) {ncpu : Nat} (hn : 1 ≤ ncpu) {cs : List Nat}
    (hcs : cs.Perm (List.range ncpu)) {K₀ K : Kernel} {es : List (Nat × Trapframe × Call)}
    (hinit : cs.foldlM (fun K c => taskInitPercpu L c K) (taskInit mem ncpu) = some K₀)
    (hrun : Reach (fun K e K' => TrapStep L K e K' ∧ KillByZero K e) K₀ es K) :
    Partition K ∧ ∀ e K', TrapStep L K e K' → (Partition K' ↔ KillByZero K e) ∧
      (KillByZero K e → e.2.2 = .kill → ∀ t, (K.cpus e.1).cpuTask = some t → KillExact K K' t) := by
  have hmem : ∀ c, c ∈ cs ↔ c < ncpu := fun c => by rw [hcs.mem_iff, List.mem_range]
  obtain ⟨h0, hn0⟩ := (QueueInv.init mem hn).initAll (hcs.nodup_iff.mpr List.nodup_range)
    (fun c hc => (hmem c).mp hc) (fun c _ => Set.notMem_empty c) hinit
  have hinv : K.ncpu = ncpu ∧ QueueInv (∅ ∪ {c | c ∈ cs}) K := by
    refine hrun.invariant (I := fun K => K.ncpu = ncpu ∧ QueueInv (∅ ∪ {c | c ∈ cs}) K) ⟨hn0, h0⟩ ?_
    intro K e K' hI hs
    have hS : ∀ c < K.ncpu, c ∈ (∅ ∪ {c | c ∈ cs} : Set Nat) := fun c hc =>
      .inr ((hmem c).mpr (hI.1 ▸ hc))
    obtain ⟨h1, h2, _⟩ := hI.2.trap hs.1.1 hS hs.2 hs.1.2
    exact ⟨h2.trans hI.1, h1⟩
  have hS : ∀ c < K.ncpu, c ∈ (∅ ∪ {c | c ∈ cs} : Set Nat) := fun c hc =>
    .inr ((hmem c).mpr (hinv.1 ▸ hc))
  refine ⟨hinv.2.partition, fun e K' hs => ⟨⟨fun hp => ?_, fun hk => ?_⟩, fun hk he t _ c _ => ?_⟩⟩
  · intro he t ht
    by_contra hne
    obtain ⟨c, tf, call⟩ := e
    obtain rfl : call = .kill := he
    exact hinv.2.kill_breaks hs.1 (hS c hs.1) ht hne hs.2 hp
  · exact (hinv.2.trap hs.1 hS hk hs.2).1.partition
  · obtain ⟨_, _, hsame⟩ := hinv.2.trap hs.1 hS hk hs.2
    have hq : K'.queue c = K.queue c := by
      have hsame := hsame he
      simp only [Kernel.queue, hsame.cnt, funext (hsame.rqAt c)]
    exact ⟨fun _ => hq, by rw [hq]⟩

/-- Two CPUs, three forks on the first, whose tasks go to the queues `[0, 2, 4]` and `[1, 3]`; then
task 0 sleeps and task 4 kills itself. Its entry stays, and the other CPU loses task 3. -/
theorem runqueues_partition_lost :
    ∃ s₀ K₀ K K', pageInit smallBoot (bootMem smallBoot fun _ _ => 0#32) = some s₀ ∧
      [0, 1].foldlM (fun K c => taskInitPercpu smallImage c K) (taskInit s₀ 2) = some K₀ ∧
      Reach (TrapStep smallImage) K₀ [(0, newTrapframe, .fork), (0, newTrapframe, .fork),
        (0, newTrapframe, .fork), (0, newTrapframe, .sleep 10#32)] K ∧
      K.queue 0 = [some 0, some 2, some 4] ∧ K.queue 1 = [some 1, some 3] ∧
      (K.cpus 0).cpuTask = some 4 ∧ TrapStep smallImage K (0, newTrapframe, .kill) K' ∧
      K'.queue 0 = [some 0, some 2, some 4] ∧ (K'.tasks 4).state = .free ∧
      K'.queue 1 = [some 1] ∧ (K'.tasks 3).state = .runnable ∧ ¬ Partition K' ∧
      ¬ KillExact K K' 4 := by
  obtain ⟨s₀, K₀, fl₀, hs₀, hinit, hA₀, hlen, h0⟩ := small_started
  obtain ⟨K₁, fl₁, e₁, hA₁, h1, l₁⟩ :=
    hA₀.trapFork h0 newTrapframe 0 0 2 rfl (by decide) (by decide)
    smallImage_sections (by omega) (by decide) (by decide) (by decide)
  obtain ⟨K₂, fl₂, e₂, hA₂, h2, l₂⟩ :=
    hA₁.trapFork h1 newTrapframe 0 0 3 rfl (by decide) (by decide)
    smallImage_sections (by omega) (by decide) (by decide) (by decide)
  obtain ⟨K₃, fl₃, e₃, hA₃, h3, _⟩ := hA₂.trapFork h2 newTrapframe 0 0 4 rfl (by decide) (by decide)
    smallImage_sections (by omega) (by decide) (by decide) (by decide)
  obtain ⟨K₄, e₄, hA₄, h4⟩ := hA₃.trapSleep h3 newTrapframe 10#32 0 0 4 rfl (by decide) (by decide)
    (by decide) (by decide)
  obtain ⟨K₅, e₅, hA₅⟩ := hA₄.trapKill h4 newTrapframe 0 4 2 (l := [0, 2]) rfl
    (by decide) (by decide) (by decide) (by decide) rfl (by decide) (by decide)
    (by decide) (by decide) (by decide) (by decide) (by decide)
  have hn : ∀ {K : Kernel} {A : Control}, Shows K A → A.ncpu = 2 → 0 < K.ncpu := fun h e => by
    rw [h.ncpu, e]
    decide
  have hstate : (K₅.tasks 4).state = .free := hA₅.state 4
  have hq₀ : K₅.queue 0 = [some 0, some 2, some 4] := hA₅.queue_eq 0
  have hq₁ : K₅.queue 1 = [some 1] := hA₅.queue_eq 1
  have hq₁' : K₄.queue 1 = [some 1, some 3] := hA₄.queue_eq 1
  refine ⟨s₀, K₀, K₄, K₅, hs₀, hinit, ?_, hA₄.queue_eq 0, hq₁', hA₄.cur 0, ⟨hn hA₄ rfl, e₅⟩,
    hq₀, hstate, hq₁, hA₅.state 3, fun hp => ?_, fun hk => ?_⟩
  · exact (((Reach.init.snoc ⟨hn hA₀ rfl, e₁⟩).snoc ⟨hn hA₁ rfl, e₂⟩).snoc ⟨hn hA₂ rfl, e₃⟩).snoc
      ⟨hn hA₃ rfl, e₄⟩
  · obtain ⟨t, ht, hl⟩ := hp.entry 0 (hn hA₅ rfl) 2 (by rw [Kernel.cnt, hA₅.cnt]; decide)
    rw [hA₅.rqAt_eq (by decide)] at ht
    obtain rfl := Option.some.inj ht
    exact hl.2 hstate
  · have hone := (hk 1 (by rw [hA₄.ncpu]; decide)).1 (by rw [hq₁']; decide)
    rw [hq₁, hq₁'] at hone
    simp at hone

/-- Task 0 forks, and its attempt to kill itself has no effect. -/
theorem runqueues_partition_zero :
    ∃ s₀ K₀ K, [0, 1].Perm (List.range 2) ∧
      [0, 1].foldlM (fun K c => taskInitPercpu smallImage c K) (taskInit s₀ 2) = some K₀ ∧
      Reach (fun K e K' => TrapStep smallImage K e K' ∧ KillByZero K e) K₀
        [(0, newTrapframe, .fork), (0, newTrapframe, .kill)] K ∧
      K.queue 0 = [some 0, some 2] ∧ Partition K := by
  obtain ⟨s₀, K₀, fl₀, _, hinit, hA₀, hlen, h0⟩ := small_started
  obtain ⟨K₁, fl₁, e₁, hA₁, h1, _⟩ := hA₀.trapFork h0 newTrapframe 0 0 2 rfl (by decide) (by decide)
    smallImage_sections (by omega) (by decide) (by decide) (by decide)
  obtain ⟨K₂, e₂, hA₂⟩ := hA₁.trapKillZero smallImage newTrapframe 0 rfl (by decide)
  have hperm : [0, 1].Perm (List.range 2) := .refl _
  have hfork : KillByZero K₀ (0, newTrapframe, .fork) := fun he => Call.noConfusion he
  have hkill : KillByZero K₁ (0, newTrapframe, .kill) := by
    intro _ t ht
    obtain rfl : t = 0 := Option.some.inj (ht.symm.trans (hA₁.cur 0))
    exact hA₁.id 0 (by decide)
  have hn₀ : 0 < K₀.ncpu := by rw [hA₀.ncpu]; decide
  have hn₁ : 0 < K₁.ncpu := by rw [hA₁.ncpu]; decide
  have hrun : Reach (fun K e K' => TrapStep smallImage K e K' ∧ KillByZero K e) K₀
      [(0, newTrapframe, .fork), (0, newTrapframe, .kill)] K₂ :=
    (Reach.init.snoc ⟨⟨hn₀, e₁⟩, hfork⟩).snoc ⟨⟨hn₁, e₂⟩, hkill⟩
  exact ⟨s₀, K₀, K₂, hperm, hinit, hrun, hA₂.queue_eq 0,
    (runqueues_partition smallImage s₀ (by decide) hperm hinit hrun).1⟩

end NctuCourses.Osdi
