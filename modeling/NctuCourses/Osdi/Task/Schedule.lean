import NctuCourses.Osdi.Task.Spawn

namespace NctuCourses.Osdi

open Lib

/-- What `timer_handler` does to an entry of the runqueue. -/
def Task.tick (ts : Task) : Task :=
  if ts.state = .sleep then
    if ts.remindTicks - 1 = 0 then { ts with remindTicks := ts.remindTicks - 1, state := .runnable }
    else { ts with remindTicks := ts.remindTicks - 1 }
  else ts

/-- Task `t` stands in the queue of CPU `c`. -/
def Kernel.Queued (K : Kernel) (c t : Nat) : Prop := ∃ j < K.cnt c, K.rqAt c j = some t

instance decidableQueued (K : Kernel) (c t : Nat) : Decidable (K.Queued c t) :=
  inferInstanceAs (Decidable (∃ j < K.cnt c, K.rqAt c j = some t))

/-- The state after the loop of `timer_handler`. -/
def Kernel.woken (K : Kernel) (c : Nat) : Kernel :=
  { K with tasks := fun t => if K.Queued c t then (K.tasks t).tick else K.tasks t }

theorem wake_eq {K : Kernel} {c i t : Nat} (hi : i < nrTasks) (ht : K.rqAt c i = some t) :
    wake c K i = some (K.setTask t (K.tasks t).tick) := by
  have ht' : (K.cpus c).cpuRq.rq i = some t := ht
  rw [wake, if_neg (by omega), ht']
  simp only [Task.tick]
  split
  · split <;> rfl
  · simp [Kernel.setTask]

theorem wakeAll_eq {S : Set Nat} {K : Kernel} (h : QueueInv S K) {c : Nat} (hc : c < K.ncpu) :
    (List.range (K.cnt c)).foldlM (wake c) K = some (K.woken c) := by
  have hle := h.cnt_le hc
  -- after `n` rounds the entries below `n` have been dealt with
  have hpre : ∀ n ≤ K.cnt c, (List.range n).foldlM (wake c) K = some { K with
      tasks := fun t => if ∃ j < n, K.rqAt c j = some t then (K.tasks t).tick else K.tasks t } := by
    intro n
    induction n with
    | zero =>
      intro _
      simp
    | succ n ih =>
      intro hn
      obtain ⟨t, ht, _⟩ := h.entry c hc n (by omega)
      have hfresh : ¬ ∃ j < n, K.rqAt c j = some t := by
        rintro ⟨j, hj, he⟩
        have := (h.inj c hc c hc j (by omega) n (by omega) (he.trans ht.symm)).2
        omega
      rw [List.range_succ, List.foldlM_append, ih (by omega)]
      simp only [List.foldlM_cons, List.foldlM_nil, Option.bind_eq_bind, Option.bind_some]
      rw [wake_eq (by omega) (by exact ht)]
      simp only [Option.bind_some, Option.pure_def, Option.some.injEq, Kernel.setTask,
        if_neg hfresh]
      congr 1
      funext u
      by_cases hu : u = t
      · subst hu
        rw [Function.update_self, if_pos ⟨n, by omega, ht⟩]
      · rw [Function.update_of_ne hu]
        have hiff : (∃ j < n + 1, K.rqAt c j = some u) ↔ ∃ j < n, K.rqAt c j = some u := by
          constructor
          · rintro ⟨j, hj, he⟩
            by_cases hjn : j = n
            · subst hjn
              exact absurd (Option.some.inj (he.symm.trans ht)) hu
            · exact ⟨j, by omega, he⟩
          · rintro ⟨j, hj, he⟩
            exact ⟨j, by omega, he⟩
        simp only [hiff]
  exact hpre _ le_rfl

/-- The search goes down from the end of the queue to the last runnable entry. -/
theorem findRunnable_last {tasks : Nat → Task} {rq : Nat → Option Nat} {n t : Nat}
    (h : findRunnable tasks rq n = some (some t)) :
    ∃ j < n, rq j = some t ∧ (tasks t).state = .runnable ∧
      ∀ i, j < i → i < n → ∀ u, rq i = some u → (tasks u).state ≠ .runnable := by
  induction n with
  | zero => simp [findRunnable] at h
  | succ n ih =>
    rw [findRunnable] at h
    split_ifs at h
    cases hq : rq n with
    | none => simp [hq] at h
    | some u =>
      simp only [hq] at h
      split_ifs at h with hr
      · cases h
        exact ⟨n, by omega, hq, hr, fun i hi hin => by omega⟩
      · obtain ⟨j, hj, hjt, hjr, hlast⟩ := ih h
        refine ⟨j, by omega, hjt, hjr, fun i hi hin v hv => ?_⟩
        by_cases he : i = n
        · subst he
          cases hq.symm.trans hv
          exact hr
        · exact hlast i hi (by omega) v hv

/-- In a queue without gaps the search ends, and it finds a task if there is a runnable one. -/
theorem findRunnable_iff (tasks : Nat → Task) {rq : Nat → Option Nat} {n : Nat} (hn : n ≤ nrTasks)
    (hq : ∀ j < n, ∃ t, rq j = some t) :
    (∃ t, findRunnable tasks rq n = some (some t)) ↔
      ∃ j < n, ∃ t, rq j = some t ∧ (tasks t).state = .runnable := by
  constructor
  · rintro ⟨t, ht⟩
    obtain ⟨j, hj, hjt, hr, _⟩ := findRunnable_last ht
    exact ⟨j, hj, t, hjt, hr⟩
  · intro h
    induction n with
    | zero =>
      obtain ⟨j, hj, _⟩ := h
      omega
    | succ n ih =>
      obtain ⟨u, hu⟩ := hq n (by omega)
      rw [findRunnable, if_neg (by omega), hu]
      by_cases hr : (tasks u).state = .runnable
      · exact ⟨u, if_pos hr⟩
      · obtain ⟨j, hj, t, hjt, ht⟩ := h
        have hjn : j ≠ n := fun e => hr (by
          subst e
          cases hu.symm.trans hjt
          exact ht)
        dsimp only
        rw [if_neg hr]
        exact ih (by omega) (fun i hi => hq i (by omega)) ⟨j, by omega, t, hjt, ht⟩

/-- The state in which a trap calls `sched_yield`, if it does. A kill is not considered. -/
def yieldPoint (c : Nat) (tf : Trapframe) (call : Call) (K : Kernel) : Option Kernel := do
  let (t, K) ← saveFrame c tf K
  match call with
  | .sleep a1 => some (K.setTask t { K.tasks t with state := .sleep, remindTicks := a1 })
  | .timer =>
    let K ← (List.range (K.cpus c).cpuRq.cnt.toNat).foldlM (wake c) K
    let ts : Task := { K.tasks t with remindTicks := (K.tasks t).remindTicks - 1 }
    if ts.remindTicks = 0#32 then some (K.setTask t { ts with state := .runnable }) else none
  | _ => none

theorem schedYield_found {c : Nat} {K K' : Kernel} (h : schedYield c K = some K') :
    ∃ t, findRunnable K.tasks (K.cpus c).cpuRq.rq (K.cpus c).cpuRq.cnt.toNat = some (some t) := by
  simp only [schedYield, Option.bind_eq_bind, Option.bind_eq_some_iff] at h
  obtain ⟨o, hf, h⟩ := h
  cases o with
  | none => cases h
  | some t => exact ⟨t, hf⟩

theorem saveFrame_eq {c t : Nat} {tf : Trapframe} {K : Kernel} (h : (K.cpus c).cpuTask = some t) :
    saveFrame c tf K = some (t, K.setTf t tf) := by
  rw [saveFrame, h]
  rfl

theorem trap_of_yieldPoint {L : Image} {c : Nat} {tf : Trapframe} {call : Call} {K K₁ : Kernel}
    (h : yieldPoint c tf call K = some K₁) : K.trap L c tf call = schedYield c K₁ := by
  simp only [yieldPoint, Option.bind_eq_bind, Option.bind_eq_some_iff] at h
  obtain ⟨⟨t, K₂⟩, hs, h⟩ := h
  obtain ⟨hcur, rfl⟩ := saveFrame_some hs
  have hcur' : ((K.setTf t tf).cpus c).cpuTask = some t := hcur
  simp only [Kernel.trap, hs, Option.bind_eq_bind, Option.bind_some]
  cases call with
  | fork => cases h
  | kill => cases h
  | sleep a1 =>
    cases h
    simp only [sysSleep, hcur']
  | timer =>
    obtain ⟨K₃, hw, h⟩ := Option.bind_eq_some_iff.mp h
    simp only [timerHandler, hcur', Option.bind_eq_bind]
    rw [hw]
    dsimp only at h
    split_ifs at h with hz
    cases h
    simp only [Option.bind_some]
    exact if_pos hz

/-- The state that the tasks of the running system are in, for the CPUs in `S` that have been set
up: each CPU runs its current task and no other task of its queue. -/
structure SchedInv (S : Set Nat) (K : Kernel) : Prop where
  queues : QueueInv S K
  running : ∀ c < K.ncpu, c ∈ S → ∀ t, K.Queued c t →
    ((K.tasks t).state = .running ↔ (K.cpus c).cpuTask = some t)
  pgdir : ∀ t, K.Live t → kernbase ≤ (K.tasks t).pgdir
  npages : K.mem.npages ≤ 65536

/-- The same in the moment when CPU `c` is about to choose a task. -/
structure YieldInv (S : Set Nat) (c : Nat) (K : Kernel) : Prop where
  queues : QueueInv S K
  running : ∀ c' < K.ncpu, c' ∈ S → c' ≠ c → ∀ t, K.Queued c' t →
    ((K.tasks t).state = .running ↔ (K.cpus c').cpuTask = some t)
  resting : ∀ t, K.Queued c t → (K.tasks t).state ≠ .running
  pgdir : ∀ t, K.Live t → kernbase ≤ (K.tasks t).pgdir
  npages : K.mem.npages ≤ 65536

theorem SameQueues.queued {K K' : Kernel} (h : SameQueues K K') (c t : Nat) :
    K'.Queued c t ↔ K.Queued c t := by
  simp only [Kernel.Queued, h.cnt, h.rqAt]

theorem QueueInv.queued_live {S : Set Nat} {K : Kernel} (h : QueueInv S K) {c t : Nat}
    (hc : c < K.ncpu) (ht : K.Queued c t) : K.Live t := by
  obtain ⟨j, hj, he⟩ := ht
  obtain ⟨u, hu, hl⟩ := h.entry c hc j hj
  cases he.symm.trans hu
  exact hl

theorem QueueInv.queued_unique {S : Set Nat} {K : Kernel} (h : QueueInv S K) {c c' t : Nat}
    (hc : c < K.ncpu) (hc' : c' < K.ncpu) (ht : K.Queued c t) (ht' : K.Queued c' t) : c = c' := by
  obtain ⟨j, hj, he⟩ := ht
  obtain ⟨j', hj', he'⟩ := ht'
  exact (h.inj c hc c' hc' j hj j' hj' (he.trans he'.symm)).1

theorem QueueInv.queued_cur {S : Set Nat} {K : Kernel} (h : QueueInv S K) {c t : Nat}
    (hc : c < K.ncpu) (hS : c ∈ S) (ht : (K.cpus c).cpuTask = some t) : K.Queued c t := by
  obtain ⟨u, hu, hq⟩ := h.cur c hc hS
  cases ht.symm.trans hu
  exact hq

namespace YieldInv

variable {S : Set Nat} {c : Nat} {K : Kernel}

/-- The search succeeds exactly when some entry of the queue is runnable. -/
theorem finds_iff (h : YieldInv S c K) (hc : c < K.ncpu) :
    (∃ t, findRunnable K.tasks (K.cpus c).cpuRq.rq (K.cpus c).cpuRq.cnt.toNat = some (some t)) ↔
      ∃ t, K.Queued c t ∧ (K.tasks t).state = .runnable := by
  have hiff := findRunnable_iff K.tasks (h.queues.cnt_le hc)
    fun j hj => (h.queues.entry c hc j hj).imp fun _ => And.left
  refine Iff.trans hiff ?_
  constructor
  · rintro ⟨j, hj, t, hjt, hr⟩
    exact ⟨t, ⟨j, hj, hjt⟩, hr⟩
  · rintro ⟨t, ⟨j, hj, hjt⟩, hr⟩
    exact ⟨j, hj, t, hjt, hr⟩

theorem schedYield (h : YieldInv S c K) (hc : c < K.ncpu) {t : Nat}
    (hf : findRunnable K.tasks (K.cpus c).cpuRq.rq (K.cpus c).cpuRq.cnt.toNat = some (some t)) :
    schedYield c K = some (K.dispatch c t) ∧ SchedInv S (K.dispatch c t) := by
  obtain ⟨j, hj, hjt, hr, _⟩ := findRunnable_last hf
  have hq : K.Queued c t := ⟨j, hj, hjt⟩
  have hl := h.queues.queued_live hc hq
  have hpa : paddr (K.tasks t).pgdir = some ((K.tasks t).pgdir - kernbase) :=
    if_neg (BitVec.not_lt.mpr (h.pgdir t hl))
  have hy : Osdi.schedYield c K = some (K.dispatch c t) := by
    simp only [Osdi.schedYield, hf, hpa, Option.bind_eq_bind, Option.bind_some]
  have hsame := (schedYield_some hy).1
  have hcpus : ∀ c', ((K.dispatch c t).cpus c').cpuTask =
      if c' = c then some t else (K.cpus c').cpuTask := by
    intro c'
    by_cases hcc : c' = c
    · simp [Kernel.dispatch, hcc]
    · simp [Kernel.dispatch, hcc]
  have htasks : ∀ u, u ≠ t → (K.dispatch c t).tasks u = K.tasks u := by
    intro u hu
    simp [Kernel.dispatch, hu]
  refine ⟨hy, (h.queues.yield hy).1, fun c' hc' hS u hu => ?_, fun u hu => ?_, h.npages⟩
  · rw [hsame.queued] at hu
    rw [hcpus c']
    by_cases hcc : c' = c
    · subst hcc
      rw [if_pos rfl]
      by_cases hut : u = t
      · subst hut
        simp [Kernel.dispatch]
      · rw [htasks u hut]
        exact iff_of_false (h.resting u hu) fun he => hut (Option.some.inj he).symm
    · have hut : u ≠ t := by
        intro e
        subst e
        exact hcc (h.queues.queued_unique hc' hc hu hq)
      rw [if_neg hcc, htasks u hut]
      exact h.running c' hc' hS hcc u hu
  · by_cases hut : u = t
    · subst hut
      simpa [Kernel.dispatch] using h.pgdir u hl
    · rw [htasks u hut]
      exact h.pgdir u ((hsame.live u).mp hu)

end YieldInv

theorem tick_awake {ts : Task} (h : ts.state ≠ .sleep) : ts.tick = ts := if_neg h

theorem tick_running {ts : Task} (h : ts.state = .running) : ts.tick = ts :=
  tick_awake (by rw [h]; decide)

theorem tick_last {ts : Task} (h : ts.state = .sleep) (hz : ts.remindTicks - 1 = 0) :
    ts.tick = { ts with remindTicks := ts.remindTicks - 1, state := .runnable } := by
  rw [Task.tick, if_pos h, if_pos hz]

theorem tick_sleep {ts : Task} (h : ts.state = .sleep) (hz : ts.remindTicks - 1 ≠ 0) :
    ts.tick = { ts with remindTicks := ts.remindTicks - 1 } := by
  rw [Task.tick, if_pos h, if_neg hz]

theorem tick_state {ts : Task} : ts.tick.state = ts.state ∨
    (ts.state = .sleep ∧ ts.remindTicks - 1 = 0 ∧ ts.tick.state = .runnable) := by
  simp only [Task.tick]
  split_ifs with hs hz
  · exact .inr ⟨hs, hz, rfl⟩
  · exact .inl rfl
  · exact .inl rfl

theorem tick_pgdir (ts : Task) : ts.tick.pgdir = ts.pgdir := by
  simp only [Task.tick]
  split_ifs <;> rfl

theorem tick_taskId (ts : Task) : ts.tick.taskId = ts.taskId := by
  simp only [Task.tick]
  split_ifs <;> rfl

theorem SameQueues.woken (K : Kernel) (c : Nat) : SameQueues K (K.woken c) := by
  refine ⟨rfl, rfl, fun _ => rfl, fun t => ?_, fun t => ?_⟩
  · simp only [Kernel.woken]
    split_ifs with hq
    · obtain he | ⟨hs, _, he⟩ := @tick_state (K.tasks t)
      · rw [he]
      · rw [he, hs]
        decide
    · rfl
  · simp only [Kernel.woken]
    split_ifs with hq
    · exact tick_taskId _
    · rfl

namespace SchedInv

variable {S : Set Nat} {K K' : Kernel} {L : Image} {c t : Nat} {tf : Trapframe}

theorem cur_running (h : SchedInv S K) (hc : c < K.ncpu) (hS : c ∈ S)
    (ht : (K.cpus c).cpuTask = some t) :
    K.Queued c t ∧ K.Live t ∧ (K.tasks t).state = .running := by
  have hq := h.queues.queued_cur hc hS ht
  exact ⟨hq, h.queues.queued_live hc hq, (h.running c hc hS t hq).mpr ht⟩

theorem congr (h : SchedInv S K) (hs : SameQueues K K') (hcpus : K'.cpus = K.cpus)
    (hmem : K'.mem = K.mem)
    (hst : ∀ u, (K'.tasks u).state = .running ↔ (K.tasks u).state = .running)
    (hpg : ∀ u, (K'.tasks u).pgdir = (K.tasks u).pgdir) : SchedInv S K' := by
  refine ⟨h.queues.congr_cpus hs hcpus, fun c hc hS u hu => ?_, fun u hu => ?_, hmem ▸ h.npages⟩
  · rw [hst, hcpus]
    exact h.running c (hs.ncpu ▸ hc) hS u ((hs.queued c u).mp hu)
  · rw [hpg]
    exact h.pgdir u ((hs.live u).mp hu)

theorem setTf (h : SchedInv S K) (t : Nat) (tf : Trapframe) : SchedInv S (K.setTf t tf) := by
  apply h.congr (SameQueues.setTf K t tf) rfl rfl
  · intro u
    by_cases hu : u = t
    · simp [Kernel.setTf, hu]
    · simp [Kernel.setTf, hu]
  · intro u
    by_cases hu : u = t
    · simp [Kernel.setTf, hu]
    · simp [Kernel.setTf, hu]

theorem woken (h : SchedInv S K) (c : Nat) : SchedInv S (K.woken c) := by
  apply h.congr (SameQueues.woken K c) rfl rfl
  · intro u
    simp only [Kernel.woken]
    split_ifs with hq
    · obtain he | ⟨hs, _, he⟩ := @tick_state (K.tasks u)
      · rw [he]
      · rw [he, hs]
        decide
    · rfl
  · intro u
    simp only [Kernel.woken]
    split_ifs with hq
    · exact tick_pgdir _
    · rfl

theorem rest (h : SchedInv S K) (hc : c < K.ncpu) (hS : c ∈ S) (ht : (K.cpus c).cpuTask = some t)
    {ts : Task} (hfree : ts.state ≠ .free) (hrun : ts.state ≠ .running)
    (hid : ts.taskId = (K.tasks t).taskId) (hpg : ts.pgdir = (K.tasks t).pgdir) :
    YieldInv S c (K.setTask t ts) := by
  obtain ⟨hq, hl, _⟩ := h.cur_running hc hS ht
  have hs : SameQueues K (K.setTask t ts) :=
    SameQueues.setTask K (iff_of_false hfree hl.2) hid
  refine ⟨h.queues.congr_cpus hs rfl, fun c' hc' hS' hne u hu => ?_, fun u hu => ?_, fun u hu => ?_,
    h.npages⟩
  · rw [hs.queued] at hu
    have hut : u ≠ t := by
      intro e
      subst e
      exact hne (h.queues.queued_unique hc' hc hu hq)
    simpa [hut] using h.running c' hc' hS' u hu
  · rw [hs.queued] at hu
    by_cases hut : u = t
    · simpa [hut] using hrun
    · simp only [setTask_tasks, Function.update_of_ne hut, ne_eq]
      intro hr
      exact hut (Option.some.inj (((h.running c hc hS u hu).mp hr).symm.trans ht))
  · rw [hs.live] at hu
    by_cases hut : u = t
    · simpa [hut, hpg] using h.pgdir t hl
    · simpa [hut] using h.pgdir u hu

theorem yieldPoint_sleep (ht : (K.cpus c).cpuTask = some t) (tf : Trapframe) (a1 : Word) :
    yieldPoint c tf (.sleep a1) K = some ((K.setTf t tf).setTask t
      { (K.setTf t tf).tasks t with state := .sleep, remindTicks := a1 }) := by
  simp only [yieldPoint, saveFrame_eq ht, Option.bind_eq_bind, Option.bind_some]

theorem timer_woken (h : SchedInv S K) (hc : c < K.ncpu) (hS : c ∈ S)
    (ht : (K.cpus c).cpuTask = some t) (tf : Trapframe) :
    (List.range (K.cnt c)).foldlM (wake c) (K.setTf t tf) = some ((K.setTf t tf).woken c) ∧
      ((K.setTf t tf).woken c).tasks t = { K.tasks t with tf := tf } := by
  refine ⟨wakeAll_eq (h.setTf t tf).queues hc, ?_⟩
  have hr := (h.cur_running hc hS ht).2.2
  have hts : (K.setTf t tf).tasks t = { K.tasks t with tf := tf } := by simp [Kernel.setTf]
  simp only [Kernel.woken]
  split_ifs
  · rw [tick_running (by rw [hts]; exact hr), hts]
  · exact hts

theorem yieldPoint_timer (h : SchedInv S K) (hc : c < K.ncpu) (hS : c ∈ S)
    (ht : (K.cpus c).cpuTask = some t) (tf : Trapframe) :
    yieldPoint c tf .timer K = if (K.tasks t).remindTicks - 1 = 0#32 then
      some (((K.setTf t tf).woken c).setTask t { K.tasks t with
        tf := tf, remindTicks := (K.tasks t).remindTicks - 1, state := .runnable }) else none := by
  obtain ⟨hw, hts⟩ := h.timer_woken hc hS ht tf
  have hw' : (List.range ((K.setTf t tf).cpus c).cpuRq.cnt.toNat).foldlM (wake c) (K.setTf t tf) =
      some ((K.setTf t tf).woken c) := hw
  simp only [yieldPoint, saveFrame_eq ht, Option.bind_eq_bind, Option.bind_some, hw', hts]

theorem trap_timer (h : SchedInv S K) (hc : c < K.ncpu) (hS : c ∈ S)
    (ht : (K.cpus c).cpuTask = some t) (hz : (K.tasks t).remindTicks - 1 ≠ 0#32) :
    K.trap L c tf .timer = some (((K.setTf t tf).woken c).setTask t
      { K.tasks t with tf := tf, remindTicks := (K.tasks t).remindTicks - 1 }) := by
  obtain ⟨hw, hts⟩ := h.timer_woken hc hS ht tf
  have hw' : (List.range ((K.setTf t tf).cpus c).cpuRq.cnt.toNat).foldlM (wake c) (K.setTf t tf) =
      some ((K.setTf t tf).woken c) := hw
  have ht' : ((K.setTf t tf).cpus c).cpuTask = some t := ht
  simp only [Kernel.trap, saveFrame_eq ht, Option.bind_eq_bind, Option.bind_some, timerHandler, ht',
    hw', hts]
  exact if_neg hz

theorem yieldPoint (h : SchedInv S K) (hc : c < K.ncpu) (hS : c ∈ S) {call : Call} {K₁ : Kernel}
    (hy : yieldPoint c tf call K = some K₁) : YieldInv S c K₁ := by
  obtain ⟨t, ht, _⟩ := h.queues.cur c hc hS
  cases call with
  | fork => simp [Osdi.yieldPoint] at hy
  | kill => simp [Osdi.yieldPoint] at hy
  | sleep a1 =>
    rw [yieldPoint_sleep ht] at hy
    cases hy
    exact (h.setTf t tf).rest hc hS ht (by simp) (by simp) rfl rfl
  | timer =>
    have hts := (h.timer_woken hc hS ht tf).2
    rw [h.yieldPoint_timer hc hS ht] at hy
    split_ifs at hy
    cases hy
    exact ((h.setTf t tf).woken c).rest hc hS ht (by simp) (by simp) (by rw [hts]) (by rw [hts])

theorem yieldPoint_same (h : SchedInv S K) (hc : c < K.ncpu) (hS : c ∈ S) {call : Call}
    {K₁ : Kernel} (hy : Osdi.yieldPoint c tf call K = some K₁) :
    SameQueues K K₁ ∧ K₁.cpus = K.cpus := by
  obtain ⟨t, ht, _⟩ := h.queues.cur c hc hS
  have hl := (h.cur_running hc hS ht).2.1.2
  have hs := SameQueues.setTf K t tf
  cases call with
  | fork => simp [Osdi.yieldPoint] at hy
  | kill => simp [Osdi.yieldPoint] at hy
  | sleep a1 =>
    rw [yieldPoint_sleep ht] at hy
    cases hy
    refine ⟨hs.trans (SameQueues.setTask _ ?_ rfl), rfl⟩
    simpa [Kernel.setTf] using hl
  | timer =>
    have hts := (h.timer_woken hc hS ht tf).2
    rw [h.yieldPoint_timer hc hS ht] at hy
    split_ifs at hy
    cases hy
    refine ⟨(hs.trans (SameQueues.woken _ c)).trans (SameQueues.setTask _ ?_ (by rw [hts])), rfl⟩
    simpa [hts] using hl

theorem fork (h : SchedInv S K) (hc : c < K.ncpu) (hS : ∀ c < K.ncpu, c ∈ S) {r : Int}
    (hf : sysFork L c K = some (r, K')) : SchedInv S K' := by
  obtain ⟨t, ht, _⟩ := h.queues.cur c hc (hS c hc)
  have hsp := sysFork_spawned h.npages ht hf
  obtain ⟨hq, hn⟩ := h.queues.fork hc hS hf
  have hnp : K'.mem.npages ≤ 65536 := hsp.npages ▸ h.npages
  have hpg : ∀ u, K'.Live u → kernbase ≤ (K'.tasks u).pgdir := by
    intro u hu
    by_cases hfree : (K.tasks u).state = .free
    · obtain he | ⟨_, _, he⟩ := hsp.new u hfree
      · exact absurd he hu.2
      · exact he
    · rw [hsp.old u hfree]
      exact h.pgdir u ⟨hu.1, hfree⟩
  refine ⟨hq, fun c' hc' hS' u hu => ?_, hpg, hnp⟩
  rw [hn] at hc'
  rcases sysFork_cases ht hf with ⟨_, hs, hcpus⟩ | ⟨p, _, hp, _, hcur⟩
  · rw [hs.queued] at hu
    rw [hsp.old u (h.queues.queued_live hc' hu).2, hcpus]
    exact h.running c' hc' hS' u hu
  · rw [hcur]
    by_cases hup : u = p
    · subst hup
      refine iff_of_false (fun hr => ?_) fun he => ?_
      · obtain hf' | ⟨hst, _⟩ := hsp.new u hp.slot.2
        · rw [hf'] at hr
          cases hr
        · rw [hst] at hr
          cases hr
      · exact (h.cur_running hc' hS' he).2.1.2 hp.slot.2
    · have hu' : K.Queued c' u := by
        obtain ⟨j, hj, he⟩ := hu
        by_cases hne : c' = K.nextCpu
        · subst hne
          rw [hp.cnt] at hj
          by_cases hjl : j = K.cnt K.nextCpu
          · subst hjl
            exact absurd (Option.some.inj (he.symm.trans hp.last)) hup
          · exact ⟨j, by omega, by rw [← hp.front j (by omega), he]⟩
        · rw [Kernel.cnt, hp.other c' hne] at hj
          rw [Kernel.rqAt, hp.other c' hne] at he
          exact ⟨j, hj, he⟩
      rw [hsp.old u (h.queues.queued_live hc' hu').2]
      exact h.running c' hc' hS' u hu'

theorem trap (h : SchedInv S K) (hc : c < K.ncpu) (hS : ∀ c < K.ncpu, c ∈ S) {call : Call}
    (hk : call ≠ .kill) (hs : K.trap L c tf call = some K') : SchedInv S K' ∧ K'.ncpu = K.ncpu := by
  have hn := (h.queues.trap hc hS (fun he => absurd he hk) hs).2.1
  refine ⟨?_, hn⟩
  obtain ⟨t, ht, _⟩ := h.queues.cur c hc (hS c hc)
  cases hy : Osdi.yieldPoint c tf call K with
  | some K₁ =>
    have hK₁ := h.yieldPoint hc (hS c hc) hy
    rw [trap_of_yieldPoint hy] at hs
    have hn₁ := (h.yieldPoint_same hc (hS c hc) hy).1.ncpu
    obtain ⟨u, hf⟩ := schedYield_found hs
    obtain ⟨he, hinv⟩ := hK₁.schedYield (hn₁ ▸ hc) hf
    cases he.symm.trans hs
    exact hinv
  | none =>
    cases call with
    | kill => exact absurd rfl hk
    | sleep a1 => simp [yieldPoint_sleep ht] at hy
    | timer =>
      have hts := (h.timer_woken hc (hS c hc) ht tf).2
      rw [h.yieldPoint_timer hc (hS c hc) ht] at hy
      split_ifs at hy with hz
      rw [h.trap_timer hc (hS c hc) ht hz] at hs
      cases hs
      apply ((h.setTf t tf).woken c).congr (SameQueues.setTask _ (by rw [hts])
        (by rw [hts])) rfl rfl
      · intro u
        by_cases hu : u = t
        · simp [hu, hts]
        · simp [hu]
      · intro u
        by_cases hu : u = t
        · simp [hu, hts]
        · simp [hu]
    | fork =>
      simp only [Kernel.trap, saveFrame_eq ht, Option.bind_eq_bind, Option.bind_some] at hs
      obtain ⟨⟨r, K₂⟩, hf, he⟩ := Option.bind_eq_some_iff.mp hs
      cases he
      exact ((h.setTf t tf).fork hc hS hf).setTf t _

theorem init (mem : Mem) {ncpu : Nat} (hn : 1 ≤ ncpu) (hnp : mem.npages ≤ 65536) :
    SchedInv ∅ (taskInit mem ncpu) := by
  refine ⟨QueueInv.init mem hn, fun c _ hc => absurd hc (Set.notMem_empty c), fun t ht => ?_, hnp⟩
  exact absurd rfl ht.2

theorem initPercpu (h : SchedInv S K) (hc : c < K.ncpu) (hS : c ∉ S)
    (hi : taskInitPercpu L c K = some K') : SchedInv (insert c S) K' ∧ K'.ncpu = K.ncpu := by
  obtain ⟨hq, hn⟩ := h.queues.initPercpu hc hS hi
  have hsp := taskInitPercpu_spawned h.npages hi
  obtain ⟨p, hp, _, hcur, hother⟩ := taskInitPercpu_some hi (h.queues.idle c hc hS)
  refine ⟨⟨hq, fun c' hc' hS' u hu => ?_, fun u hu => ?_, hsp.npages ▸ h.npages⟩, hn⟩
  · rw [hn] at hc'
    by_cases hcc : c' = c
    · subst hcc
      obtain ⟨j, hj, he⟩ := hu
      rw [hp.cnt, h.queues.idle c' hc hS] at hj
      have hj0 : j = K.cnt c' := by
        rw [h.queues.idle c' hc hS]
        omega
      rw [hj0, hp.last] at he
      cases he
      obtain hf | ⟨hst, _⟩ := hsp.new p hp.slot.2
      · exact absurd hf ((hp.live p).mpr (.inl rfl)).2
      · exact iff_of_true hst hcur
    · have hu' : K.Queued c' u := by
        obtain ⟨j, hj, he⟩ := hu
        rw [Kernel.cnt, hother c' hcc] at hj
        rw [Kernel.rqAt, hother c' hcc] at he
        exact ⟨j, hj, he⟩
      rw [hsp.old u (h.queues.queued_live hc' hu').2, hother c' hcc]
      exact h.running c' hc' (Set.mem_of_mem_insert_of_ne hS' hcc) u hu'
  · by_cases hfree : (K.tasks u).state = .free
    · obtain he | ⟨_, _, he⟩ := hsp.new u hfree
      · exact absurd he hu.2
      · exact he
    · rw [hsp.old u hfree]
      exact h.pgdir u ⟨hu.1, hfree⟩

theorem initAll (h : SchedInv S K) {cs : List Nat} (hnd : cs.Nodup)
    (hlt : ∀ c ∈ cs, c < K.ncpu) (hS : ∀ c ∈ cs, c ∉ S)
    (hi : cs.foldlM (fun K c => taskInitPercpu L c K) K = some K') :
    SchedInv (S ∪ {c | c ∈ cs}) K' ∧ K'.ncpu = K.ncpu :=
  initPercpu_all (fun _ _ _ _ h hc hS hi => h.initPercpu hc hS hi) h hnd hlt hS hi

end SchedInv

/-- `task_init_percpu` has run once on each of `ncpu` CPUs, in some order. -/
def Started (L : Image) (mem : Mem) (ncpu : Nat) (K : Kernel) : Prop :=
  ∃ cs : List Nat, cs.Perm (List.range ncpu) ∧
    cs.foldlM (fun K c => taskInitPercpu L c K) (taskInit mem ncpu) = some K

/-- A trap other than a kill. -/
def RunStep (L : Image) (K : Kernel) (e : Nat × Trapframe × Call) (K' : Kernel) : Prop :=
  TrapStep L K e K' ∧ e.2.2 ≠ .kill

/-- The invariant of the running system, in which all CPUs have been set up. -/
structure Scheduled (ncpu : Nat) (K : Kernel) : Prop extends SchedInv {c | c < ncpu} K where
  ncpu_eq : K.ncpu = ncpu

theorem Started.scheduled {L : Image} {mem : Mem} {ncpu : Nat} {K : Kernel}
    (h : Started L mem ncpu K) (hn : 1 ≤ ncpu) (hnp : mem.npages ≤ 65536) : Scheduled ncpu K := by
  obtain ⟨cs, hcs, hi⟩ := h
  have hmem : ∀ c, c ∈ cs ↔ c < ncpu := fun c => by rw [hcs.mem_iff, List.mem_range]
  obtain ⟨h0, hn0⟩ := (SchedInv.init mem hn hnp).initAll (hcs.nodup_iff.mpr List.nodup_range)
    (fun c hc => (hmem c).mp hc) (fun c _ => Set.notMem_empty c) hi
  have hset : (∅ ∪ {c | c ∈ cs} : Set Nat) = {c | c < ncpu} := by
    ext c
    simp [hmem]
  exact ⟨hset ▸ h0, hn0⟩

theorem Scheduled.step {L : Image} {ncpu : Nat} {K K' : Kernel} {e : Nat × Trapframe × Call}
    (h : Scheduled ncpu K) (hs : RunStep L K e K') : Scheduled ncpu K' := by
  obtain ⟨⟨hc, ht⟩, hk⟩ := hs
  obtain ⟨h1, hn⟩ := h.trap hc (fun c hc => h.ncpu_eq ▸ hc) hk ht
  exact ⟨h1, hn.trans h.ncpu_eq⟩

theorem Scheduled.run {L : Image} {ncpu : Nat} {K K' : Kernel} {es : List (Nat × Trapframe × Call)}
    (h : Scheduled ncpu K) (hr : Reach (RunStep L) K es K') : Scheduled ncpu K' :=
  hr.invariant h fun _ _ _ hK hs => hK.step hs

/-- If the trap is a sleep, some other task of the queue is runnable. -/
def SleepCovered (K : Kernel) (e : Nat × Trapframe × Call) : Prop :=
  ∀ a1, e.2.2 = .sleep a1 → ∃ u, K.Queued e.1 u ∧ (K.cpus e.1).cpuTask ≠ some u ∧
    (K.tasks u).state = .runnable

/-- Where `sched_yield` is called, a task of the queue is runnable unless the last task that could
run has gone to sleep. -/
theorem Scheduled.runnable_iff {ncpu : Nat} {K K₁ : Kernel} {e : Nat × Trapframe × Call}
    (h : Scheduled ncpu K) (hc : e.1 < ncpu) (hy : yieldPoint e.1 e.2.1 e.2.2 K = some K₁) :
    (∃ u, K₁.Queued e.1 u ∧ (K₁.tasks u).state = .runnable) ↔ SleepCovered K e := by
  obtain ⟨c, tf, call⟩ := e
  have hc' : c < K.ncpu := h.ncpu_eq ▸ hc
  obtain ⟨t, ht, _⟩ := h.queues.cur c hc' hc
  have hq := (h.cur_running hc' hc ht).1
  cases call with
  | fork => simp [yieldPoint] at hy
  | kill => simp [yieldPoint] at hy
  | timer =>
    simp only at hy
    rw [h.yieldPoint_timer hc' hc ht] at hy
    split_ifs at hy
    cases hy
    refine iff_of_true ⟨t, ?_, by simp⟩ fun a1 he => by cases he
    have hs := SameQueues.woken (K.setTf t tf) c
    exact (hs.queued c t).mpr (((SameQueues.setTf K t tf).queued c t).mpr hq)
  | sleep a1 =>
    simp only at hy
    rw [SchedInv.yieldPoint_sleep ht] at hy
    cases hy
    have hother : ∀ u, u ≠ t → ((K.setTf t tf).setTask t
        { (K.setTf t tf).tasks t with state := .sleep, remindTicks := a1 }).tasks u =
          K.tasks u := by
      intro u hu
      simp [Kernel.setTf, hu]
    constructor
    · rintro ⟨u, hu, hr⟩ _ _
      have hut : u ≠ t := by
        intro e
        subst e
        simp at hr
      refine ⟨u, hu, ?_, by rw [← hother u hut, hr]⟩
      simp only [ht, ne_eq, Option.some.injEq]
      exact fun e => hut e.symm
    · intro hcov
      obtain ⟨u, hu, hne, hr⟩ := hcov a1 rfl
      have hut : u ≠ t := fun e => hne (e ▸ ht)
      exact ⟨u, hu, by rw [hother u hut, hr]⟩

/-- In every run of timer interrupts, forks and sleeps on any CPUs, a call of `sched_yield` finds a
runnable entry of its queue exactly when it does not come from the sleep of the last task that could
run. Then that entry becomes the current task and the only running one of the queue. -/
theorem schedYield_finds (L : Image) (mem : Mem) {ncpu : Nat} (hn : 1 ≤ ncpu)
    (hnp : mem.npages ≤ 65536) {K₀ K : Kernel} {es : List (Nat × Trapframe × Call)}
    (hst : Started L mem ncpu K₀) (hrun : Reach (RunStep L) K₀ es K)
    (e : Nat × Trapframe × Call) (K₁ : Kernel) (hc : e.1 < ncpu)
    (hy : yieldPoint e.1 e.2.1 e.2.2 K = some K₁) :
    K.trap L e.1 e.2.1 e.2.2 = schedYield e.1 K₁ ∧
    ((∃ t, findRunnable K₁.tasks (K₁.cpus e.1).cpuRq.rq (K₁.cpus e.1).cpuRq.cnt.toNat =
      some (some t)) ↔ SleepCovered K e) ∧
    (SleepCovered K e → ∃ t K₂, K₁.Queued e.1 t ∧ (K₁.tasks t).state = .runnable ∧
      schedYield e.1 K₁ = some K₂ ∧ (K₂.cpus e.1).cpuTask = some t ∧
      (K₂.tasks t).state = .running ∧ (K₂.tasks t).remindTicks = timeQuant ∧
      ∀ u, K₂.Queued e.1 u → (K₂.tasks u).state = .running → u = t) := by
  have h := (hst.scheduled hn hnp).run hrun
  have hcK : e.1 < K.ncpu := h.ncpu_eq ▸ hc
  have hinv := h.yieldPoint hcK hc hy
  have hn₁ : e.1 < K₁.ncpu := (h.yieldPoint_same hcK hc hy).1.ncpu ▸ hcK
  have hiff := (hinv.finds_iff hn₁).trans (h.runnable_iff hc hy)
  refine ⟨trap_of_yieldPoint hy, hiff, fun hcov => ?_⟩
  obtain ⟨t, hf⟩ := hiff.mpr hcov
  obtain ⟨j, hj, hjt, hr, _⟩ := findRunnable_last hf
  obtain ⟨hyield, h2⟩ := hinv.schedYield hn₁ hf
  have hcur : ((K₁.dispatch e.1 t).cpus e.1).cpuTask = some t := by simp [Kernel.dispatch]
  refine ⟨t, K₁.dispatch e.1 t, ⟨j, hj, hjt⟩, hr, hyield, hcur, by simp [Kernel.dispatch],
    by simp [Kernel.dispatch], fun u hu hru => ?_⟩
  exact (Option.some.inj (hcur.symm.trans ((h2.running e.1 hn₁ hc u hu).mp hru))).symm

theorem small_npages {s : Mem}
    (h : pageInit smallBoot (bootMem smallBoot fun _ _ => 0#32) = some s) :
    s.npages ≤ 65536 := by
  obtain ⟨s', _, hs', hn, _⟩ := taskInv_small 1
  cases hs'.symm.trans h
  rw [hn]
  decide

theorem Shows.sleeping {K : Kernel} {A : Control} (h : Shows K A) (tf : Trapframe) (a1 : Word)
    {c t : Nat} (hcur : A.cur c = some t) (hl : A.state t ≠ .free) :
    ∃ K₁, yieldPoint c tf (.sleep a1) K = some K₁ ∧ Shows K₁ (A.setState t .sleep) := by
  have h1 := h.setTf t tf hl
  exact ⟨_, SchedInv.yieldPoint_sleep ((h.cur c).trans hcur) tf a1,
    h1.setTask t { (K.setTf t tf).tasks t with state := .sleep, remindTicks := a1 } (h1.id t hl)⟩

/-- The first task of the boot CPU goes to sleep before it has forked: nothing in the queue is
runnable, and the search ends at index `-1`. -/
theorem schedYield_finds_none :
    ∃ s₀ K₀ K₁, pageInit smallBoot (bootMem smallBoot fun _ _ => 0#32) = some s₀ ∧
      Started smallImage s₀ 2 K₀ ∧ yieldPoint 0 newTrapframe (.sleep 10#32) K₀ = some K₁ ∧
      findRunnable K₁.tasks (K₁.cpus 0).cpuRq.rq (K₁.cpus 0).cpuRq.cnt.toNat = some none ∧
      K₀.trap smallImage 0 newTrapframe (.sleep 10#32) = none := by
  obtain ⟨s₀, K₀, fl₀, hs₀, hinit, hA₀, _, _⟩ := small_started
  obtain ⟨K₁, hy, hA₁⟩ := hA₀.sleeping newTrapframe 10#32 (c := 0) (t := 0) rfl (by decide)
  have hf := hA₁.findRunnable_eq (c := 0) (by decide)
  have hpick : (((((Control.init 2).inited 0 0).inited 1 1).setState 0 .sleep).pick
      (((((Control.init 2).inited 0 0).inited 1 1).setState 0 .sleep).queue 0)) = none := by decide
  rw [hpick] at hf
  refine ⟨s₀, K₀, K₁, hs₀, ⟨[0, 1], .refl _, hinit⟩, hy, hf, ?_⟩
  rw [trap_of_yieldPoint hy]
  simp [schedYield, hf]

/-- After one fork the sleep of the first task finds the new one. -/
theorem schedYield_finds_forked :
    ∃ s₀ K₀ K K₁, Started smallImage s₀ 2 K₀ ∧
      Reach (RunStep smallImage) K₀ [(0, newTrapframe, .fork)] K ∧
      yieldPoint 0 newTrapframe (.sleep 10#32) K = some K₁ ∧
      ∃ t K₂, K₁.Queued 0 t ∧ schedYield 0 K₁ = some K₂ ∧ (K₂.cpus 0).cpuTask = some t := by
  obtain ⟨s₀, K₀, fl₀, hs₀, hinit, hA₀, hlen, h0⟩ := small_started
  obtain ⟨K, fl₁, e₁, hA, _⟩ := hA₀.trapFork h0 newTrapframe 0 0 2 rfl (by decide) (by decide)
    smallImage_sections (by omega) (by decide) (by decide) (by decide)
  obtain ⟨K₁, hy, hA₁⟩ := hA.sleeping newTrapframe 10#32 (c := 0) (t := 0) rfl (by decide)
  have hst : Started smallImage s₀ 2 K₀ := ⟨[0, 1], .refl _, hinit⟩
  have hn₀ : 0 < K₀.ncpu := by rw [hA₀.ncpu]; decide
  have hrun : Reach (RunStep smallImage) K₀ [(0, newTrapframe, .fork)] K :=
    Reach.init.snoc ⟨⟨hn₀, e₁⟩, by simp⟩
  have hnp := small_npages hs₀
  have hcov : SleepCovered K (0, newTrapframe, .sleep 10#32) := by
    intro a1 _
    refine ⟨2, ⟨1, ?_, hA.rqAt_eq (by decide)⟩, ?_, hA.state 2⟩
    · rw [Kernel.cnt, hA.cnt]
      decide
    · rw [hA.cur 0]
      decide
  obtain ⟨_, _, hfound⟩ := schedYield_finds smallImage s₀ (by decide) hnp hst hrun
    (0, newTrapframe, .sleep 10#32) K₁ (by decide) hy
  obtain ⟨t, K₂, hq, _, hyield, hcur, _⟩ := hfound hcov
  exact ⟨s₀, K₀, K, K₁, hst, hrun, hy, t, K₂, hq, hyield, hcur⟩

end NctuCourses.Osdi
