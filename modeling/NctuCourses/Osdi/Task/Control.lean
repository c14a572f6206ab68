import NctuCourses.Osdi.Task.Fork

namespace NctuCourses.Osdi

/-- What the scheduler is about: the state of each task, the queue of each CPU as a list and the
task that each CPU runs. -/
structure Control where
  ncpu : Nat
  next : Nat
  state : Nat → TaskState
  queue : Nat → List Nat
  cur : Nat → Option Nat

/-- The kernel state `K` stands for `A`. -/
structure Shows (K : Kernel) (A : Control) : Prop where
  ncpu : K.ncpu = A.ncpu
  next : K.nextCpu = A.next
  state : ∀ t, (K.tasks t).state = A.state t
  id : ∀ t, A.state t ≠ .free → (K.tasks t).taskId = t
  cnt : ∀ c, (K.cpus c).cpuRq.cnt.toNat = (A.queue c).length
  rq : ∀ c j, j < (A.queue c).length → (K.cpus c).cpuRq.rq j = (A.queue c)[j]?
  cur : ∀ c, (K.cpus c).cpuTask = A.cur c

namespace Control

def init (ncpu : Nat) : Control := ⟨ncpu, 0, fun _ => .free, fun _ => [], fun _ => none⟩

def setState (A : Control) (t : Nat) (st : TaskState) : Control :=
  { A with state := Function.update A.state t st }

/-- `task_init_percpu` on CPU `c`. -/
def inited (A : Control) (c pid : Nat) : Control :=
  { A.setState pid .running with
    queue := Function.update A.queue c [pid]
    cur := Function.update A.cur c (some pid) }

/-- A new task goes to the queue whose turn it is. -/
def forked (A : Control) (pid : Nat) : Control :=
  { A.setState pid .runnable with
    queue := Function.update A.queue A.next (A.queue A.next ++ [pid])
    next := (A.next + 1) % A.ncpu }

def dispatch (A : Control) (c t : Nat) : Control :=
  { A.setState t .running with cur := Function.update A.cur c (some t) }

/-- The last runnable task of a queue. -/
def pick (A : Control) (q : List Nat) : Option Nat :=
  q.reverse.find? fun t => A.state t == .runnable

end Control

namespace Shows

variable {K : Kernel} {A : Control}

theorem live (h : Shows K A) {t : Nat} : K.Live t ↔ t < nrTasks ∧ A.state t ≠ .free := by
  rw [Kernel.Live, h.state]

theorem find_free (h : Shows K A) :
    (List.range nrTasks).find? (fun t => (K.tasks t).state == .free) =
      (List.range nrTasks).find? fun t => A.state t == .free := by
  simp only [h.state]

theorem init (mem : Mem) (ncpu : Nat) : Shows (taskInit mem ncpu) (Control.init ncpu) :=
  ⟨rfl, rfl, fun _ => rfl, fun _ ht => absurd rfl ht, fun _ => rfl, fun _ _ hj =>
    absurd hj (by simp [Control.init]),
    fun _ => rfl⟩

theorem setTask (h : Shows K A) (t : Nat) (ts : Task) (hid : ts.taskId = t) :
    Shows (K.setTask t ts) (A.setState t ts.state) := by
  refine ⟨h.ncpu, h.next, fun u => ?_, fun u hu => ?_, h.cnt, h.rq, h.cur⟩
  · by_cases hut : u = t
    · simp [Control.setState, hut]
    · simp [Control.setState, hut, h.state]
  · by_cases hut : u = t
    · simp [hut, hid]
    · simp only [Control.setState, Function.update_of_ne hut] at hu
      simp [hut, h.id u hu]

theorem setTf (h : Shows K A) (t : Nat) (tf : Trapframe) (hl : A.state t ≠ .free) :
    Shows (K.setTf t tf) A := by
  have h1 := h.setTask t { K.tasks t with tf := tf } (h.id t hl)
  have hA : A.setState t (K.tasks t).state = A := by simp [Control.setState, h.state]
  rwa [hA] at h1

theorem setMem (h : Shows K A) (mem : Mem) (lock : Bool) :
    Shows { K with mem := mem, taskLock := lock } A :=
  ⟨h.ncpu, h.next, h.state, h.id, h.cnt, h.rq, h.cur⟩

theorem created (h : Shows K A) (cpu pid : Nat) (pgdir : Word) (mem : Mem) :
    Shows (K.created cpu pid pgdir mem) (A.setState pid .runnable) :=
  (h.setMem mem false).setTask pid _ rfl

theorem setCpu (h : Shows K A) (c : Nat) (ci : CpuInfo) (q : List Nat)
    (hcnt : ci.cpuRq.cnt.toNat = q.length) (hrq : ∀ j < q.length, ci.cpuRq.rq j = q[j]?) :
    Shows (K.setCpu c ci) { A with
      queue := Function.update A.queue c q, cur := Function.update A.cur c ci.cpuTask } := by
  refine ⟨h.ncpu, h.next, h.state, h.id, fun c' => ?_, fun c' j hj => ?_, fun c' => ?_⟩
  · by_cases hc : c' = c
    · simpa [hc] using hcnt
    · simpa [hc] using h.cnt c'
  · by_cases hc : c' = c
    · subst hc
      simp only [Function.update_self] at hj
      simpa using hrq j hj
    · simp only [Function.update_of_ne hc] at hj
      simpa [hc] using h.rq c' j hj
  · by_cases hc : c' = c
    · simp [hc]
    · simpa [hc] using h.cur c'

theorem inited (h : Shows K A) (eip : Word) (c pid : Nat) (pgdir : Word) (mem : Mem) :
    Shows (K.inited eip c pid pgdir mem) (A.inited c pid) := by
  have h1 := (h.created c pid pgdir mem).setTask pid
    { (K.created c pid pgdir mem).tasks pid with
      tf := { ((K.created c pid pgdir mem).tasks pid).tf with tfEip := eip }, state := .running }
    (by simp [Kernel.created])
  have h2 := h1.setCpu c ⟨some pid, ⟨1, Function.update (fun _ => none) 0 (some pid)⟩⟩ [pid] rfl
    (by simp)
  have hA : (A.setState pid .runnable).setState pid .running = A.setState pid .running := by
    simp [Control.setState]
  simp only [hA] at h2
  exact h2

theorem setNext (h : Shows K A) (n : Nat) : Shows { K with nextCpu := n } { A with next := n } :=
  ⟨h.ncpu, rfl, h.state, h.id, h.cnt, h.rq, h.cur⟩

theorem forked (h : Shows K A) (c t pid : Nat) (pgdir : Word) (mem : Mem)
    (hlen : (A.queue A.next).length < nrTasks) :
    Shows (K.forked c t pid pgdir mem) (A.forked pid) := by
  have h1 := (h.created c pid pgdir mem).setTask pid
    { (K.created c pid pgdir mem).tasks pid with
      tf := { ((K.created c pid pgdir mem).tasks t).tf with regEax := 0 } }
        (by simp [Kernel.created])
  have hA : (A.setState pid .runnable).setState pid ((K.created c pid pgdir mem).tasks pid).state =
      A.setState pid .runnable := by
    simp [Control.setState, Kernel.created]
  simp only [hA] at h1
  have hn : nrTasks = 32 := rfl
  have hcnt := h.cnt K.nextCpu
  rw [← h.next] at hlen
  have hcnt' : ((K.cpus K.nextCpu).cpuRq.cnt + 1).toNat = (A.queue K.nextCpu ++ [pid]).length := by
    rw [BitVec.toNat_add, List.length_append, List.length_singleton, hcnt]
    have : (1 : Word).toNat = 1 := rfl
    omega
  have hrq' : ∀ j < (A.queue K.nextCpu ++ [pid]).length, Function.update (K.cpus K.nextCpu).cpuRq.rq
      (K.cpus K.nextCpu).cpuRq.cnt.toNat (some pid) j = (A.queue K.nextCpu ++ [pid])[j]? := by
    intro j hj
    rw [List.length_append, List.length_singleton] at hj
    rw [hcnt]
    by_cases hjl : j = (A.queue K.nextCpu).length
    · simp [hjl]
    · rw [Function.update_of_ne hjl, h.rq _ _ (by omega), List.getElem?_append_left (by omega)]
  have h2 := (h1.setCpu K.nextCpu { K.cpus K.nextCpu with cpuRq := ⟨_, _⟩ } _ hcnt' hrq').setNext
    ((K.nextCpu + 1) % K.ncpu)
  have hcur : Function.update (A.setState pid .runnable).cur K.nextCpu (K.cpus K.nextCpu).cpuTask =
      A.cur := by
    rw [h.cur]
    exact Function.update_eq_self _ _
  simp only [hcur] at h2
  rw [Control.forked, ← h.next, ← h.ncpu]
  exact h2

theorem dispatch (h : Shows K A) (c : Nat) {t : Nat} (hl : A.state t ≠ .free) :
    Shows (K.dispatch c t) (A.dispatch c t) := by
  have h1 := h.setCpu c { K.cpus c with cpuTask := some t } (A.queue c) (h.cnt c) (h.rq c)
  have h2 := h1.setTask t { K.tasks t with state := .running, remindTicks := timeQuant } (h.id t hl)
  simp only [Function.update_eq_self] at h2
  exact h2

private theorem findRunnable_take (h : Shows K A) {c n : Nat} (hlen : (A.queue c).length ≤ nrTasks)
    (hn : n ≤ (A.queue c).length) :
    findRunnable K.tasks (K.cpus c).cpuRq.rq n = some (A.pick ((A.queue c).take n)) := by
  induction n with
  | zero => simp [findRunnable, Control.pick]
  | succ n ih =>
    have hlt : n < (A.queue c).length := by omega
    have hrq := h.rq c n hlt
    rw [List.getElem?_eq_getElem hlt] at hrq
    have htake : (A.queue c).take (n + 1) = (A.queue c).take n ++ [(A.queue c)[n]] := by simp
    rw [findRunnable, if_neg (by omega), hrq, htake]
    simp only [Control.pick, List.reverse_append, List.reverse_singleton, List.singleton_append,
      List.find?_cons, h.state]
    by_cases hr : A.state (A.queue c)[n] = .runnable
    · simp [hr]
    · have hb : (A.state (A.queue c)[n] == TaskState.runnable) = false := by simpa using hr
      rw [if_neg hr, ih (by omega), hb]
      rfl

theorem findRunnable_eq (h : Shows K A) {c : Nat} (hlen : (A.queue c).length ≤ nrTasks) :
    findRunnable K.tasks (K.cpus c).cpuRq.rq (K.cpus c).cpuRq.cnt.toNat = some
      (A.pick (A.queue c)) := by
  rw [h.cnt, h.findRunnable_take hlen le_rfl, List.take_length]

section Progress

variable {L : Image} {rsv : Nat → Prop} {I : Set Nat} {fl : List Nat}

/-- With enough pages and a free slot `task_init_percpu` succeeds. -/
theorem initPercpu (hA : Shows K A) (h : Sound L rsv I K fl) (c pid : Nat)
    (hfind : (List.range nrTasks).find? (fun t => A.state t == .free) = some pid)
    (hsec : ∀ p ∈ [L.utext, L.udata, L.ubss, L.urodata], Section p) (hlen : 1035 ≤ fl.length) :
    ∃ K' fl', taskInitPercpu L c K = some K' ∧ Shows K' (A.inited c pid) ∧ Sound L rsv I K' fl' ∧
      fl.length ≤ fl'.length + 1035 := by
  obtain ⟨pgdir, mem, fl', he, h1, hl⟩ := h.initPercpu c pid (hA.find_free.trans hfind) hsec
    (h.enoughPages hlen)
  exact ⟨_, fl', he, hA.inited _ c pid pgdir mem, h1, hl⟩

theorem trapFork (hA : Shows K A) (h : Sound L rsv I K fl) (tf : Trapframe) (c t pid : Nat)
    (hcur : A.cur c = some t) (ht : t < nrTasks ∧ A.state t ≠ .free)
    (hfind : (List.range nrTasks).find? (fun t => A.state t == .free) = some pid)
    (hsec : ∀ p ∈ [L.utext, L.udata, L.ubss, L.urodata], Section p) (hlen : 1035 ≤ fl.length)
    (hnext : A.next < maxCpu) (hq : (A.queue A.next).length < nrTasks) (hncpu : A.ncpu ≠ 0) :
    ∃ K' fl', K.trap L c tf .fork = some K' ∧ Shows K' (A.forked pid) ∧ Sound L rsv I K' fl' ∧
      fl.length ≤ fl'.length + 1035 := by
  have hA₁ := hA.setTf t tf ht.2
  have hcnt : (K.cpus K.nextCpu).cpuRq.cnt.toNat < nrTasks := by
    rw [hA.cnt, hA.next]
    exact hq
  obtain ⟨pgdir, mem, tf', fl', he, h1, hl⟩ := h.trapFork tf c t pid ((hA.cur c).trans hcur)
    (hA.live.mpr ht) (hA₁.find_free.trans hfind) hsec (h.enoughPages hlen)
    (hA.next ▸ hnext) hcnt (hA.ncpu ▸ hncpu)
  have hpid : (A.forked pid).state t ≠ .free := by
    by_cases htp : t = pid
    · simp [Control.forked, Control.setState, htp]
    · simpa [Control.forked, Control.setState, htp] using ht.2
  exact ⟨_, fl', he, (hA₁.forked c t pid pgdir mem hq).setTf t tf' hpid, h1, hl⟩

theorem trapSleep (hA : Shows K A) (h : Sound L rsv I K fl) (tf : Trapframe) (a1 : Word)
    (c t u : Nat) (hcur : A.cur c = some t) (ht : t < nrTasks ∧ A.state t ≠ .free)
    (hu : u < nrTasks ∧ (A.setState t .sleep).state u ≠ .free) (hlen : (A.queue c).length ≤ nrTasks)
    (hpick : (A.setState t .sleep).pick (A.queue c) = some u) :
    ∃ K', K.trap L c tf (.sleep a1) = some K' ∧ Shows K' ((A.setState t .sleep).dispatch c u) ∧
      Sound L rsv I K' fl := by
  have hA₁ := (hA.setTf t tf ht.2).setTask t
    { (K.setTf t tf).tasks t with state := .sleep, remindTicks := a1 }
    ((hA.setTf t tf ht.2).id t ht.2)
  obtain ⟨he, h1⟩ := h.trapSleep tf a1 ((hA.cur c).trans hcur) (hA.live.mpr ht) rfl
    (hA₁.live.mpr hu) ((hA₁.findRunnable_eq hlen).trans (congrArg some hpick))
  exact ⟨_, he, hA₁.dispatch c hu.2, h1⟩

end Progress

end Shows

end NctuCourses.Osdi
