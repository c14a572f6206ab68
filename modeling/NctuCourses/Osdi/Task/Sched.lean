import NctuCourses.Osdi.Task.Task

namespace NctuCourses.Osdi

def Kernel.setCpu (K : Kernel) (c : Nat) (ci : CpuInfo) : Kernel :=
  { K with cpus := Function.update K.cpus c ci }

def Kernel.setRq (K : Kernel) (c : Nat) (q : Runqueue) : Kernel :=
  K.setCpu c { K.cpus c with cpuRq := q }

section Fields

variable (K : Kernel) (t c : Nat) (ts : Task) (ci : CpuInfo)

@[simp] theorem setTask_tasks : (K.setTask t ts).tasks = Function.update K.tasks t ts := rfl

@[simp] theorem setTask_cpus : (K.setTask t ts).cpus = K.cpus := rfl

@[simp] theorem setTask_ncpu : (K.setTask t ts).ncpu = K.ncpu := rfl

@[simp] theorem setTask_nextCpu : (K.setTask t ts).nextCpu = K.nextCpu := rfl

@[simp] theorem setCpu_tasks : (K.setCpu c ci).tasks = K.tasks := rfl

@[simp] theorem setCpu_cpus : (K.setCpu c ci).cpus = Function.update K.cpus c ci := rfl

@[simp] theorem setCpu_ncpu : (K.setCpu c ci).ncpu = K.ncpu := rfl

@[simp] theorem setCpu_nextCpu : (K.setCpu c ci).nextCpu = K.nextCpu := rfl

end Fields

/-- The search of `sched_yield` below index `i`, downwards. The outer `none` is a fault on a null
entry or an index outside `rq`; the inner one means that the index has become `-1`. -/
def findRunnable (tasks : Nat → Task) (rq : Nat → Option Nat) : Nat → Option (Option Nat)
  | 0 => some none
  | i + 1 =>
    if nrTasks ≤ i then none
    else match rq i with
      | none => none
      | some t => if (tasks t).state = .runnable then some (some t) else findRunnable tasks rq i

/-- Task `t` becomes the current one of CPU `c`. -/
def Kernel.dispatch (K : Kernel) (c t : Nat) : Kernel :=
  (K.setCpu c { K.cpus c with cpuTask := some t }).setTask t
    { K.tasks t with state := .running, remindTicks := timeQuant }

/-- When no task is runnable `rq[-1]` is read, which is `cnt` taken for a pointer: a fault. -/
def schedYield (c : Nat) (K : Kernel) : Option Kernel := do
  match ← findRunnable K.tasks (K.cpus c).cpuRq.rq (K.cpus c).cpuRq.cnt.toNat with
  | none => none
  | some t =>
    -- lcr3(PADDR(thiscpu->cpu_task->pgdir))
    let _ ← paddr (K.tasks t).pgdir
    some (K.dispatch c t)

/-- One round of the loop of `timer_handler` over the runqueue. -/
def wake (c : Nat) (K : Kernel) (i : Nat) : Option Kernel :=
  if nrTasks ≤ i then none
  else match (K.cpus c).cpuRq.rq i with
    | none => none
    | some t =>
      let ts := K.tasks t
      if ts.state = .sleep then
        let ts := { ts with remindTicks := ts.remindTicks - 1 }
        some (K.setTask t (if ts.remindTicks = 0 then { ts with state := .runnable } else ts))
      else some K

def timerHandler (c : Nat) (K : Kernel) : Option Kernel :=
  match (K.cpus c).cpuTask with
  | none => some K
  | some t => do
    let K ← (List.range (K.cpus c).cpuRq.cnt.toNat).foldlM (wake c) K
    let ts := { K.tasks t with remindTicks := (K.tasks t).remindTicks - 1 }
    if ts.remindTicks = 0 then schedYield c (K.setTask t { ts with state := .runnable })
    else some (K.setTask t ts)

/-- `SYS_sleep`, issued by the current task. -/
def sysSleep (c : Nat) (a1 : Word) (K : Kernel) : Option Kernel :=
  match (K.cpus c).cpuTask with
  | none => none
  | some t => schedYield c (K.setTask t { K.tasks t with state := .sleep, remindTicks := a1 })

/-- `memcpy(dst, src, PGSIZE)` between two pages. -/
def memcpyPage (dst src : Word) (s : Mem) : Mem :=
  { s with ram := fun q j =>
    if q = pgnum (dst - kernbase) then s.ram (pgnum (src - kernbase)) j else s.ram q j }

/-- The copy of one stack page in `sys_fork`; a page that is not mapped
makes `page2kva` of `NULL`. -/
def copyStackPage (parent child : Word) (s : Mem) (va : Word) : Option Mem := do
  let (pp, _) ← ← pageLookup parent va s
  let src ← page2kva s.npages pp
  let (cp, _) ← ← pageLookup child va s
  let dst ← page2kva s.npages cp
  some (memcpyPage dst src s)

/-- The four calls of `setupvm` that map the user program. -/
def setupUser (L : Image) (pgdir : Word) (s : Mem) : Option Mem := do
  let s ← setupvm pgdir L.utext.1 (L.utext.2 - L.utext.1) s
  let s ← setupvm pgdir L.udata.1 (L.udata.2 - L.udata.1) s
  let s ← setupvm pgdir L.ubss.1 (L.ubss.2 - L.ubss.1) s
  setupvm pgdir L.urodata.1 (L.urodata.2 - L.urodata.1) s

/-- `rq[cnt] = &tasks[pid]; cnt++`. -/
def Kernel.enqueue (K : Kernel) (c pid : Nat) : Option Kernel :=
  let q := (K.cpus c).cpuRq
  if maxCpu ≤ c ∨ nrTasks ≤ q.cnt.toNat then none
  else some (K.setRq c ⟨q.cnt + 1, Function.update q.rq q.cnt.toNat (some pid)⟩)

def sysFork (L : Image) (c : Nat) (K : Kernel) : Option (Int × Kernel) := do
  let (pid, K) ← taskCreate L c K
  if pid = -1 then some (-1, K)
  else match (K.cpus c).cpuTask with
    | none => some (pid, K)
    | some t =>
      let p := pid.toNat
      let mem ← userStack.foldlM (copyStackPage (K.tasks t).pgdir (K.tasks p).pgdir) K.mem
      let mem ← setupUser L (K.tasks p).pgdir mem
      let K := { K with mem := mem }.setTask p
        { K.tasks p with tf := { (K.tasks t).tf with regEax := 0 } }
      let K ← K.enqueue K.nextCpu p
      if K.ncpu = 0 then none
      else some (pid, { K with nextCpu := (K.nextCpu + 1) % K.ncpu })

/-- The inner loop of `sys_kill` from index `j` on, with `n` rounds to go: look for `pid` and, once
it is found, move the entries down by one. -/
def killShift (tasks : Nat → Task) (pid : Int) (cnt : Nat) :
    Nat → Nat → Bool → (Nat → Option Nat) → Option (Bool × (Nat → Option Nat))
  | 0, _, found, rq => some (found, rq)
  | n + 1, j, found, rq =>
    if nrTasks ≤ j then none
    else match rq j with
      | none => none
      | some t =>
        let found := found || decide (pid = (tasks t).taskId)
        let rq := if found ∧ j ≠ cnt - 1 then Function.update rq j (rq (j + 1)) else rq
        killShift tasks pid cnt n (j + 1) found rq

/-- The outer loop from CPU `i` on, with `n` CPUs to go. It returns the index with which it ends,
one more than that of the CPU where `pid` was found. -/
def killLoop (pid : Int) : Nat → Nat → Kernel → Option (Nat × Kernel)
  | 0, i, K => some (i, K)
  | n + 1, i, K => do
    let q := (K.cpus i).cpuRq
    let (found, rq) ← killShift K.tasks pid q.cnt.toNat q.cnt.toNat 0 false q.rq
    let K := K.setRq i { q with rq := rq }
    if found then some (i + 1, K) else killLoop pid n (i + 1) K

/-- `rq[cnt - 1] = NULL; cnt--`. With `cnt` zero the store hits `cnt` itself. -/
def Kernel.shrink (K : Kernel) (i : Nat) : Option Kernel :=
  let q := (K.cpus i).cpuRq
  if maxCpu ≤ i ∨ nrTasks < q.cnt.toNat then none
  else if q.cnt = 0 then some (K.setRq i { q with cnt := q.cnt - 1 })
  else some (K.setRq i ⟨q.cnt - 1, Function.update q.rq (q.cnt.toNat - 1) none⟩)

def sysKill (L : Image) (c : Nat) (pid : Int) (K : Kernel) : Option Kernel :=
  if 0 < pid ∧ pid < nrTasks then
    if K.taskLock then none
    else do
      let p := pid.toNat
      let mem ← taskFree L (K.tasks p).pgdir K.mem
      let K := { K with mem := mem }.setTask p { K.tasks p with state := .free }
      let (i, K) ← killLoop pid K.ncpu 0 K
      let K ← K.shrink i
      schedYield c K
  else some K

/-- The part of `task_init_percpu` that is not about segments: an idle or first
task, alone in the runqueue. -/
def taskInitPercpu (L : Image) (c : Nat) (K : Kernel) : Option Kernel := do
  let (i, K) ← taskCreate L c K
  if i = -1 then none
  else
    let p := i.toNat
    let mem ← setupUser L (K.tasks p).pgdir K.mem
    let eip := if c = L.bootcpu then L.userEntry else L.idleEntry
    let K := { K with mem := mem }.setTask p
      { K.tasks p with tf := { (K.tasks p).tf with tfEip := eip }, state := .running }
    some (K.setCpu c ⟨some p, ⟨1, Function.update (fun _ => none) 0 (some p)⟩⟩)

def Kernel.setTf (K : Kernel) (t : Nat) (tf : Trapframe) : Kernel :=
  K.setTask t { K.tasks t with tf := tf }

/-- `trap_dispatch` saves the frame of the interrupted user program. -/
def saveFrame (c : Nat) (tf : Trapframe) (K : Kernel) : Option (Nat × Kernel) :=
  (K.cpus c).cpuTask.map fun t => (t, K.setTf t tf)

inductive Call where
  | fork
  | kill
  | sleep (a1 : Word)
  | timer

/-- A trap from user mode on CPU `c`. A system call that returns leaves its result in `reg_eax`. -/
def Kernel.trap (L : Image) (c : Nat) (tf : Trapframe) (call : Call) (K : Kernel) :
    Option Kernel := do
  let (t, K) ← saveFrame c tf K
  let ret (r : Int) (K : Kernel) : Kernel :=
    K.setTf t { (K.tasks t).tf with regEax := BitVec.ofInt 32 r }
  match call with
  | .fork =>
    let (r, K) ← sysFork L c K
    some (ret r K)
  | .kill =>
    -- `sched_yield` does not return
    let K' ← sysKill L c (K.tasks t).taskId K
    some (if 0 < (K.tasks t).taskId ∧ (K.tasks t).taskId < nrTasks then K' else ret 0 K')
  | .sleep a1 => sysSleep c a1 K
  | .timer => timerHandler c K

end NctuCourses.Osdi
