import NctuCourses.Osdi.Mem.BootMap

namespace NctuCourses.Osdi

def nrTasks : Nat := 32
def maxCpu : Nat := 8
def timeQuant : BitVec 32 := 100#32
def usrStackSize : Word := 40960#32
def sizeofPageInfo : Word := 8#32

def kstacktop : Word := kernbase
def kstksize : Word := 8#32 * pgsize
def kstkgap : Word := 8#32 * pgsize
def mmiolim : Word := kstacktop - ptsize
def mmiobase : Word := mmiolim - ptsize
def ulim : Word := mmiobase
def uvpt : Word := ulim - ptsize
def upages : Word := uvpt - ptsize
def uenvs : Word := upages - ptsize
def utop : Word := uenvs
def ustacktop : Word := utop - 2#32 * pgsize

def gdUt : BitVec 16 := 0x18#16
def gdUd : BitVec 16 := 0x20#16

/-- The addresses fixed by the linker and by `mem_init`, `mp_init` and `lapic_init`. The sections of
the user program go from the first address to the second. -/
structure Image where
  pages : Word
  bootstack : Word
  percpuKstacks : Word
  kernPgdir : Word
  lapic : Word
  lapicaddr : Word
  utext : Word × Word
  udata : Word × Word
  ubss : Word × Word
  urodata : Word × Word
  userEntry : Word
  idleEntry : Word
  bootcpu : Nat

/-- The sections of the user program, in the order in which they are mapped. -/
def Image.sections (L : Image) : List (Word × Word) := [L.utext, L.udata, L.ubss, L.urodata]

/-- One call of `boot_map_region` in `setupkvm`. -/
structure Region where
  va : Word
  size : Word
  pa : Word
  perm : Word

/-- The regions that `setupkvm` maps, in its order. `PADDR` panics below `KERNBASE`. -/
def kvmRegions (L : Image) (npages : Nat) : Option (List Region) := do
  let pagesPa ← paddr L.pages
  let bootPa ← paddr L.bootstack
  let kstacks ← (List.range maxCpu).mapM fun i => do
    let pa ← paddr (L.percpuKstacks + BitVec.ofNat 32 i * kstksize)
    some (⟨kstacktop - BitVec.ofNat 32 i * (kstksize + kstkgap) - kstksize,
      roundup kstksize pgsize, pa, pteW⟩ : Region)
  some ([⟨upages, roundup (sizeofPageInfo * BitVec.ofNat 32 npages) pgsize, pagesPa, pteU⟩,
    ⟨kstacktop - kstksize, kstksize, bootPa, pteW⟩,
    ⟨kernbase, roundup (0xffffffff#32 - kernbase) pgsize, 0#32, pteW⟩,
    ⟨iophysmem, roundup (extphysmem - iophysmem) pgsize, iophysmem, pteW⟩] ++ kstacks ++
    [⟨L.lapic, pgsize, L.lapicaddr, ptePcd ||| ptePwt ||| pteW⟩])

/-- `none` as the pointer returned is `NULL`. -/
def setupkvm (L : Image) (s : Mem) : Option (Option Word × Mem) := do
  let (r, s) ← pageAlloc allocZero s
  match r with
  | none => some (none, s)
  | some pp =>
    let pgdir ← page2kva s.npages pp
    let rs ← kvmRegions L s.npages
    let s ← rs.foldlM (fun s r => bootMapRegion pgdir r.va r.size r.pa r.perm s) s
    some (some pgdir, s)

/-- The pages of a user stack, from `USTACKTOP - USR_STACK_SIZE` up. -/
def userStack : List Word :=
  (List.range (usrStackSize / pgsize).toNat).map fun k =>
    ustacktop - usrStackSize + BitVec.ofNat 32 k * pgsize

/-- The loop of `task_create` over the user stack; `false` is the early return of `-1`. The result
of `page_insert` is compared with `-1`, so `-E_NO_MEM` does not stop the loop. -/
def mapUserStack (pgdir : Word) : List Word → Mem → Option (Bool × Mem)
  | [], s => some (true, s)
  | va :: vas, s => do
    let (r, s) ← pageAlloc allocZero s
    match r with
    | none => some (false, s)
    | some pp =>
      let (e, s) ← pageInsert pgdir pp va (pteW ||| pteU) s
      if e = -1 then some (false, s) else mapUserStack pgdir vas s

inductive TaskState where
  | free
  | runnable
  | running
  | sleep
  | stop
  deriving DecidableEq, Repr

/-- `struct Trapframe` without its padding. -/
structure Trapframe where
  regEdi : Word
  regEsi : Word
  regEbp : Word
  regOesp : Word
  regEbx : Word
  regEdx : Word
  regEcx : Word
  regEax : Word
  tfEs : BitVec 16
  tfDs : BitVec 16
  tfTrapno : Word
  tfErr : Word
  tfEip : Word
  tfCs : BitVec 16
  tfEflags : Word
  tfEsp : Word
  tfSs : BitVec 16

def Trapframe.zero : Trapframe where
  regEdi := 0
  regEsi := 0
  regEbp := 0
  regOesp := 0
  regEbx := 0
  regEdx := 0
  regEcx := 0
  regEax := 0
  tfEs := 0
  tfDs := 0
  tfTrapno := 0
  tfErr := 0
  tfEip := 0
  tfCs := 0
  tfEflags := 0
  tfEsp := 0
  tfSs := 0

/-- The frame that `task_create` builds. -/
def newTrapframe : Trapframe :=
  { Trapframe.zero with
    tfCs := gdUt ||| 0x03#16
    tfDs := gdUd ||| 0x03#16
    tfEs := gdUd ||| 0x03#16
    tfSs := gdUd ||| 0x03#16
    tfEsp := ustacktop - pgsize }

structure Task where
  taskId : Int
  parentId : Int
  tf : Trapframe
  remindTicks : BitVec 32
  state : TaskState
  pgdir : Word

structure Runqueue where
  cnt : Word
  rq : Nat → Option Nat

/-- `struct CpuInfo`; a pointer to a task is its index in `tasks`. -/
structure CpuInfo where
  cpuTask : Option Nat
  cpuRq : Runqueue

structure Kernel where
  mem : Mem
  tasks : Nat → Task
  cpus : Nat → CpuInfo
  ncpu : Nat
  nextCpu : Nat
  taskLock : Bool

/-- The state in which `task_init` calls `task_init_percpu`: every slot is cleared and marked free,
and the rest is zeroed static storage. -/
def taskInit (mem : Mem) (ncpu : Nat) : Kernel where
  mem := mem
  tasks := fun _ => ⟨0, 0, .zero, 0, .free, 0⟩
  cpus := fun _ => ⟨none, ⟨0, fun _ => none⟩⟩
  ncpu := ncpu
  nextCpu := 0
  taskLock := false

def Kernel.setTask (K : Kernel) (pid : Nat) (ts : Task) : Kernel :=
  { K with tasks := Function.update K.tasks pid ts }

/-- `none` is a panic, a fault or a lock that is never released. The early
returns of `-1` keep `task_lock`. -/
def taskCreate (L : Image) (cpu : Nat) (K : Kernel) : Option (Int × Kernel) :=
  if K.taskLock then none
  else
    let K := { K with taskLock := true }
    match (List.range nrTasks).find? fun pid => (K.tasks pid).state == .free with
    | none => some (-1, K)
    | some pid => do
      let (r, mem) ← setupkvm L K.mem
      match r with
      | none => none
      | some pgdir =>
        let K := { K with mem := mem }.setTask pid { K.tasks pid with pgdir := pgdir }
        let (ok, mem) ← mapUserStack pgdir userStack K.mem
        let K := { K with mem := mem }
        if !ok then some (-1, K)
        else
          let parent := match (K.cpus cpu).cpuTask with
            | some t => (K.tasks t).taskId
            | none => pid
          some (pid, { K with taskLock := false }.setTask pid
            { K.tasks pid with
              tf := newTrapframe
              taskId := pid
              parentId := parent
              remindTicks := timeQuant
              state := .runnable })

/-- The memory that `task_free` gives back. -/
def taskFree (L : Image) (pgdir : Word) (s : Mem) : Option Mem := do
  -- lcr3(PADDR(kern_pgdir))
  let _ ← paddr L.kernPgdir
  let s ← userStack.foldlM (fun s va => pageRemove pgdir va s) s
  let s ← ptableRemove pgdir s
  pgdirRemove pgdir s

end NctuCourses.Osdi
