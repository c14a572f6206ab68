import NctuCourses.Sdb.Tracee

namespace NctuCourses.Sdb

/-- `addr` is an address of the ELF file, not of the memory layout. -/
structure BreakPoint where
  id : Int
  addr : Addr
  origCode : Byte
  deriving DecidableEq

structure Insn where
  rip : Addr
  bytes : List Byte
  size : Addr
  opr : String
  opnd : String
  deriving DecidableEq

inductive State where
  | unloaded
  | intermediate
  | running
  deriving DecidableEq

/-- A path as the list of its components. -/
abbrev Path := List String

def basename (p : Path) : String := p.getLastD ""

/-- What the commands print. -/
inductive Line where
  | noProgram
  | notRunning
  | notInText (addr : Addr)
  | notFirstByte
  | peekFail (addr : Addr)
  | idExists (id : Int)
  | addrExists (addr : Addr)
  | deleted (id : Int)
  | noBreakPoint (id : Int)
  | alreadyLoaded (name : Path)
  | notExecutable (path : Path)
  | loaded (path : Path) (elfentry elftext elftextoff textSize : Addr)
  | pid
  | alreadyRunning (name : Path)
  | terminated
  | reload
  | breakpointAt
  | noAssembly (addr : Addr)
  | insn (rip : Addr) (i : Insn)
  deriving DecidableEq

/-- A section header of the ELF file. -/
structure Section where
  name : String
  addr : Addr
  offset : Addr
  size : Addr

structure Elf where
  entrypoint : Addr
  shdr : List Section

/-- A line of `/proc/pid/maps`. -/
structure MapLine where
  start : Addr
  perm : String
  path : Option Path

/-- A process that has just been started for tracing. -/
structure Process (R : Type) where
  maps : List MapLine
  tracee : Tracee R

/-- What the debugger runs on: the processor, the file system, the processes that the kernel starts
(one for each load) and the disassembler. -/
structure Env (R : Type) where
  cpu : Cpu R
  access : Path → Bool
  elf : Path → Option Elf
  spawn : Nat → Process R
  disasm : List Byte → Addr → List Insn

/-- `Program`, with the tracee that `pid` stands for. `loads` counts the processes started so far,
`gone` are those that have exited, and `out` is what has been printed. -/
structure Program (R : Type) where
  name : Path
  stat : State
  vmtext : Addr
  elfentry : Addr
  elftext : Addr
  elftextoff : Addr
  textSize : Addr
  breakpoints : List BreakPoint
  instructions : List Insn
  tracee : Tracee R
  loads : Nat
  gone : List (Tracee R)
  out : List Line

/-- How a command ends; `going` while it waits for a tracee that is running. -/
inductive Result (R : Type) where
  | done (ret : Int) (pg : Program R)
  | going (pg : Program R)

def vmToElf (addr elfentry elfoffset vmtext : Addr) : Addr :=
  if elfentry - elfoffset = vmtext then addr else addr - vmtext

def elfToVm (addr elfentry elfoffset vmtext : Addr) : Addr :=
  if elfentry - elfoffset = vmtext then addr else addr + vmtext

def breakPointExist : List BreakPoint → Int → Addr → Int
  | [], _, _ => 0
  | cur :: next, id, addr =>
    if cur.id = id then 1 else if cur.addr = addr then 2 else breakPointExist next id addr

def addBreakPoint (head : List BreakPoint) (id : Int) (addr : Addr) (code : Byte) :
    Int × List BreakPoint :=
  let ret := breakPointExist head id addr
  if ret ≠ 0 then (ret, head) else (0, head ++ [⟨id, addr, code⟩])

/-- `none` as the value returned is -1; otherwise the entry removed and the list without it. -/
def deleteBreakPoint : List BreakPoint → Int → Option (BreakPoint × List BreakPoint)
  | [], _ => none
  | cur :: next, id =>
    if cur.id = id then some (cur, next)
    else (deleteBreakPoint next id).map fun (del, rest) => (del, cur :: rest)

/-- The first executable mapping of the program. `sscanf` leaves the path of the line before in
place when a line has none. -/
def getTextStartInMemory (name : Path) : Option Path → List MapLine → Option Addr
  | _, [] => none
  | pgm, l :: ls =>
    let pgm := l.path.or pgm
    if l.perm = "r-xp" ∧ pgm.map basename = some (basename name) then some l.start
    else getTextStartInMemory name pgm ls

namespace Program

variable {R : Type}

def isLoaded (pg : Program R) : Bool := pg.stat != .unloaded

def isRunning (pg : Program R) : Bool := pg.stat == .running

def print (pg : Program R) (ls : List Line) : Program R := { pg with out := pg.out ++ ls }

def readElf (e : Elf) (pg : Program R) : Program R :=
  let pg := { pg with elfentry := e.entrypoint }
  match (e.shdr.drop 1).find? (fun s => s.name == ".text") with
  | none => pg
  | some s => { pg with elftext := s.addr, elftextoff := s.offset, textSize := s.size }

/-- The address of the `i`-th word that `Load` peeks. -/
def textAddr (pg : Program R) (i : Nat) : Addr :=
  pg.vmtext + pg.elftextoff + BitVec.ofNat 64 (8 * i)

/-- `none` where the debugger quits. -/
def loadInstructions (E : Env R) (pg : Program R) : Option (Program R) :=
  if pg.instructions = [] then do
    let codes ← (List.range ((pg.textSize.toNat + 7) / 8)).mapM fun i =>
      peekText pg.tracee.mem (pg.textAddr i)
    some { pg with instructions := E.disasm (codes.flatten.take pg.textSize.toNat) pg.elftext }
  else some pg

def load (E : Env R) (path : Path) (pg : Program R) : Option (Int × Program R) :=
  if pg.isLoaded then some (-1, pg.print [.alreadyLoaded pg.name])
  else if !E.access path then some (-1, pg.print [.notExecutable path])
  else do
    let p := E.spawn pg.loads
    let pg := { pg with
      name := path, stat := .intermediate, tracee := p.tracee, loads := pg.loads + 1 }
    let vmtext ← getTextStartInMemory pg.name none p.maps
    let e ← E.elf pg.name
    let pg ← ({ pg with vmtext := vmtext }.readElf e).loadInstructions E
    some (0, pg.print [.loaded path pg.elfentry pg.elftext pg.elftextoff pg.textSize])

/-- `PatchCode`; the debugger quits when the address cannot be read. -/
def patchCode (pg : Program R) (rip : Addr) (value : Byte) : Option (Program R) := do
  let codes ← peekText pg.tracee.mem rip
  some { pg with
    tracee := { pg.tracee with mem := pokeText pg.tracee.mem rip (codes.set 0 value) } }

def patchBreakPoint (pg : Program R) (rip : Addr) : Option (Program R) := pg.patchCode rip 0xcc#8

def setBreakPoints (pg : Program R) : Option (Program R) :=
  pg.breakpoints.foldlM
    (fun pg b => pg.patchBreakPoint (elfToVm b.addr pg.elftext pg.elftextoff pg.vmtext)) pg

/-- The instructions listed for `disasm` (ten of them) or at a breakpoint (one, at its address in
the memory layout), and the number of bytes that they take. -/
def listInstructions (pg : Program R) (addr : Addr) (hit : Bool) : Nat × List Line :=
  match pg.instructions.findIdx? (fun i => i.rip ≤ addr && addr < i.rip + i.size) with
  | none => (0, [.noAssembly addr])
  | some lowerBound =>
    let shown := (pg.instructions.drop lowerBound).take (if hit then 1 else 10)
    let rip (i : Insn) := if hit then elfToVm i.rip pg.elfentry pg.elftextoff pg.vmtext else i.rip
    ((shown.map fun i => i.size.toNat).sum, shown.map fun i => .insn (rip i) i)

/-- The breakpoint that `CheckIfHit` finds one byte before `rip`. -/
def hitPoint (pg : Program R) : Option BreakPoint :=
  pg.breakpoints.find? fun b =>
    b.addr == vmToElf (pg.tracee.rip - 1) pg.elftext pg.elftextoff pg.vmtext

def checkIfHit (pg : Program R) : Bool := pg.hitPoint.isSome

/-- `CheckIfHit(pg, 1)`. -/
def printHit (pg : Program R) : Program R :=
  match pg.hitPoint with
  | none => pg
  | some b => pg.print (.breakpointAt :: (pg.listInstructions b.addr true).2)

/-- `RestoreRIPAndCode`, with the value that it leaves in `*rip`. -/
def restoreRipAndCode (pg : Program R) : Option (Addr × Program R) :=
  let rip := pg.tracee.rip - 1
  let pg := { pg with tracee := { pg.tracee with rip := rip } }
  match pg.breakpoints.find? fun b => b.addr == vmToElf rip pg.elfentry pg.elftextoff pg.vmtext with
  | none => some (rip, pg)
  | some b => (pg.patchCode rip b.origCode).map (rip, ·)

/-- `IsChildExit` for a tracee that has exited: the program is loaded again. -/
def childExit (E : Env R) (pg : Program R) : Option (Program R) :=
  let pg := { pg with stat := .unloaded, gone := pg.gone ++ [pg.tracee] }
  ((pg.print [.terminated, .reload]).load E pg.name).map (·.2)

/-- `Break` once both addresses are known. -/
def breakAt (pg : Program R) (id : Int) (addr vmAddr elfAddr : Addr) : Int × Program R :=
  if elfAddr < pg.elftext ∨ pg.elftext + pg.textSize ≤ elfAddr then (-1, pg.print [.notInText addr])
  else if pg.instructions.all (fun i => i.rip != elfAddr) then (-1, pg.print [.notFirstByte])
  else
    match peekText pg.tracee.mem vmAddr with
    | none => (-1, pg.print [.peekFail addr])
    | some codes =>
      match addBreakPoint pg.breakpoints id elfAddr (codes.headD 0#8) with
      | (0, bs) =>
        if pg.isRunning then
          (0, { pg with
            breakpoints := bs
            tracee :=
              { pg.tracee with mem := pokeText pg.tracee.mem vmAddr (codes.set 0 0xcc#8) } })
        else (0, { pg with breakpoints := bs })
      | (ret, _) => (-1, pg.print (if ret = 1 then [.idExists id] else [.addrExists addr]))

/-- The address is one of the memory layout while the program is running, else one of the file. -/
def break_ (pg : Program R) (id : Int) (addr : Addr) : Int × Program R :=
  if !pg.isLoaded then (-1, pg.print [.noProgram])
  else if pg.isRunning then
    pg.breakAt id addr addr (vmToElf addr pg.elftext pg.elftextoff pg.vmtext)
  else pg.breakAt id addr (elfToVm addr pg.elftext pg.elftextoff pg.vmtext) addr

def delete (pg : Program R) (id : Int) : Option (Int × Program R) :=
  match deleteBreakPoint pg.breakpoints id with
  | none => some (-1, pg.print [.noBreakPoint id])
  | some (b, bs) =>
    let pg := { pg with breakpoints := bs }.print [.deleted id]
    if pg.isRunning then (pg.patchCode b.addr b.origCode).map (0, ·) else some (0, pg)

/-- The breakpoint that was taken out before, if any, is put back. -/
def putBack (rip : Option Addr) (pg : Program R) : Option (Program R) :=
  match rip with
  | none => some pg
  | some rip => pg.patchBreakPoint rip

/-- What follows `waitpid`. -/
def afterWait (E : Env R) (rip : Option Addr) (pg : Program R) : Wait R → Option (Result R)
  | .going T => some (.going { pg with tracee := T })
  | .exited T => ({ pg with tracee := T }.childExit E).map (.done 0)
  | .stopped T => (putBack rip { pg with tracee := T }).map fun pg => .done 0 pg.printHit

/-- The common part of `Cont` and `Si`: step back over a breakpoint
that was hit, and take it out. -/
def beforeResume (pg : Program R) : Option (Option Addr × Program R) :=
  if pg.checkIfHit then pg.restoreRipAndCode.map fun (rip, pg) => (some rip, pg)
    else some (none, pg)

def cont (E : Env R) (fuel : Nat) (pg : Program R) : Option (Result R) :=
  if !pg.isRunning then some (.done (-1) (pg.print [.notRunning]))
  else do
    let (rip, pg) ← pg.beforeResume
    pg.afterWait E rip (E.cpu.cont fuel pg.tracee)

def si (E : Env R) (pg : Program R) : Option (Result R) :=
  if !pg.isRunning then some (.done (-1) (pg.print [.notRunning]))
  else do
    let (rip, pg) ← pg.beforeResume
    pg.afterWait E rip (E.cpu.singleStep pg.tracee)

def run (E : Env R) (fuel : Nat) (pg : Program R) : Option (Result R) :=
  if !pg.isLoaded then some (.done (-1) (pg.print [.noProgram]))
  else if pg.isRunning then (pg.print [.alreadyRunning pg.name]).cont E fuel
  else do
    let pg ← ({ pg with stat := .running }.print [.pid]).setBreakPoints
    pg.afterWait E none (E.cpu.cont fuel pg.tracee)

def start (pg : Program R) : Option (Int × Program R) :=
  if !pg.isLoaded then some (-1, pg.print [.noProgram])
  else if pg.isRunning then some (-1, pg.print [.alreadyRunning pg.name])
  else ({ pg with stat := .running }.print [.pid]).setBreakPoints.map (0, ·)

end Program

/-- The commands that control the tracee. -/
inductive Cmd where
  | break_ (id : Int) (addr : Addr)
  | delete (id : Int)
  | start
  | run
  | cont
  | si

/-- A command, observed for `fuel` steps of the tracee. -/
def Cmd.exec {R : Type} (E : Env R) (fuel : Nat) (c : Cmd) (pg : Program R) : Option (Result R) :=
  match c with
  | .break_ id addr => let (r, pg) := pg.break_ id addr; some (.done r pg)
  | .delete id => (pg.delete id).map fun (r, pg) => .done r pg
  | .start => pg.start.map fun (r, pg) => .done r pg
  | .run => pg.run E fuel
  | .cont => pg.cont E fuel
  | .si => pg.si E

end NctuCourses.Sdb
