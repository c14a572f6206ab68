import NctuCourses.Lib.X64.Memory

namespace NctuCourses.Lib.X64

inductive Reg where
  | rax
  | rbx
  | rcx
  | rdx
  | rsi
  | rdi
  | rbp
  | rsp
  | r8
  | r9
  | r10
  | r11
  | r12
  | r13
  | r14
  | r15
  deriving DecidableEq

inductive Instr where
  | push (r : Reg)
  | pop (r : Reg)
  | mov (dst src : Reg)
  | movImm (dst : Reg) (v : Word)
  | lea (dst base : Reg) (disp : Word)
  | movFrom (dst base : Reg) (disp : Word)
  | movTo (base : Reg) (disp : Word) (src : Reg)
  | xor (dst src : Reg)
  | test (a b : Reg)
  | inc (r : Reg)
  | syscall
  | jnz (target : Word)
  | call (target : Word)
  | ret
  | jmpAt (base : Reg) (disp : Word)

structure Machine (κ : Type*) where
  regs : Reg → Word
  zf : Bool
  mem : Memory
  rip : Word
  sys : κ

/-- What the kernel does with a system call: the result for `rax`, memory and its own state; and
what is left in `rcx` and `r11`. -/
structure Kernel (κ : Type*) where
  handle : (Reg → Word) → Memory → κ → Word × Memory × κ
  rcx : Machine κ → Word
  r11 : Machine κ → Word

/-- The instruction at an address and the address of the one after it. -/
abbrev Code := Word → Option (Instr × Word)

/-- The code has the instructions `is`, the `i`-th of them at `a i`. -/
def Code.Laid (code : Code) (a : Nat → Word) (is : List Instr) : Prop :=
  ∀ i ins, is[i]? = some ins → code (a i) = some (ins, a (i + 1))

namespace Machine

variable {κ : Type*}

def set (m : Machine κ) (r : Reg) (v : Word) : Machine κ :=
  { m with regs := Function.update m.regs r v }

def push (m : Machine κ) (v : Word) : Machine κ :=
  { m with
    regs := Function.update m.regs .rsp (m.regs .rsp - 8)
    mem := m.mem.store (m.regs .rsp - 8) v }

/-- The state in which `target` is entered from a call before the instruction at `ret`. -/
def called (m : Machine κ) (target ret : Word) : Machine κ := { m.push ret with rip := target }

/-- One instruction; `rip` is past it already. -/
def exec (K : Kernel κ) (m : Machine κ) : Instr → Machine κ
  | .push r => m.push (m.regs r)
  | .pop r => (m.set .rsp (m.regs .rsp + 8)).set r (m.mem.load (m.regs .rsp))
  | .mov dst src => m.set dst (m.regs src)
  | .movImm dst v => m.set dst v
  | .lea dst base disp => m.set dst (m.regs base + disp)
  | .movFrom dst base disp => m.set dst (m.mem.load (m.regs base + disp))
  | .movTo base disp src => { m with mem := m.mem.store (m.regs base + disp) (m.regs src) }
  | .xor dst src =>
    { m.set dst (m.regs dst ^^^ m.regs src) with zf := m.regs dst ^^^ m.regs src == 0 }
  | .test a b => { m with zf := m.regs a &&& m.regs b == 0 }
  | .inc r => { m.set r (m.regs r + 1) with zf := m.regs r + 1 == 0 }
  | .syscall =>
    let (v, mem, sys) := K.handle m.regs m.mem m.sys
    { ((m.set .rax v).set .rcx (K.rcx m)).set .r11 (K.r11 m) with mem := mem, sys := sys }
  | .jnz target => if m.zf then m else { m with rip := target }
  | .call target => m.called target m.rip
  | .ret => { m.set .rsp (m.regs .rsp + 8) with rip := m.mem.load (m.regs .rsp) }
  | .jmpAt base disp => { m with rip := m.mem.load (m.regs base + disp) }

def step (K : Kernel κ) (code : Code) (m : Machine κ) : Option (Machine κ) :=
  (code m.rip).map fun (i, next) => { m with rip := next }.exec K i

def steps (K : Kernel κ) (code : Code) : Nat → Machine κ → Option (Machine κ)
  | 0, m => some m
  | n + 1, m => (m.step K code).bind (steps K code n)

/-- Execution comes from `m` to `m'`. -/
def Reaches (K : Kernel κ) (code : Code) (m m' : Machine κ) : Prop :=
  ∃ n, steps K code n m = some m'

/-- The instructions of a list one after the other, each of them with `rip` past it. -/
def execAll (K : Kernel κ) (a : Nat → Word) : Nat → List Instr → Machine κ → Machine κ
  | _, [], m => m
  | i, ins :: is, m => execAll K a (i + 1) is ({ m with rip := a (i + 1) }.exec K ins)

end Machine

/-- An instruction that goes on to the next. -/
def Instr.Straight : Instr → Prop
  | .jnz _ => False
  | .call _ => False
  | .ret => False
  | .jmpAt _ _ => False
  | _ => True

namespace Machine

variable {κ : Type*} {K : Kernel κ} {code : Code} {m m' m'' : Machine κ} {a : Nat → Word}

theorem exec_rip {ins : Instr} (h : ins.Straight) (m : Machine κ) : (m.exec K ins).rip = m.rip := by
  cases ins with
  | jnz target => exact h.elim
  | call target => exact h.elim
  | ret => exact h.elim
  | jmpAt base disp => exact h.elim
  | _ => rfl

theorem Reaches.refl (m : Machine κ) : Reaches K code m m := ⟨0, rfl⟩

theorem steps_add (i j : Nat) (m : Machine κ) :
    steps K code (i + j) m = (steps K code i m).bind (steps K code j) := by
  induction i generalizing m with
  | zero => simp [steps]
  | succ i ih =>
    rw [show i + 1 + j = (i + j) + 1 by omega, steps, steps]
    cases step K code m with
    | none => rfl
    | some m' => exact ih m'

theorem Reaches.trans (h : Reaches K code m m') (h' : Reaches K code m' m'') :
    Reaches K code m m'' := by
  obtain ⟨i, hi⟩ := h
  obtain ⟨j, hj⟩ := h'
  refine ⟨i + j, ?_⟩
  rw [steps_add, hi]
  exact hj

theorem reaches_exec {is : List Instr} (hcode : code.Laid a is) (i : Nat) {ins : Instr}
    (hi : is[i]? = some ins) (hrip : m.rip = a i) :
    Reaches K code m ({ m with rip := a (i + 1) }.exec K ins) := by
  refine ⟨1, ?_⟩
  rw [steps, step, hrip, hcode i ins hi]
  rfl

theorem reaches_syscall {is : List Instr} (hcode : code.Laid a is) (i : Nat)
    (hi : is[i]? = some .syscall) (hrip : m.rip = a i) {v : Word} {mem : Memory} {sys : κ}
    (h : K.handle m.regs m.mem m.sys = (v, mem, sys)) :
    ∃ m', Reaches K code m m' ∧ m'.rip = a (i + 1) ∧ m'.mem = mem ∧ m'.sys = sys ∧
      m'.regs .rax = v ∧ ∀ r, r ∉ [Reg.rax, .rcx, .r11] → m'.regs r = m.regs r := by
  refine ⟨_, reaches_exec hcode i hi hrip, rfl, congrArg (·.2.1) h, congrArg (·.2.2) h, congrArg
    Prod.fst h, ?_⟩
  intro r hr
  simp only [List.mem_cons, List.not_mem_nil, or_false, not_or] at hr
  simp [exec, set, hr]

theorem reaches_execAll {is : List Instr} (hcode : code.Laid a is) (i : Nat) (js : List Instr)
    (hjs : js <+: is.drop i) (hs : ∀ ins ∈ js, ins.Straight) (hrip : m.rip = a i) :
    Reaches K code m (execAll K a i js m) ∧ (execAll K a i js m).rip = a (i + js.length) := by
  induction js generalizing i m with
  | nil => exact ⟨.refl m, hrip⟩
  | cons ins js ih =>
    obtain ⟨t, ht⟩ := hjs
    have hi : is[i]? = some ins := by
      rw [← List.head?_drop, ← ht]
      rfl
    have hrest : js <+: is.drop (i + 1) := ⟨t, by rw [← List.tail_drop, ← ht]; rfl⟩
    have hstraight := hs ins (by simp)
    have hnext := ih (i + 1) hrest (fun j hj => hs j (by simp [hj]))
      (exec_rip (K := K) hstraight { m with rip := a (i + 1) })
    refine ⟨(reaches_exec hcode i hi hrip).trans hnext.1, ?_⟩
    rw [execAll, hnext.2, List.length_cons]
    congr 1
    omega

end Machine

end NctuCourses.Lib.X64
