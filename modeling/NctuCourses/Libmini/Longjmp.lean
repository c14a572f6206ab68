import NctuCourses.Libmini.Setjmp

namespace NctuCourses.Libmini

open NctuCourses.Lib.X64

theorem and_not_of_and_eq_zero {w v : Word} (h : w &&& v = 0) : w &&& ~~~v = w := by
  calc
    w &&& ~~~v = w &&& ~~~v ||| w &&& v := by rw [h, show (0 : Word) = 0#64 from rfl,
      BitVec.or_zero]
    _ = w &&& (~~~v ||| v) := BitVec.and_or_distrib_left.symm
    _ = w := by rw [BitVec.or_comm, BitVec.or_not_self, BitVec.and_allOnes]

theorem SigMask.of_bits (mask : SigMask) : SigMask.of mask.bits = mask := by
  cases mask with
  | mk bits blockable =>
    rw [SigMask.of, SigMask.mk.injEq]
    exact and_not_of_and_eq_zero blockable

variable {code : Code} {K : Kernel SigMask} {lj : Nat → Word}

/-- The value is `val`, or 1 if it is 0. -/
theorem longjmp_value {stub : Word} (hlj : code.Laid lj (longjmp stub (lj 19)))
    {m : Machine SigMask} (hrip : m.rip = lj 15) :
    ∃ m', Machine.Reaches K code m m' ∧ m'.rip = lj 19 ∧ m'.mem = m.mem ∧ m'.sys = m.sys ∧
      m'.regs .rax = (if m.regs .rsi = 0 then 1 else m.regs .rsi) ∧ ∀ r, r ≠ .rax →
      m'.regs r = m.regs r := by
  obtain ⟨htest, hrip₁⟩ := Machine.reaches_execAll (K := K) hlj 15
    [.mov .rax .rsi, .test .rax .rax] ⟨_, rfl⟩ (by simp [Instr.Straight]) hrip
  have hzf : (Machine.execAll K lj 15 [.mov .rax .rsi, .test .rax .rax] m).zf =
      (m.regs .rsi == 0) := by
    change (m.regs .rsi &&& m.regs .rsi == 0) = _
    rw [BitVec.and_self]
  have hregs : (Machine.execAll K lj 15 [.mov .rax .rsi, .test .rax .rax] m).regs =
      Function.update m.regs .rax (m.regs .rsi) := rfl
  have hjump := Machine.reaches_exec (K := K) hlj 17 rfl hrip₁
  rw [Machine.exec] at hjump
  by_cases hz : m.regs .rsi = 0
  · rw [if_pos (by rw [hzf, hz]; rfl)] at hjump
    obtain ⟨hinc, hrip₂⟩ := Machine.reaches_execAll (K := K)
      (m := { Machine.execAll K lj 15 [.mov .rax .rsi, .test .rax .rax] m with rip := lj 18 })
      hlj 18 [.inc .rax] ⟨_, rfl⟩ (by simp [Instr.Straight]) rfl
    refine ⟨_, (htest.trans hjump).trans hinc, hrip₂, rfl, rfl, ?_, ?_⟩
    · rw [if_pos hz]
      change m.regs .rsi + 1 = 1
      rw [hz]
      rfl
    · intro r hr
      simp [Machine.execAll, Machine.exec, Machine.set, hr]
  · rw [if_neg (by rw [hzf]; simpa using hz)] at hjump
    refine ⟨_, htest.trans hjump, rfl, rfl, rfl, ?_, ?_⟩
    · rw [if_neg hz]
      rfl
    · intro r hr
      simp [Machine.execAll, Machine.exec, Machine.set, hr]

/-- The registers are read from `env`, and the routine jumps to the return address. -/
theorem longjmp_finish {stub : Word} (hlj : code.Laid lj (longjmp stub (lj 19)))
    {m : Machine SigMask} (hrip : m.rip = lj 19) {regs : Reg → Word} {ret : Word} {mask : SigMask}
    (h : Saved m.mem (m.regs .rdi) regs ret mask) :
    ∃ m', Machine.Reaches K code m m' ∧ m'.rip = ret ∧ m'.mem = m.mem ∧ m'.sys = m.sys ∧
      m'.regs .rax = m.regs .rax ∧ ∀ r ∈ [Reg.rbx, .rsp, .rbp, .r12, .r13, .r14, .r15],
      m'.regs r = regs r := by
  obtain ⟨hload, hrip₁⟩ := Machine.reaches_execAll (K := K) hlj 19
    [.movFrom .rbx .rdi 0, .movFrom .rsp .rdi 8, .movFrom .rbp .rdi 16, .movFrom .r12 .rdi 24,
      .movFrom .r13 .rdi 32, .movFrom .r14 .rdi 40, .movFrom .r15 .rdi 48] ⟨_, rfl⟩
        (by simp [Instr.Straight]) hrip
  have hjump := Machine.reaches_exec (K := K) hlj 26 rfl hrip₁
  refine ⟨_, hload.trans hjump, h.rip, rfl, rfl, rfl, ?_⟩
  intro r hr
  cases r with
  | rbx =>
    change m.mem.load (m.regs .rdi + 0) = _
    rw [show m.regs .rdi + 0 = m.regs .rdi from BitVec.add_zero _, h.rbx]
  | rsp => exact h.rsp
  | rbp => exact h.rbp
  | r12 => exact h.r12
  | r13 => exact h.r13
  | r14 => exact h.r14
  | r15 => exact h.r15
  | _ => simp at hr

/-- `longjmp` on an `env` that `setjmp` has written comes back to the context that was saved. It has
kept all of memory but seven words of the stack. -/
theorem longjmp_run (hK : Linux K) {stub : Nat → Word} (hstub : code.Laid stub (gensys 14))
    (hlj : code.Laid lj (longjmp (stub 0) (lj 19))) (m : Machine SigMask) (ret' : Word)
    (henv : (m.regs .rdi).toNat + 72 ≤ 2 ^ 64) (h : Apart (m.regs .rdi) 72 (m.regs .rsp - 56) 56)
    {regs : Reg → Word} {ret : Word} {mask : SigMask}
    (hsaved : Saved m.mem (m.regs .rdi) regs ret mask) :
    ∃ m', Machine.Reaches K code (m.called (lj 0) ret') m' ∧ m'.rip = ret ∧ m'.sys = mask ∧
      m'.regs .rax = (if m.regs .rsi = 0 then 1 else m.regs .rsi) ∧
      (∀ r ∈ [Reg.rbx, .rsp, .rbp, .r12, .r13, .r14, .r15], m'.regs r = regs r) ∧
      ∀ x, 56 ≤ (x - (m.regs .rsp - 56)).toNat → m'.mem x = m.mem x := by
  have hrsp : (m.called (lj 0) ret').regs .rsp = m.regs .rsp - 8 := rfl
  have hframe : ∀ x, 56 ≤ (x - (m.regs .rsp - 56)).toNat →
      frame (m.called (lj 0) ret').mem (m.called (lj 0) ret').regs (lj 10) x = m.mem x := by
    intro x hx
    obtain ⟨hstack, _, hpush⟩ := outside_stack hx
    rw [frame_outside (m.called (lj 0) ret').mem (m.called (lj 0) ret').regs (lj 10) hstack]
    exact Memory.store_outside hpush
  have hsaved' : Saved (frame (m.called (lj 0) ret').mem (m.called (lj 0) ret').regs (lj 10))
      (m.regs .rdi) regs ret mask := by
    apply hsaved.congr
    intro i hi
    apply hframe
    exact h.outside hi
  have hcall : ∀ regs : Reg → Word, regs .rax = 14 → regs .rdi = 2 → regs .rsi = m.regs .rdi + 64 →
      regs .rdx = 0 →
      regs .r10 = 8 → K.handle regs (frame (m.called (lj 0) ret').mem (m.called (lj 0) ret').regs
        (lj 10)) m.sys =
        (0, frame (m.called (lj 0) ret').mem (m.called (lj 0) ret').regs (lj 10), mask) := by
    intro regs h1 h2 h3 h4 h5
    have hne : m.regs .rdi + 64 ≠ 0 := by bv_omega
    rw [hK regs _ _ h1, h2, h3, h4, h5, rtSigprocmask, if_neg (by simp), if_neg hne,
      hsaved'.mask, SigMask.of_bits]
    rfl
  have hargs : ∀ m₁ : Machine SigMask, m₁.regs .r8 = (m.called (lj 0) ret').regs .rdi →
      (Machine.execAll K lj 5 [.movImm .rdi 2, .lea .rsi .r8 64, .movImm .rdx 0] m₁).regs =
        Function.update (Function.update (Function.update m₁.regs .rdi 2) .rsi
          (m.regs .rdi + 64)) .rdx 0 ∧
      (Machine.execAll K lj 5 [.movImm .rdi 2, .lea .rsi .r8 64, .movImm .rdx 0] m₁).mem = m₁.mem ∧
      (Machine.execAll K lj 5 [.movImm .rdi 2, .lea .rsi .r8 64, .movImm .rdx 0] m₁).sys =
        m₁.sys := by
    intro m₁ h8
    refine ⟨?_, rfl, rfl⟩
    rw [show m.regs .rdi = m₁.regs .r8 from h8.symm]
    rfl
  obtain ⟨m₁, hmask, hrip₁, hmem₁, hsys₁, hregs₁⟩ :=
    maskCall_run hstub hlj ⟨_, rfl⟩ (by simp [Instr.Straight]) rfl hargs
    hcall (Agree.refl _ _ _)
  have hrdi₁ : m₁.regs .rdi = m.regs .rdi := hregs₁ .rdi (by decide)
  have hrsi₁ : m₁.regs .rsi = m.regs .rsi := hregs₁ .rsi (by decide)
  obtain ⟨m₂, hvalue, hrip₂, hmem₂, hsys₂, hrax₂, hregs₂⟩ := longjmp_value (K := K) hlj hrip₁
  have hsaved₂ : Saved m₂.mem (m₂.regs .rdi) regs ret mask := by
    rw [hmem₂, hmem₁, hregs₂ .rdi (by decide), hrdi₁]
    exact hsaved'
  obtain ⟨m₃, hfinish, hrip₃, hmem₃, hsys₃, hrax₃, hregs₃⟩ :=
    longjmp_finish (K := K) hlj hrip₂ hsaved₂
  refine ⟨m₃, (hmask.trans hvalue).trans hfinish, hrip₃, (hsys₃.trans hsys₂).trans hsys₁,
    ?_, hregs₃, ?_⟩
  · rw [hrax₃, hrax₂, hrsi₁]
  · intro x hx
    rw [hmem₃, hmem₂, hmem₁, hframe x hx]

/-- The routines are in the code, with the stub that both of them call. -/
structure Library (code : Code) (stub sj lj : Nat → Word) : Prop where
  gensys : code.Laid stub (gensys 14)
  setjmp : code.Laid sj (setjmp (stub 0))
  longjmp : code.Laid lj (longjmp (stub 0) (lj 19))

/-- A call with an `env` in `rdi`: there is room on the stack, and `env` is
not in the unused part of it. -/
structure Callable (m : Machine SigMask) : Prop where
  env : (m.regs .rdi).toNat + 72 ≤ 2 ^ 64
  room : 56 ≤ (m.regs .rsp).toNat
  apart : Apart (m.regs .rdi) 72 (m.regs .rsp - 56) 56

/-- What is above the stack of a call is not in the words that the call uses. -/
theorem outside_of_le {rsp top x : Word} (hroom : 56 ≤ rsp.toNat) (hle : rsp.toNat ≤ top.toNat)
    (hx : top.toNat ≤ x.toNat) : 56 ≤ (x - (rsp - 56)).toNat := by
  bv_omega

/-- `setjmp` returns 0, and a `longjmp` later on, from any state in which `env` is as it
was left, returns from it once more: with the value, the registers, the stack and the
signal mask of the first return. -/
theorem longjmp_undoes {stub sj : Nat → Word} (hK : Linux K) (hlib : Library code stub sj lj)
    (m : Machine SigMask) (ret : Word) (h : Callable m) :
    ∃ m₁, Machine.Reaches K code (m.called (sj 0) ret) m₁ ∧ m₁.rip = ret ∧ m₁.regs .rax = 0 ∧
      m₁.sys = m.sys ∧ (∀ r, r ∉ [Reg.rax, .r11] → m₁.regs r = m.regs r) ∧
      (∀ x, (m₁.regs .rsp).toNat ≤ x.toNat → 72 ≤ (x - m.regs .rdi).toNat → m₁.mem x = m.mem x) ∧
      ∀ (m₂ : Machine SigMask) (ret' : Word), Callable m₂ → m₂.regs .rdi = m.regs .rdi →
        Agree m₂.mem m₁.mem (m.regs .rdi) 72 → (m₂.regs .rsp).toNat ≤ (m₁.regs .rsp).toNat →
        ∃ m₃, Machine.Reaches K code (m₂.called (lj 0) ret') m₃ ∧ m₃.rip = ret ∧
          m₃.regs .rax = (if m₂.regs .rsi = 0 then 1 else m₂.regs .rsi) ∧ m₃.sys = m.sys ∧
          (∀ r ∈ [Reg.rbx, .rbp, .r12, .r13, .r14, .r15], m₃.regs r = m.regs r) ∧
          m₃.regs .rsp = m₁.regs .rsp ∧
          ∀ x, (m₁.regs .rsp).toNat ≤ x.toNat → m₃.mem x = m₂.mem x := by
  obtain ⟨m₁, hreach, hrip, hrax, hsys, hregs, hsaved, hmem⟩ :=
    setjmp_run hK hlib.gensys hlib.setjmp m ret h.env h.apart
  have hrsp : m₁.regs .rsp = m.regs .rsp := hregs .rsp (by decide)
  refine ⟨m₁, hreach, hrip, hrax, hsys, hregs, ?_, ?_⟩
  · intro x hx henv
    exact hmem x (outside_of_le h.room le_rfl (hrsp ▸ hx)) henv
  · intro m₂ ret' h₂ hrdi hagree hle
    have hsaved₂ : Saved m₂.mem (m₂.regs .rdi) m.regs ret m.sys := by
      rw [hrdi]
      exact hsaved.congr hagree
    obtain ⟨m₃, hreach₃, hrip₃, hsys₃, hrax₃, hregs₃, hmem₃⟩ :=
      longjmp_run hK hlib.gensys hlib.longjmp m₂ ret' h₂.env h₂.apart hsaved₂
    refine ⟨m₃, hreach₃, hrip₃, hrax₃, hsys₃, ?_, ?_, ?_⟩
    · intro r hr
      apply hregs₃
      simp only [List.mem_cons] at hr ⊢
      tauto
    · exact (hregs₃ .rsp (by decide)).trans hrsp.symm
    · intro x hx
      exact hmem₃ x (outside_of_le h₂.room hle hx)

/-- Code with one address for each instruction. -/
def laidAt (base : Word) (is : List Instr) : Code := fun a => is[(a - base).toNat]?.map (·, a + 1)

/-- The stub at `0x1000`, `setjmp` at `0x2000` and `longjmp` at `0x3000`. -/
def libraryCode : Code := fun a =>
  if a.toNat < 0x2000 then laidAt 0x1000 (gensys 14) a
  else if a.toNat < 0x3000 then laidAt 0x2000 (setjmp 0x1000) a
  else laidAt 0x3000 (longjmp 0x1000 0x3013) a

theorem laid_of_eq_laidAt {base : Word} {is : List Instr} (his : is.length < 2 ^ 64)
    (h : ∀ i < is.length, code (base + BitVec.ofNat 64 i) = laidAt base is
      (base + BitVec.ofNat 64 i)) :
    code.Laid (fun i => base + BitVec.ofNat 64 i) is := by
  intro i ins hi
  have hlt := (List.getElem?_eq_some_iff.mp hi).1
  have hindex : (base + BitVec.ofNat 64 i - base).toNat = i := by bv_omega
  dsimp only
  rw [h i hlt, laidAt, hindex, hi, BitVec.ofNat_add, ← BitVec.add_assoc]
  rfl

theorem library_libraryCode : Library libraryCode (fun i => 0x1000 + BitVec.ofNat 64 i)
    (fun i => 0x2000 + BitVec.ofNat 64 i) (fun i => 0x3000 + BitVec.ofNat 64 i) where
  gensys := by
    apply laid_of_eq_laidAt (by decide)
    intro i hi
    have hi : i < 6 := hi
    rw [libraryCode, if_pos (by bv_omega)]
  setjmp := by
    apply laid_of_eq_laidAt (by decide)
    intro i hi
    have hi : i < 29 := hi
    rw [libraryCode, if_neg (by bv_omega), if_pos (by bv_omega)]
    rfl
  longjmp := by
    apply laid_of_eq_laidAt (by decide)
    intro i hi
    have hi : i < 27 := hi
    rw [libraryCode, if_neg (by bv_omega), if_neg (by bv_omega)]
    rfl

/-- A kernel that knows this one system call. -/
def maskKernel : Kernel SigMask where
  handle regs mem mask :=
    if regs .rax = 14 then rtSigprocmask (regs .rdi) (regs .rsi) (regs .rdx) (regs .r10) mem mask
      else (-38, mem, mask)
  rcx m := m.rip
  r11 _ := 0x246

theorem linux_maskKernel : Linux maskKernel := by
  intro regs mem mask h
  exact if_pos h

/-- A machine with `env` at `0x9000` and the stack below `0x8000`. -/
def callState (rsp val : Word) (mem : Memory) (mask : Word) : Machine SigMask where
  regs := Function.update (Function.update (Function.update (fun _ => 0) .rdi 0x9000) .rsi val)
    .rsp rsp
  zf := false
  mem := mem
  rip := 0
  sys := .of mask

theorem callable_callState {rsp : Word} (hroom : 56 ≤ rsp.toNat) (hle : rsp.toNat ≤ 0x9000)
    (val : Word) (mem : Memory) (mask : Word) : Callable (callState rsp val mem mask) where
  env := by
    change (0x9000 : Word).toNat + 72 ≤ 2 ^ 64
    decide
  room := hroom
  apart := by
    change 72 ≤ (rsp - 56 - 0x9000).toNat ∧ 56 ≤ (0x9000 - (rsp - 56)).toNat
    constructor
    · bv_omega
    · bv_omega

/-- The second call comes from further down the stack, with `SIGALRM` blocked. -/
theorem longjmp_undoes_deeper : ∃ m₁ m₃ : Machine SigMask,
    Machine.Reaches maskKernel libraryCode
      ((callState 0x8000 0 (fun _ => 0) 2).called 0x2000 0x4000) m₁ ∧
      m₁.rip = 0x4000 ∧ m₁.regs .rax = 0 ∧
      Machine.Reaches maskKernel libraryCode
        ((callState 0x7000 5 m₁.mem 0x2002).called 0x3000 0x5000) m₃ ∧
      m₃.rip = 0x4000 ∧ m₃.regs .rax = 5 ∧ m₃.regs .rsp = 0x8000 ∧ m₃.sys.bits = 2 := by
  obtain ⟨m₁, hset, hrip, hrax, -, hregs, -, hlong⟩ :=
    longjmp_undoes linux_maskKernel library_libraryCode
    (callState 0x8000 0 (fun _ => 0) 2) 0x4000 (callable_callState (by decide) (by decide) _ _ _)
  have hrsp : m₁.regs .rsp = 0x8000 := hregs .rsp (by decide)
  have hdeeper : (0x7000 : Word).toNat ≤ (0x8000 : Word).toNat := by decide
  obtain ⟨m₃, hjmp, hrip₃, hrax₃, hsys₃, -, hrsp₃, -⟩ :=
    hlong (callState 0x7000 5 m₁.mem 0x2002) 0x5000
    (callable_callState (by decide) (by decide) _ _ _) rfl (Agree.refl _ _ _) (hrsp ▸ hdeeper)
  refine ⟨m₁, m₃, hset, hrip, hrax, hjmp, hrip₃, hrax₃, hrsp₃.trans hrsp, ?_⟩
  rw [hsys₃]
  rfl

end NctuCourses.Libmini
