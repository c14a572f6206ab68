import NctuCourses.Lib.X64.Machine

namespace NctuCourses.Libmini

open NctuCourses.Lib.X64

/-- A stub made by `gensys`. -/
def gensys (nr : Word) : List Instr :=
  [.push .r10, .mov .r10 .rcx, .movImm .rax nr, .syscall, .pop .r10, .ret]

def setjmp (sysRtSigprocmask : Word) : List Instr :=
  [.push .r8, .push .rsi, .push .rdx, .push .rcx, .mov .r8 .rdi, .movImm .rdi 0,
    .movImm .rsi 0, .lea .rdx .r8 64, .movImm .rcx 8, .call sysRtSigprocmask,
    .mov .rdi .r8, .pop .rcx, .pop .rdx, .pop .rsi, .pop .r8, .movTo .rdi 0 .rbx,
    .push .rdx, .lea .rdx .rsp 16, .movTo .rdi 8 .rdx, .movTo .rdi 16 .rbp, .movTo .rdi 24 .r12,
    .movTo .rdi 32 .r13, .movTo .rdi 40 .r14, .movTo .rdi 48 .r15, .movFrom .rdx .rsp 8,
    .movTo .rdi 56 .rdx, .pop .rdx, .xor .rax .rax, .ret]

def longjmp (sysRtSigprocmask longjmp2 : Word) : List Instr :=
  [.push .r8, .push .rsi, .push .rdx, .push .rcx, .mov .r8 .rdi, .movImm .rdi 2,
    .lea .rsi .r8 64, .movImm .rdx 0, .movImm .rcx 8, .call sysRtSigprocmask,
    .mov .rdi .r8, .pop .rcx, .pop .rdx, .pop .rsi, .pop .r8, .mov .rax .rsi,
    .test .rax .rax, .jnz longjmp2, .inc .rax, .movFrom .rbx .rdi 0, .movFrom .rsp .rdi 8,
    .movFrom .rbp .rdi 16, .movFrom .r12 .rdi 24, .movFrom .r13 .rdi 32, .movFrom .r14 .rdi 40,
    .movFrom .r15 .rdi 48, .jmpAt .rdi 56]

/-- `SIGKILL` and `SIGSTOP`. -/
def unblockable : Word := 0x40100

/-- The signals that a thread blocks. -/
structure SigMask where
  bits : Word
  blockable : bits &&& unblockable = 0

theorem and_not_unblockable (w : Word) : w &&& ~~~unblockable &&& unblockable = 0 := by
  rw [BitVec.and_assoc, BitVec.and_comm (~~~unblockable), BitVec.and_not_self]
  exact BitVec.and_zero

def SigMask.of (w : Word) : SigMask := ⟨w &&& ~~~unblockable, and_not_unblockable w⟩

/-- `sigprocmask` of Linux. -/
def sigprocmask (how : BitVec 32) (new old : SigMask) : Option SigMask :=
  if how = 0 then some (.of (old.bits ||| new.bits))
  else if how = 1 then some (.of (old.bits &&& ~~~new.bits))
  else if how = 2 then some new
  else none

/-- The system call as Linux handles it: the result, memory, and the mask. -/
def rtSigprocmask (how nset oset size : Word) (mem : Memory) (old : SigMask) :
    Word × Memory × SigMask :=
  if size ≠ 8 then (-22, mem, old)
  else
    match if nset = 0 then some old else sigprocmask (how.setWidth 32)
      (.of (mem.load nset)) old with
    | none => (-22, mem, old)
    | some new => (0, if oset = 0 then mem else mem.store oset old.bits, new)

/-- A kernel in which system call 14 is `rt_sigprocmask`; nothing is said about the others. -/
def Linux (K : Kernel SigMask) : Prop :=
  ∀ regs mem mask, regs .rax = 14 →
    K.handle regs mem mask = rtSigprocmask (regs .rdi) (regs .rsi) (regs .rdx) (regs .r10) mem mask

variable {κ : Type*} {K : Kernel κ} {code : Code}

/-- A system call through a stub. It keeps all registers but those that `syscall` clobbers. -/
theorem gensys_run {stub : Nat → Word} {nr : Word} (hstub : code.Laid stub (gensys nr))
    {m : Machine κ} (hrip : m.rip = stub 0) {v : Word} {mem : Memory} {sys : κ}
    (hcall : ∀ regs : Reg → Word, regs .rax = nr → regs .rdi = m.regs .rdi →
      regs .rsi = m.regs .rsi → regs .rdx = m.regs .rdx → regs .r10 = m.regs .rcx →
      K.handle regs (m.mem.store (m.regs .rsp - 8) (m.regs .r10)) m.sys = (v, mem, sys))
    (hkeep : mem.load (m.regs .rsp - 8) = m.regs .r10) :
    ∃ m', Machine.Reaches K code m m' ∧ m'.rip = mem.load (m.regs .rsp) ∧
    m'.regs .rsp = m.regs .rsp + 8 ∧
      (∀ r, r ∉ [Reg.rax, .rcx, .r11, .rsp] → m'.regs r = m.regs r) ∧ m'.mem = mem ∧
      m'.sys = sys := by
  obtain ⟨hargs, hrip₁⟩ := Machine.reaches_execAll (K := K) hstub 0
    [.push .r10, .mov .r10 .rcx, .movImm .rax nr] ⟨_, rfl⟩ (by simp [Instr.Straight]) hrip
  obtain ⟨m₁, hsys, hrip₂, hmem, hst, _, hregs⟩ :=
    Machine.reaches_syscall (K := K) hstub 3 rfl hrip₁
    (hcall _ rfl rfl rfl rfl rfl)
  have hrsp : m₁.regs .rsp = m.regs .rsp - 8 := hregs .rsp (by decide)
  obtain ⟨hpop, hrip₃⟩ := Machine.reaches_execAll (K := K) hstub 4 [.pop .r10]
    ⟨_, rfl⟩ (by simp [Instr.Straight]) hrip₂
  have hret := Machine.reaches_exec (K := K) hstub 5 rfl hrip₃
  refine ⟨_, ((hargs.trans hsys).trans hpop).trans hret, ?_, ?_, ?_, hmem, hst⟩
  · change m₁.mem.load (m₁.regs .rsp + 8) = _
    rw [hmem, hrsp, BitVec.sub_add_cancel]
  · change m₁.regs .rsp + 8 + 8 = _
    rw [hrsp, BitVec.sub_add_cancel]
  · intro r hr
    simp only [List.mem_cons, List.not_mem_nil, or_false, not_or] at hr
    obtain ⟨hrax, hrcx, hr11, hne⟩ := hr
    by_cases h10 : r = .r10
    · subst h10
      change m₁.mem.load (m₁.regs .rsp) = _
      rw [hmem, hrsp, hkeep]
    · have hm₁ := hregs r (by simp [hrax, hrcx, hr11])
      simp only [Machine.execAll, Machine.exec, Machine.push, Machine.set, Function.update_apply,
        hrax, h10, hne, if_false] at hm₁ ⊢
      exact hm₁

/-- How both routines begin: four registers are saved, and the system call is made with three
arguments of their own. -/
def maskCall (x y z : Instr) (sysRtSigprocmask : Word) : List Instr :=
  [.push .r8, .push .rsi, .push .rdx, .push .rcx, .mov .r8 .rdi, x, y, z, .movImm .rcx 8,
    .call sysRtSigprocmask, .mov .rdi .r8, .pop .rcx, .pop .rdx, .pop .rsi, .pop .r8]

/-- Memory with the six words that are on the stack during the system call. -/
def frame (mem : Memory) (regs : Reg → Word) (ret : Word) : Memory :=
  (((((mem.store (regs .rsp - 8) (regs .r8)).store (regs .rsp - 16) (regs .rsi)).store
    (regs .rsp - 24) (regs .rdx)).store (regs .rsp - 32) (regs .rcx)).store
    (regs .rsp - 40) ret).store (regs .rsp - 48) (regs .r10)

section Frame

variable (mem : Memory) (regs : Reg → Word) (ret : Word)

theorem frame_outside {x : Word} (hx : 48 ≤ (x - (regs .rsp - 48)).toNat) :
    frame mem regs ret x = mem x := by
  rw [frame, Memory.store_outside (by bv_omega), Memory.store_outside (by bv_omega),
    Memory.store_outside (by bv_omega), Memory.store_outside (by bv_omega),
    Memory.store_outside (by bv_omega), Memory.store_outside (by bv_omega)]

theorem frame_agree {b : Word} {n : Nat} (h : Apart b n (regs .rsp - 48) 48) :
    Agree (frame mem regs ret) mem b n := by
  intro i hi
  apply frame_outside
  exact h.outside hi

theorem frame_load : (frame mem regs ret).load (regs .rsp - 8) = regs .r8 ∧
    (frame mem regs ret).load (regs .rsp - 16) = regs .rsi ∧
    (frame mem regs ret).load (regs .rsp - 24) = regs .rdx ∧
    (frame mem regs ret).load (regs .rsp - 32) = regs .rcx ∧
    (frame mem regs ret).load (regs .rsp - 40) = ret ∧
    (frame mem regs ret).load (regs .rsp - 48) = regs .r10 := by
  have hapart : ∀ i j : Word, 8 ≤ (i - j).toNat → 8 ≤ (j - i).toNat →
      Apart (regs .rsp - i) 8 (regs .rsp - j) 8 := by
    intro i j h1 h2
    constructor
    · bv_omega
    · bv_omega
  have hload : ∀ (m : Memory) (i j v : Word), 8 ≤ (i - j).toNat → 8 ≤ (j - i).toNat →
      (m.store (regs .rsp - j) v).load (regs .rsp - i) = m.load (regs .rsp - i) :=
    fun m i j v h1 h2 => Memory.load_store_apart (hapart i j h1 h2)
  refine ⟨?_, ?_, ?_, ?_, ?_, ?_⟩
  all_goals
    rw [frame]
    repeat rw [hload _ _ _ _ (by decide) (by decide)]
    rw [Memory.load_store_self]

end Frame

theorem maskCall_enter {a : Nat → Word} {is : List Instr} (hcode : code.Laid a is) {x y z : Instr}
    {stub : Word} (his : maskCall x y z stub <+: is) (hs : ∀ i ∈ [x, y, z], i.Straight)
    {m : Machine κ} (hrip : m.rip = a 0) {how nset oset : Word}
    (hargs : ∀ m₁ : Machine κ, m₁.regs .r8 = m.regs .rdi →
      (Machine.execAll K a 5 [x, y, z] m₁).regs = Function.update
      (Function.update (Function.update m₁.regs .rdi how) .rsi nset) .rdx oset ∧
      (Machine.execAll K a 5 [x, y, z] m₁).mem = m₁.mem ∧
      (Machine.execAll K a 5 [x, y, z] m₁).sys = m₁.sys) :
    ∃ m', Machine.Reaches K code m m' ∧ m'.rip = stub ∧ m'.sys = m.sys ∧
      m'.mem.store (m'.regs .rsp - 8) (m'.regs .r10) = frame m.mem m.regs (a 10) ∧
      m'.regs .rsp = m.regs .rsp - 40 ∧ m'.regs .r8 = m.regs .rdi ∧ m'.regs .rdi = how ∧
      m'.regs .rsi = nset ∧ m'.regs .rdx = oset ∧ m'.regs .rcx = 8 ∧
      ∀ r, r ∉ [Reg.rsp, .r8, .rdi, .rsi, .rdx, .rcx] → m'.regs r = m.regs r := by
  obtain ⟨rest, rfl⟩ := his
  obtain ⟨hsave, hrip₁⟩ := Machine.reaches_execAll (K := K) hcode 0
    [.push .r8, .push .rsi, .push .rdx, .push .rcx, .mov .r8 .rdi] ⟨_, rfl⟩
      (by simp [Instr.Straight]) hrip
  obtain ⟨hset, hrip₂⟩ := Machine.reaches_execAll (K := K) hcode 5 [x, y, z] ⟨_, rfl⟩ hs hrip₁
  obtain ⟨hregs, hmem, hsys⟩ := hargs (Machine.execAll K a 0
    [.push .r8, .push .rsi, .push .rdx, .push .rcx, .mov .r8 .rdi] m) rfl
  generalize Machine.execAll K a 5 [x, y, z] _ = m₂ at hset hrip₂ hregs hmem hsys
  obtain ⟨hcount, hrip₃⟩ :=
    Machine.reaches_execAll (K := K) hcode 8 [.movImm .rcx 8] ⟨_, rfl⟩ (by simp [Instr.Straight])
    hrip₂
  have hcall := Machine.reaches_exec (K := K) hcode 9 rfl hrip₃
  have hrsp : m₂.regs .rsp = m.regs .rsp - 32 := by
    rw [hregs]
    change m.regs .rsp - 8 - 8 - 8 - 8 = _
    bv_omega
  refine ⟨_, ((hsave.trans hset).trans hcount).trans hcall, rfl, hsys, ?_, ?_,
    ?_, ?_, ?_, ?_, rfl, ?_⟩
  · change (m₂.mem.store (m₂.regs .rsp - 8) (a 10)).store (m₂.regs .rsp - 8 - 8) (m₂.regs .r10) = _
    rw [hmem, hrsp, hregs, frame]
    have hsub : ∀ i j : Word, m.regs .rsp - i - j = m.regs .rsp - (i + j) := fun i j => by bv_omega
    change (((((m.mem.store (m.regs .rsp - 8) (m.regs .r8)).store (m.regs .rsp - 8 - 8)
      (m.regs .rsi)).store
      (m.regs .rsp - 8 - 8 - 8) (m.regs .rdx)).store (m.regs .rsp - 8 - 8 - 8 - 8)
        (m.regs .rcx)).store
      (m.regs .rsp - 32 - 8) (a 10)).store (m.regs .rsp - 32 - 8 - 8) (m.regs .r10) = _
    simp only [hsub]
    rfl
  · change m₂.regs .rsp - 8 = _
    rw [hrsp]
    bv_omega
  · change m₂.regs .r8 = _
    rw [hregs]
    rfl
  · change m₂.regs .rdi = _
    rw [hregs]
    rfl
  · change m₂.regs .rsi = _
    rw [hregs]
    rfl
  · change m₂.regs .rdx = _
    rw [hregs]
    rfl
  · intro r hr
    simp only [List.mem_cons, List.not_mem_nil, or_false, not_or] at hr
    simp [Machine.execAll, Machine.exec, Machine.called, Machine.push, Machine.set, hregs, hr]

/-- The whole beginning: all registers are as before, but for those that `syscall` leaves. -/
theorem maskCall_run {stub : Nat → Word} {nr : Word} (hstub : code.Laid stub (gensys nr))
    {a : Nat → Word} {is : List Instr} (hcode : code.Laid a is) {x y z : Instr}
    (his : maskCall x y z (stub 0) <+: is) (hs : ∀ i ∈ [x, y, z], i.Straight) {m : Machine κ}
    (hrip : m.rip = a 0) {how nset oset : Word}
    (hargs : ∀ m₁ : Machine κ, m₁.regs .r8 = m.regs .rdi →
      (Machine.execAll K a 5 [x, y, z] m₁).regs = Function.update
      (Function.update (Function.update m₁.regs .rdi how) .rsi nset) .rdx oset ∧
      (Machine.execAll K a 5 [x, y, z] m₁).mem = m₁.mem ∧
      (Machine.execAll K a 5 [x, y, z] m₁).sys = m₁.sys)
    {v : Word} {mem : Memory} {sys : κ}
    (hcall : ∀ regs : Reg → Word, regs .rax = nr → regs .rdi = how → regs .rsi = nset →
      regs .rdx = oset → regs .r10 = 8 → K.handle regs
      (frame m.mem m.regs (a 10)) m.sys = (v, mem, sys))
    (hkeep : Agree mem (frame m.mem m.regs (a 10)) (m.regs .rsp - 48) 48) :
    ∃ m', Machine.Reaches K code m m' ∧ m'.rip = a 15 ∧ m'.mem = mem ∧ m'.sys = sys ∧
      ∀ r, r ∉ [Reg.rax, .r11] → m'.regs r = m.regs r := by
  obtain ⟨m₁, henter, hrip₁, hsys₁, hmem₁, hrsp, hr8, hrdi, hrsi, hrdx, hrcx, hregs⟩ :=
    maskCall_enter hcode his hs hrip hargs
  obtain ⟨w8, w16, w24, w32, w40, w48⟩ := frame_load m.mem m.regs (a 10)
  have hload : ∀ i : Word, 8 ≤ i.toNat → i.toNat ≤ 48 →
      mem.load (m.regs .rsp - i) = (frame m.mem m.regs (a 10)).load (m.regs .rsp - i) := by
    intro i h1 h2
    apply hkeep.load
    bv_omega
  have hr10 : m₁.regs .r10 = m.regs .r10 := hregs .r10 (by decide)
  obtain ⟨m₂, hsys, hrip₂, hrsp₂, hregs₂, hmem₂, hsys₂⟩ :=
    gensys_run hstub hrip₁ (K := K) (m := m₁) (v := v)
    (fun regs h1 h2 h3 h4 h5 => by
      rw [hmem₁, hsys₁]
      exact hcall regs h1 (h2.trans hrdi) (h3.trans hrsi) (h4.trans hrdx) (h5.trans hrcx))
    (by
      rw [hrsp, hr10, show m.regs .rsp - 40 - 8 = m.regs .rsp -
        48 by bv_omega, hload 48 (by decide) (by decide), w48])
  rw [hrsp, hload 40 (by decide) (by decide), w40] at hrip₂
  rw [hrsp] at hrsp₂
  obtain ⟨rest, rfl⟩ := his
  obtain ⟨hrest, hrip₃⟩ := Machine.reaches_execAll (K := K) hcode 10
    [.mov .rdi .r8, .pop .rcx, .pop .rdx, .pop .rsi, .pop .r8] ⟨_, rfl⟩
      (by simp [Instr.Straight]) hrip₂
  refine ⟨_, (henter.trans hsys).trans hrest, hrip₃, hmem₂, hsys₂, ?_⟩
  have hword : ∀ i j : Word, j = 40 - 8 - i → 8 ≤ j.toNat → j.toNat ≤ 48 →
      m₂.mem.load (m₂.regs .rsp + i) = (frame m.mem m.regs (a 10)).load (m.regs .rsp - j) := by
    intro i j hj h1 h2
    rw [hmem₂, hrsp₂, ← hload j h1 h2, hj]
    congr 1
    bv_omega
  intro r hr
  cases r with
  | rax => exact absurd hr (by decide)
  | r11 => exact absurd hr (by decide)
  | rcx =>
    change m₂.mem.load (m₂.regs .rsp) = _
    rw [← w32, ← hword 0 32 (by decide) (by decide) (by decide)]
    congr 1
    bv_omega
  | rdx =>
    change m₂.mem.load (m₂.regs .rsp + 8) = _
    rw [← w24, ← hword 8 24 (by decide) (by decide) (by decide)]
  | rsi =>
    change m₂.mem.load (m₂.regs .rsp + 8 + 8) = _
    rw [← w16, ← hword 16 16 (by decide) (by decide) (by decide)]
    congr 1
    bv_omega
  | r8 =>
    change m₂.mem.load (m₂.regs .rsp + 8 + 8 + 8) = _
    rw [← w8, ← hword 24 8 (by decide) (by decide) (by decide)]
    congr 1
    bv_omega
  | rdi =>
    change m₂.regs .r8 = _
    rw [hregs₂ .r8 (by decide), hr8]
  | rsp =>
    change m₂.regs .rsp + 8 + 8 + 8 + 8 = _
    rw [hrsp₂]
    bv_omega
  | _ => exact (hregs₂ _ (by decide)).trans (hregs _ (by decide))

/-- What `setjmp` has written to `env`. -/
structure Saved (mem : Memory) (env : Word) (regs : Reg → Word) (ret : Word) (mask : SigMask) :
    Prop where
  rbx : mem.load env = regs .rbx
  rsp : mem.load (env + 8) = regs .rsp
  rbp : mem.load (env + 16) = regs .rbp
  r12 : mem.load (env + 24) = regs .r12
  r13 : mem.load (env + 32) = regs .r13
  r14 : mem.load (env + 40) = regs .r14
  r15 : mem.load (env + 48) = regs .r15
  rip : mem.load (env + 56) = ret
  mask : mem.load (env + 64) = mask.bits

theorem Saved.congr {mem mem' : Memory} {env : Word} {regs : Reg → Word} {ret : Word}
    {mask : SigMask} (h : Saved mem env regs ret mask) (hm : Agree mem' mem env 72) :
    Saved mem' env regs ret mask := by
  have hload : ∀ d : Word, d.toNat ≤ 64 → mem'.load (env + d) = mem.load (env + d) := by
    intro d hd
    apply hm.load
    bv_omega
  refine ⟨(hm.load (by simp)).trans h.rbx, ?_, ?_, ?_, ?_, ?_, ?_, ?_, ?_⟩
  · exact (hload 8 (by decide)).trans h.rsp
  · exact (hload 16 (by decide)).trans h.rbp
  · exact (hload 24 (by decide)).trans h.r12
  · exact (hload 32 (by decide)).trans h.r13
  · exact (hload 40 (by decide)).trans h.r14
  · exact (hload 48 (by decide)).trans h.r15
  · exact (hload 56 (by decide)).trans h.rip
  · exact (hload 64 (by decide)).trans h.mask

theorem Saved.of_regs {mem : Memory} {env : Word} {regs regs' : Reg → Word} {ret : Word}
    {mask : SigMask} (h : Saved mem env regs ret mask)
    (hr : ∀ r ∈ [Reg.rbx, .rsp, .rbp, .r12, .r13, .r14, .r15], regs r = regs' r) :
    Saved mem env regs' ret mask where
  rbx := h.rbx.trans (hr .rbx (by decide))
  rsp := h.rsp.trans (hr .rsp (by decide))
  rbp := h.rbp.trans (hr .rbp (by decide))
  r12 := h.r12.trans (hr .r12 (by decide))
  r13 := h.r13.trans (hr .r13 (by decide))
  r14 := h.r14.trans (hr .r14 (by decide))
  r15 := h.r15.trans (hr .r15 (by decide))
  rip := h.rip
  mask := h.mask

/-- The stores of `setjmp` to `env` up to that of the return address, and the
word that it pushes in between. -/
def contextMem (mem : Memory) (env : Word) (regs : Reg → Word) : Memory :=
  (((((((mem.store (env + 0) (regs .rbx)).store (regs .rsp - 8) (regs .rdx)).store
    (env + 8) (regs .rsp + 8)).store (env + 16) (regs .rbp)).store (env + 24) (regs .r12)).store
    (env + 32) (regs .r13)).store (env + 40) (regs .r14)).store (env + 48) (regs .r15)

section ContextMem

variable (mem : Memory) {env : Word} {regs : Reg → Word}

theorem contextMem_outside {x : Word} (hs : 8 ≤ (x - (regs .rsp - 8)).toNat)
    (he : 56 ≤ (x - env).toNat) :
    contextMem mem env regs x = mem x := by
  have henv : ∀ (m : Memory) (d v : Word), d.toNat ≤ 48 → m.store (env + d) v x = m x := by
    intro m d v hd
    apply Memory.store_outside
    bv_omega
  rw [contextMem]
  repeat rw [henv _ _ _ (by decide)]
  rw [Memory.store_outside hs, henv _ _ _ (by decide)]

/-- A word of the stack is not changed by a store to `env`. -/
theorem load_store_env (h : Apart env 72 (regs .rsp - 8) 16) (m : Memory) {b d : Word} (v : Word)
    (hb : (b - (regs .rsp - 8)).toNat ≤ 8) (hd : d.toNat ≤ 64) :
    (m.store (env + d) v).load b = m.load b := by
  obtain ⟨h1, h2⟩ := h
  apply Memory.load_store_apart
  constructor
  · bv_omega
  · bv_omega

theorem contextMem_stack (h : Apart env 72 (regs .rsp - 8) 16) :
    (contextMem mem env regs).load (regs .rsp) = mem.load (regs .rsp) ∧
      (contextMem mem env regs).load (regs .rsp - 8) = regs .rdx := by
  have htop : (regs .rsp - (regs .rsp - 8)).toNat ≤ 8 := by bv_omega
  have hlow : (regs .rsp - 8 - (regs .rsp - 8)).toNat ≤ 8 := by bv_omega
  constructor
  · rw [contextMem]
    repeat rw [load_store_env h _ _ htop (by decide)]
    rw [Memory.load_store_apart, load_store_env h _ _ htop (by decide)]
    constructor
    · bv_omega
    · bv_omega
  · rw [contextMem]
    repeat rw [load_store_env h _ _ hlow (by decide)]
    rw [Memory.load_store_self]

theorem contextMem_saved {mem : Memory} (h : Apart env 72 (regs .rsp - 8) 16) {mask : SigMask}
    (hmask : mem.load (env + 64) = mask.bits) (ret : Word) :
    Saved ((contextMem mem env regs).store (env + 56) ret) env
      (Function.update regs .rsp (regs .rsp + 8)) ret mask := by
  obtain ⟨h1, h2⟩ := h
  have henv : ∀ (m : Memory) (i j v : Word), 8 ≤ (i - j).toNat → 8 ≤ (j - i).toNat →
      (m.store (env + j) v).load (env + i) = m.load (env + i) := by
    intro m i j v hij hji
    apply Memory.load_store_apart
    constructor
    · bv_omega
    · bv_omega
  have hstack : ∀ (m : Memory) (i v : Word), i.toNat ≤ 64 →
      (m.store (regs .rsp - 8) v).load (env + i) = m.load (env + i) := by
    intro m i v hi
    apply Memory.load_store_apart
    constructor
    · bv_omega
    · bv_omega
  have hrbx : ((contextMem mem env regs).store (env + 56) ret).load (env + 0) = regs .rbx := by
    rw [contextMem]
    repeat rw [henv _ _ _ _ (by decide) (by decide)]
    rw [hstack _ _ _ (by decide), Memory.load_store_self]
  have hmask' : ((contextMem mem env regs).store (env + 56) ret).load (env + 64) = mask.bits := by
    rw [contextMem]
    repeat rw [henv _ _ _ _ (by decide) (by decide)]
    rw [hstack _ _ _ (by decide), henv _ _ _ _ (by decide) (by decide), hmask]
  rw [show env + 0 = env from BitVec.add_zero env] at hrbx
  refine ⟨hrbx, ?_, ?_, ?_, ?_, ?_, ?_, Memory.load_store_self, hmask'⟩
  all_goals
    rw [contextMem]
    repeat rw [henv _ _ _ _ (by decide) (by decide)]
    exact Memory.load_store_self

end ContextMem

/-- A byte that is not in the seven words below `r`. -/
theorem outside_stack {x r : Word} (h : 56 ≤ (x - (r - 56)).toNat) :
    48 ≤ (x - (r - 8 - 48)).toNat ∧ 8 ≤ (x - (r - 8 - 8)).toNat ∧ 8 ≤ (x - (r - 8)).toNat := by
  refine ⟨?_, ?_, ?_⟩
  · bv_omega
  · bv_omega
  · bv_omega

theorem offset_le {a d : Word} {n : Nat} (h : d.toNat + 8 ≤ n) : (a + d - a).toNat + 8 ≤ n := by
  bv_omega

section Setjmp

variable {K : Kernel SigMask} {sj : Nat → Word}

/-- The part of `setjmp` that writes registers to `env`. -/
def contextCode : List Instr :=
  [.movTo .rdi 0 .rbx, .push .rdx, .lea .rdx .rsp 16, .movTo .rdi 8 .rdx, .movTo .rdi 16 .rbp,
    .movTo .rdi 24 .r12, .movTo .rdi 32 .r13, .movTo .rdi 40 .r14, .movTo .rdi 48 .r15]

/-- From the system call on: the context is written to `env`, and the routine returns. -/
theorem setjmp_finish {stub : Word} (hsj : code.Laid sj (setjmp stub)) {m : Machine SigMask}
    (hrip : m.rip = sj 15) (h : Apart (m.regs .rdi) 72 (m.regs .rsp - 8) 16) :
    ∃ m', Machine.Reaches K code m m' ∧ m'.rip = m.mem.load (m.regs .rsp) ∧
      m'.mem = (contextMem m.mem (m.regs .rdi) m.regs).store (m.regs .rdi + 56)
        (m.mem.load (m.regs .rsp)) ∧
      m'.sys = m.sys ∧ m'.regs .rax = 0 ∧ m'.regs .rsp = m.regs .rsp + 8 ∧
      ∀ r, r ∉ [Reg.rax, .rsp] → m'.regs r = m.regs r := by
  obtain ⟨hcontext, hrip₁⟩ := Machine.reaches_execAll (K := K) hsj 15 contextCode ⟨_, rfl⟩
    (by simp [contextCode, Instr.Straight]) hrip
  have hmem₁ : (Machine.execAll K sj 15 contextCode m).mem = contextMem m.mem
      (m.regs .rdi) m.regs := by
    rw [contextMem, show m.regs .rsp + 8 = m.regs .rsp - 8 + 16 by bv_omega]
    rfl
  have hregs₁ : (Machine.execAll K sj 15 contextCode m).regs =
      Function.update (Function.update m.regs .rsp (m.regs .rsp - 8)) .rdx (m.regs .rsp - 8 + 16) :=
      rfl
  have hsys₁ : (Machine.execAll K sj 15 contextCode m).sys = m.sys := rfl
  generalize Machine.execAll K sj 15 _ m = m₁ at hcontext hrip₁ hmem₁ hregs₁ hsys₁
  obtain ⟨hrest, hrip₂⟩ := Machine.reaches_execAll (K := K) hsj 24
    [.movFrom .rdx .rsp 8, .movTo .rdi 56 .rdx, .pop .rdx, .xor .rax .rax] ⟨_, rfl⟩
      (by simp [Instr.Straight]) hrip₁
  have hret := Machine.reaches_exec (K := K) hsj 28 rfl hrip₂
  obtain ⟨htop, hlow⟩ := contextMem_stack m.mem h
  have hrsp : m₁.regs .rsp = m.regs .rsp - 8 := by
    rw [hregs₁]
    rfl
  have hrdi : m₁.regs .rdi = m.regs .rdi := by
    rw [hregs₁]
    rfl
  have hword : m₁.mem.load (m₁.regs .rsp + 8) = m.mem.load (m.regs .rsp) := by
    rw [hmem₁, hrsp, BitVec.sub_add_cancel, htop]
  have hmem : m₁.mem.store (m₁.regs .rdi + 56) (m₁.mem.load (m₁.regs .rsp + 8)) =
      (contextMem m.mem (m.regs .rdi) m.regs).store (m.regs .rdi + 56)
        (m.mem.load (m.regs .rsp)) := by
    rw [hword, hmem₁, hrdi]
  refine ⟨_, (hcontext.trans hrest).trans hret, ?_, hmem, hsys₁, ?_, ?_, ?_⟩
  · change (m₁.mem.store (m₁.regs .rdi + 56) (m₁.mem.load (m₁.regs .rsp + 8))).load
      (m₁.regs .rsp + 8) = _
    rw [hmem, hrsp, BitVec.sub_add_cancel, load_store_env h _ _ (by bv_omega) (by decide), htop]
  · change m₁.regs .rax ^^^ m₁.regs .rax = 0
    exact BitVec.xor_self
  · change m₁.regs .rsp + 8 + 8 = _
    rw [hrsp, BitVec.sub_add_cancel]
  · intro r hr
    simp only [List.mem_cons, List.not_mem_nil, or_false, not_or] at hr
    by_cases hrdx : r = .rdx
    · subst hrdx
      change (m₁.mem.store (m₁.regs .rdi + 56) (m₁.mem.load (m₁.regs .rsp + 8))).load
        (m₁.regs .rsp) = _
      rw [hmem, hrsp, load_store_env h _ _ (by bv_omega) (by decide), hlow]
    · simp [Machine.execAll, Machine.exec, Machine.set, hregs₁, hr, hrdx]

/-- `setjmp` returns 0 and has written the context of its caller to `env`. It has kept every
register but `rax` and `r11`, and all of memory but `env` and seven words of the stack. -/
theorem setjmp_run (hK : Linux K) {stub : Nat → Word} (hstub : code.Laid stub (gensys 14))
    (hsj : code.Laid sj (setjmp (stub 0))) (m : Machine SigMask) (ret : Word)
    (henv : (m.regs .rdi).toNat + 72 ≤ 2 ^ 64) (h : Apart (m.regs .rdi) 72 (m.regs .rsp - 56) 56) :
    ∃ m', Machine.Reaches K code (m.called (sj 0) ret) m' ∧ m'.rip = ret ∧ m'.regs .rax = 0 ∧
    m'.sys = m.sys ∧
      (∀ r, r ∉ [Reg.rax, .r11] → m'.regs r = m.regs r) ∧
      Saved m'.mem (m.regs .rdi) m.regs ret m.sys ∧
      ∀ x, 56 ≤ (x - (m.regs .rsp - 56)).toNat → 72 ≤ (x - m.regs .rdi).toNat →
      m'.mem x = m.mem x := by
  have hcall : ∀ regs : Reg → Word, regs .rax = 14 → regs .rdi = 0 → regs .rsi = 0 →
      regs .rdx = m.regs .rdi + 64 →
      regs .r10 = 8 → K.handle regs (frame (m.called (sj 0) ret).mem (m.called (sj 0) ret).regs
        (sj 10)) m.sys =
        (0, (frame (m.called (sj 0) ret).mem (m.called (sj 0) ret).regs (sj 10)).store
          (m.regs .rdi + 64) m.sys.bits,
          m.sys) := by
    intro regs h1 h2 h3 h4 h5
    have hne : m.regs .rdi + 64 ≠ 0 := by bv_omega
    rw [hK regs _ _ h1, h2, h3, h4, h5, rtSigprocmask, if_neg (by simp), if_pos rfl]
    dsimp only
    rw [if_neg hne]
  have hargs : ∀ m₁ : Machine SigMask, m₁.regs .r8 = (m.called (sj 0) ret).regs .rdi →
      (Machine.execAll K sj 5 [.movImm .rdi 0, .movImm .rsi 0, .lea .rdx .r8 64] m₁).regs =
        Function.update (Function.update (Function.update m₁.regs .rdi 0) .rsi 0) .rdx
          (m.regs .rdi + 64) ∧
      (Machine.execAll K sj 5 [.movImm .rdi 0, .movImm .rsi 0, .lea .rdx .r8 64] m₁).mem = m₁.mem ∧
      (Machine.execAll K sj 5 [.movImm .rdi 0, .movImm .rsi 0, .lea .rdx .r8 64] m₁).sys =
        m₁.sys := by
    intro m₁ h8
    refine ⟨?_, rfl, rfl⟩
    rw [show m.regs .rdi = m₁.regs .r8 from h8.symm]
    rfl
  have hrsp : (m.called (sj 0) ret).regs .rsp = m.regs .rsp - 8 := rfl
  obtain ⟨m₁, hmask, hrip₁, hmem₁, hsys₁, hregs₁⟩ :=
    maskCall_run hstub hsj ⟨_, rfl⟩ (by simp [Instr.Straight]) rfl hargs
    hcall (Agree.store _ _ (by
      rw [hrsp]
      exact h.symm.sub (by omega) (by omega) (by bv_omega) (by bv_omega)))
  have hrdi₁ : m₁.regs .rdi = m.regs .rdi := hregs₁ .rdi (by decide)
  have hrsp₁ : m₁.regs .rsp = m.regs .rsp - 8 := hregs₁ .rsp (by decide)
  have happart : Apart (m₁.regs .rdi) 72 (m₁.regs .rsp - 8) 16 := by
    rw [hrdi₁, hrsp₁]
    exact h.sub (by omega) (by omega) (by bv_omega) (by bv_omega)
  obtain ⟨m₂, hfinish, hrip₂, hmem₂, hsys₂, hrax, hrsp₂, hregs₂⟩ :=
    setjmp_finish (K := K) hsj hrip₁ happart
  have hret : m₁.mem.load (m₁.regs .rsp) = ret := by
    have hword : Apart (m.regs .rsp - 8) 8 ((m.called (sj 0) ret).regs .rsp - 48) 48 := by
      rw [hrsp]
      constructor
      · bv_omega
      · bv_omega
    have hframe := frame_agree (m.called (sj 0) ret).mem (m.called (sj 0) ret).regs (sj 10) hword
    rw [hmem₁, hrsp₁, Memory.load_store_apart (h.symm.sub (by omega) (by omega)
      (by bv_omega) (by bv_omega)),
      hframe.load (by simp)]
    exact Memory.load_store_self
  refine ⟨m₂, hmask.trans hfinish, hrip₂.trans hret, hrax, hsys₂.trans hsys₁, ?_, ?_, ?_⟩
  · intro r hr
    by_cases hne : r = .rsp
    · rw [hne, hrsp₂, hrsp₁, BitVec.sub_add_cancel]
    · have hr' : r ∉ [Reg.rax, .rsp] := by
        simp only [List.mem_cons, List.not_mem_nil, or_false, not_or] at hr ⊢
        exact ⟨hr.1, hne⟩
      rw [hregs₂ r hr', hregs₁ r hr]
      exact Function.update_of_ne hne _ _
  · have hword : m₁.mem.load (m₁.regs .rdi + 64) = m.sys.bits := by
      rw [hmem₁, hrdi₁, Memory.load_store_self]
    have hsaved := contextMem_saved happart hword ret
    rw [hmem₂, hret]
    rw [hrdi₁] at hsaved ⊢
    apply hsaved.of_regs
    intro r hr
    by_cases hne : r = .rsp
    · rw [hne, Function.update_self, hrsp₁, BitVec.sub_add_cancel]
    · have hr' : r ∉ [Reg.rax, .r11] := by
        intro hm
        simp only [List.mem_cons, List.not_mem_nil, or_false] at hr hm
        rcases hm with rfl | rfl
        · simp at hr
        · simp at hr
      rw [Function.update_of_ne hne, hregs₁ r hr']
      exact Function.update_of_ne hne _ _
  · intro x hs he
    obtain ⟨hstack, hword, hpush⟩ := outside_stack hs
    have hframe := frame_outside (m.called (sj 0) ret).mem (m.called (sj 0) ret).regs (sj 10) hstack
    have hcalled : (m.called (sj 0) ret).mem x = m.mem x := Memory.store_outside hpush
    rw [hmem₂, hrdi₁, Memory.store_outside (outside_sub he (offset_le (by decide))),
      contextMem_outside _ (by rwa [hrsp₁]) (by omega), hmem₁,
      Memory.store_outside (outside_sub he (offset_le (by decide))), hframe, hcalled]

end Setjmp

end NctuCourses.Libmini
