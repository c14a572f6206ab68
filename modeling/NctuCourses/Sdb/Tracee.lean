import Mathlib.Data.BitVec
import Mathlib.Logic.Function.Basic

namespace NctuCourses.Sdb

abbrev Addr := BitVec 64
abbrev Byte := BitVec 8

/-- Code memory as `ptrace` shows it; `none` where nothing is mapped. -/
abbrev Mem := Addr → Option Byte

/-- `PTRACE_PEEKTEXT`: the eight bytes from `a` on, or an error. -/
def peekText (m : Mem) (a : Addr) : Option (List Byte) :=
  (List.range 8).mapM fun i => m (a + BitVec.ofNat 64 i)

/-- `PTRACE_POKETEXT`. -/
def pokeText (m : Mem) (a : Addr) (codes : List Byte) : Mem := fun x =>
  if (x - a).toNat < 8 then codes[(x - a).toNat]? else m x

/-- A processor, in terms of the bytes that it fetches from `rip` on: the length of the
instruction there, and what it does to `rip` and to everything else that is not code. `none`
is the exit of the process. An instruction depends on its own bytes only, and code is
neither read nor written as data. -/
structure Cpu (R : Type) where
  size : (Nat → Option Byte) → Nat
  exec : (Nat → Option Byte) → Addr → R → Option (Addr × R)
  size_pos : ∀ f, 0 < size f
  size_local : ∀ f g, (∀ i < size f, g i = f i) → size g = size f
  exec_local : ∀ f g, (∀ i < size f, g i = f i) → ∀ rip r, exec g rip r = exec f rip r

/-- An instruction that has been retired: its address and its bytes. -/
abbrev Retired := Addr × List (Option Byte)

/-- The process that is debugged. `regs` is everything but `rip` and the code. `trapped` says that
the last stop was at a `0xcc`, and `log` lists the instructions retired so far. -/
structure Tracee (R : Type) where
  mem : Mem
  rip : Addr
  regs : R
  trapped : Bool
  log : List Retired

def Tracee.fetch {R : Type} (T : Tracee R) (i : Nat) : Option Byte :=
  T.mem (T.rip + BitVec.ofNat 64 i)

/-- What one step of the tracee comes to. -/
inductive Event (R : Type) where
  | step (T : Tracee R)
  | trap (T : Tracee R)
  | exit (T : Tracee R)

/-- How `waitpid` finds the tracee; `going` as long as it is running. -/
inductive Wait (R : Type) where
  | going (T : Tracee R)
  | stopped (T : Tracee R)
  | exited (T : Tracee R)

def Event.tracee {R : Type} : Event R → Tracee R
  | .step T => T
  | .trap T => T
  | .exit T => T

def Wait.tracee {R : Type} : Wait R → Tracee R
  | .going T => T
  | .stopped T => T
  | .exited T => T

namespace Cpu

variable {R : Type} (C : Cpu R)

/-- The instruction at `rip`, for the log. -/
def current (T : Tracee R) : Retired := (T.rip, (List.range (C.size T.fetch)).map T.fetch)

/-- The state after the instruction at `rip` has been retired, without its effect. -/
def retire (T : Tracee R) : Tracee R := { T with trapped := false, log := T.log ++ [C.current T] }

/-- The byte `0xcc` traps and leaves `rip` one past it. -/
def step (T : Tracee R) : Event R :=
  if T.mem T.rip = some 0xcc#8 then .trap { T with rip := T.rip + 1, trapped := true }
  else
    match C.exec T.fetch T.rip T.regs with
    | none => .exit (C.retire T)
    | some (rip, regs) => .step { C.retire T with rip := rip, regs := regs }

/-- `PTRACE_SINGLESTEP`. -/
def singleStep (T : Tracee R) : Wait R :=
  match C.step T with
  | .step T' => .stopped T'
  | .trap T' => .stopped T'
  | .exit T' => .exited T'

/-- `PTRACE_CONT`, observed for `n` steps. -/
def cont : Nat → Tracee R → Wait R
  | 0, T => .going T
  | n + 1, T =>
    match C.step T with
    | .step T' => cont n T'
    | .trap T' => .stopped T'
    | .exit T' => .exited T'

/-- The program on its own, after `n` instructions or at its end. -/
def alone : Nat → Tracee R → Tracee R
  | 0, T => T
  | n + 1, T =>
    match C.step T with
    | .step T' => alone n T'
    | .trap T' => T'
    | .exit T' => T'

theorem step_mem (T : Tracee R) : (C.step T).tracee.mem = T.mem := by
  rw [step]
  split_ifs
  · rfl
  · split
    · rfl
    · rfl

theorem singleStep_mem (T : Tracee R) : (C.singleStep T).tracee.mem = T.mem := by
  have h := C.step_mem T
  rw [singleStep]
  cases hs : C.step T with
  | step T' => rwa [hs] at h
  | trap T' => rwa [hs] at h
  | exit T' => rwa [hs] at h

theorem cont_mem (n : Nat) (T : Tracee R) : (C.cont n T).tracee.mem = T.mem := by
  induction n generalizing T with
  | zero => rfl
  | succ n ih =>
    have h := C.step_mem T
    rw [cont]
    cases hs : C.step T with
    | step T' =>
      rw [hs] at h
      exact (ih T').trans h
    | trap T' => rwa [hs] at h
    | exit T' => rwa [hs] at h

end Cpu

theorem mapM_getElem? {α β : Type} {f : α → Option β} {l : List α} {l' : List β}
    (h : l.mapM f = some l') (i : Nat) : l'[i]? = l[i]?.bind f := by
  induction l generalizing l' i with
  | nil =>
    obtain rfl : [] = l' := by simpa using h
    simp
  | cons a l ih =>
    simp only [List.mapM_cons, Option.bind_eq_bind, Option.bind_eq_some_iff] at h
    obtain ⟨b, hb, bs, hbs, hl'⟩ := h
    obtain rfl : b :: bs = l' := Option.some.inj hl'
    cases i with
    | zero => simp [hb]
    | succ i => simpa using ih hbs i

theorem mapM_length {α β : Type} {f : α → Option β} {l : List α} {l' : List β}
    (h : l.mapM f = some l') :
    l'.length = l.length := by
  induction l generalizing l' with
  | nil =>
    obtain rfl : [] = l' := by simpa using h
    rfl
  | cons a l ih =>
    simp only [List.mapM_cons, Option.bind_eq_bind, Option.bind_eq_some_iff] at h
    obtain ⟨b, _, bs, hbs, hl'⟩ := h
    obtain rfl : b :: bs = l' := Option.some.inj hl'
    simp [ih hbs]

theorem peekText_getElem? {m : Mem} {a : Addr} {codes : List Byte} (h : peekText m a = some codes)
    {i : Nat} (hi : i < 8) : codes[i]? = m (a + BitVec.ofNat 64 i) := by
  rw [mapM_getElem? h i, List.getElem?_range hi, Option.bind_some]

theorem mapM_isSome {α β : Type} {f : α → Option β} {l : List α} :
    (l.mapM f).isSome = true ↔ ∀ a ∈ l, (f a).isSome = true := by
  induction l with
  | nil => simp
  | cons a l ih =>
    rw [List.forall_mem_cons, ← ih, List.mapM_cons]
    cases f a with
    | none => simp
    | some b => cases l.mapM f <;> simp

theorem peekText_isSome {m : Mem} {a : Addr} :
    (peekText m a).isSome = true ↔ ∀ i < 8, (m (a + BitVec.ofNat 64 i)).isSome = true := by
  rw [peekText, mapM_isSome]
  simp only [List.mem_range]

/-- `PTRACE_PEEKTEXT` looks at what is mapped only. -/
theorem peekText_isSome_congr {m m' : Mem} (h : ∀ x, (m x).isSome = (m' x).isSome) (a : Addr) :
    (peekText m a).isSome ↔ (peekText m' a).isSome := by
  rw [peekText_isSome, peekText_isSome]
  simp only [h]

theorem add_sub_ofNat (x a : Addr) : a + BitVec.ofNat 64 (x - a).toNat = x := by
  rw [BitVec.ofNat_toNat, BitVec.setWidth_eq, BitVec.add_comm, BitVec.sub_add_cancel]

/-- Writing back what was read, but for the first byte, changes that byte alone. -/
theorem pokeText_peekText {m : Mem} {a : Addr} {codes : List Byte} (h : peekText m a = some codes)
    (v : Byte) : pokeText m a (codes.set 0 v) = Function.update m a (some v) := by
  have hlen : codes.length = 8 := by simpa using mapM_length h
  funext x
  rw [pokeText]
  by_cases hx : x = a
  · have h0 : (x - a).toNat = 0 := by simp [hx]
    rw [h0, if_pos (by omega), hx, Function.update_self, List.getElem?_set_self (by omega)]
  · rw [Function.update_of_ne hx]
    split_ifs with hlt
    · have hne : 0 ≠ (x - a).toNat := by
        intro h0
        have := add_sub_ofNat x a
        rw [← h0] at this
        exact hx (by simpa using this.symm)
      rw [List.getElem?_set_ne hne, peekText_getElem? h hlt, add_sub_ofNat]
    · rfl

end NctuCourses.Sdb
