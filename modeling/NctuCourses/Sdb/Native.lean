import NctuCourses.Sdb.Text

namespace NctuCourses.Sdb

variable {R : Type}

/-- The state to go on from, if the tracee has not stopped. -/
def Event.next : Event R → Option (Tracee R)
  | .step T => some T
  | _ => none

theorem Event.next_eq_some {e : Event R} {T : Tracee R} (h : e.next = some T) : e = .step T := by
  cases e with
  | step T' => rw [Option.some.inj h]
  | trap T' => cases h
  | exit T' => cases h

theorem getElem?_concat_cases {α : Type} {l : List α} {x y : α} {i : Nat}
    (h : (l ++ [x])[i]? = some y) : l[i]? = some y ∨ i = l.length ∧ y = x := by
  rw [List.getElem?_append] at h
  split_ifs at h with hlt
  · exact .inl h
  · obtain ⟨hi, hy⟩ := List.getElem?_eq_some_iff.mp h
    simp only [List.length_singleton] at hi
    exact .inr ⟨by omega, by rw [← hy, List.getElem_singleton]⟩

namespace Cpu

variable (C : Cpu R)

/-- The state after `k` instructions, if there is no stop before. -/
def steps : Nat → Tracee R → Option (Tracee R)
  | 0, T => some T
  | k + 1, T => (C.step T).next.bind (steps k)

/-- `es` is the beginning of what the program retires on its own. -/
def Retires (T₀ : Tracee R) (es : List Retired) : Prop := ∃ n, (C.alone n T₀).log = es

variable {C} {T T' : Tracee R}

theorem steps_add (j k : Nat) (T : Tracee R) :
    C.steps (j + k) T = (C.steps j T).bind (C.steps k) := by
  induction j generalizing T with
  | zero => simp [steps]
  | succ j ih =>
    rw [show j + 1 + k = (j + k) + 1 by omega, steps, steps]
    cases (C.step T).next with
    | none => rfl
    | some T' => exact ih T'

theorem steps_succ {k : Nat} :
    C.steps (k + 1) T = some T' ↔ ∃ T₁, C.steps k T = some T₁ ∧ C.step T₁ = .step T' := by
  rw [steps_add, Option.bind_eq_some_iff]
  refine exists_congr fun T₁ => and_congr_right fun _ => ?_
  constructor
  · intro h
    obtain ⟨T₂, hn, he⟩ := Option.bind_eq_some_iff.mp h
    obtain rfl := Option.some.inj he
    exact Event.next_eq_some hn
  · intro h
    rw [steps, h]
    rfl

theorem steps_prefix {j k : Nat} (hjk : j ≤ k) (h : C.steps k T = some T') :
    ∃ T₁, C.steps j T = some T₁ ∧ C.steps (k - j) T₁ = some T' := by
  rw [show k = j + (k - j) by omega, steps_add] at h
  exact Option.bind_eq_some_iff.mp h

/-- How `PTRACE_CONT` is seen after `n` steps. -/
theorem cont_cases (n : Nat) (T : Tracee R) :
    (∃ T', C.steps n T = some T' ∧ C.cont n T = .going T') ∨
      ∃ k T₁ T', k < n ∧ C.steps k T = some T₁ ∧
        ((C.step T₁ = .trap T' ∧ C.cont n T = .stopped T') ∨
          (C.step T₁ = .exit T' ∧ C.cont n T = .exited T')) := by
  induction n generalizing T with
  | zero => exact .inl ⟨T, rfl, rfl⟩
  | succ n ih =>
    simp only [cont, steps]
    cases hs : C.step T with
    | step T₁ =>
      rcases ih T₁ with ⟨T', h1, h2⟩ | ⟨k, T₂, T', hk, h1, h2⟩
      · exact .inl ⟨T', h1, h2⟩
      · refine .inr ⟨k + 1, T₂, T', by omega, ?_, h2⟩
        rw [steps, hs]
        exact h1
    | trap T' => exact .inr ⟨0, T, T', by omega, rfl, .inl ⟨hs, rfl⟩⟩
    | exit T' => exact .inr ⟨0, T, T', by omega, rfl, .inr ⟨hs, rfl⟩⟩

theorem cont_of_steps {k : Nat} (h : C.steps k T = some T') (n : Nat) :
    C.cont (k + n) T = C.cont n T' := by
  induction k generalizing T with
  | zero =>
    obtain rfl := Option.some.inj h
    rw [Nat.zero_add]
  | succ k ih =>
    obtain ⟨T₁, hn, h⟩ := Option.bind_eq_some_iff.mp h
    rw [show k + 1 + n = (k + n) + 1 by omega, cont, Event.next_eq_some hn]
    exact ih h

theorem alone_of_steps {k : Nat} (h : C.steps k T = some T') (n : Nat) :
    C.alone (k + n) T = C.alone n T' := by
  induction k generalizing T with
  | zero =>
    obtain rfl := Option.some.inj h
    rw [Nat.zero_add]
  | succ k ih =>
    obtain ⟨T₁, hn, h⟩ := Option.bind_eq_some_iff.mp h
    rw [show k + 1 + n = (k + n) + 1 by omega, alone, Event.next_eq_some hn]
    exact ih h

theorem steps_mem {k : Nat} (h : C.steps k T = some T') : T'.mem = T.mem := by
  induction k generalizing T' with
  | zero => rw [Option.some.inj h]
  | succ k ih =>
    obtain ⟨T₁, h1, hs⟩ := steps_succ.mp h
    have hm := C.step_mem T₁
    rw [hs] at hm
    exact hm.trans (ih h1)

/-- A step that is no trap retires the instruction at `rip`. -/
theorem step_log (hn : T.mem T.rip ≠ some 0xcc#8) :
    (C.step T).tracee.log = T.log ++ [C.current T] := by
  rw [step, if_neg hn]
  split
  · rfl
  · rfl

theorem step_ne_trap (hn : T.mem T.rip ≠ some 0xcc#8) : C.step T ≠ .trap T' := by
  rw [step, if_neg hn]
  split
  · intro h
    cases h
  · intro h
    cases h

theorem mem_ne_of_step (h : C.step T = .step T') : T.mem T.rip ≠ some 0xcc#8 := by
  intro hcc
  rw [step, if_pos hcc] at h
  cases h

theorem mem_ne_of_exit (h : C.step T = .exit T') : T.mem T.rip ≠ some 0xcc#8 := by
  intro hcc
  rw [step, if_pos hcc] at h
  cases h

theorem log_of_trap (h : C.step T = .trap T') : T'.log = T.log := by
  rw [step] at h
  split_ifs at h
  · cases h
    rfl
  · split at h
    · cases h
    · cases h

theorem log_of_exit (h : C.step T = .exit T') : T'.log = T.log ++ [C.current T] := by
  have hl := step_log (C := C) (mem_ne_of_exit h)
  rwa [h] at hl

theorem log_of_step (h : C.step T = .step T') :
    T'.log = T.log ++ [C.current T] ∧ T'.trapped = false := by
  have hn := mem_ne_of_step h
  refine ⟨?_, ?_⟩
  · have hl := step_log (C := C) hn
    rwa [h] at hl
  · rw [step, if_neg hn] at h
    split at h
    · cases h
    · cases h
      rfl

/-- Each step adds the instruction at the `rip` of its time to the log. -/
theorem steps_log {k : Nat} (h : C.steps k T = some T') :
    ∃ es, T'.log = T.log ++ es ∧ es.length = k ∧ ∀ i e, es[i]? = some e →
      ∃ T₁, C.steps i T = some T₁ ∧ T₁.mem T₁.rip ≠ some 0xcc#8 ∧ e = C.current T₁ := by
  induction k generalizing T' with
  | zero =>
    obtain rfl := Option.some.inj h
    exact ⟨[], by simp, rfl, by simp⟩
  | succ k ih =>
    obtain ⟨T₁, h1, hs⟩ := steps_succ.mp h
    obtain ⟨es, he, hk, hes⟩ := ih h1
    refine ⟨es ++ [C.current T₁], ?_, by simp [hk], fun i e hi => ?_⟩
    · rw [(log_of_step hs).1, he, List.append_assoc]
    · rcases getElem?_concat_cases hi with hi | ⟨rfl, rfl⟩
      · exact hes i e hi
      · exact ⟨T₁, hk ▸ h1, mem_ne_of_step hs, rfl⟩

theorem alone_log (n : Nat) (T : Tracee R) : T.log <+: (C.alone n T).log := by
  induction n generalizing T with
  | zero => exact List.prefix_rfl
  | succ n ih =>
    rw [alone]
    cases hs : C.step T with
    | step T' =>
      refine List.IsPrefix.trans ?_ (ih T')
      rw [(log_of_step hs).1]
      exact List.prefix_append _ _
    | trap T' =>
      rw [show T'.log = T.log from log_of_trap hs]
    | exit T' =>
      rw [show T'.log = T.log ++ [C.current T] from log_of_exit hs]
      exact List.prefix_append _ _

theorem Retires.of_steps {k : Nat} (h : C.steps k T = some T') : C.Retires T T'.log :=
  ⟨k, by rw [← Nat.add_zero k, alone_of_steps h]; rfl⟩

theorem Retires.of_exit {k : Nat} {T₁ : Tracee R} (h : C.steps k T = some T₁)
    (hs : C.step T₁ = .exit T') : C.Retires T T'.log :=
  ⟨k + 1, by rw [alone_of_steps h, alone, hs]⟩

/-- What the program retires next is the instruction at `rip`. -/
theorem Retires.next {k : Nat} (h : C.steps k T = some T') (hn : T'.mem T'.rip ≠ some 0xcc#8)
    {e : Retired} (he : C.Retires T (T'.log ++ [e])) : e = C.current T' := by
  obtain ⟨n, hlog⟩ := he
  by_cases hk : n ≤ k
  · -- Not as much has been retired after `n` steps.
    obtain ⟨T₁, h1, h2⟩ := steps_prefix hk h
    obtain ⟨es, hes, _, _⟩ := steps_log h2
    have ha : C.alone n T = T₁ := by
      rw [← Nat.add_zero n, alone_of_steps h1]
      rfl
    have hlen := congrArg List.length hlog
    rw [ha] at hlen
    have hlen' := congrArg List.length hes
    simp only [List.length_append, List.length_singleton] at hlen hlen'
    omega
  · obtain ⟨m, rfl⟩ : ∃ m, n = k + (m + 1) := ⟨n - k - 1, by omega⟩
    rw [alone_of_steps h] at hlog
    have hpre : T'.log ++ [C.current T'] <+: (C.alone (m + 1) T').log := by
      rw [← step_log hn, alone]
      cases hs : C.step T' with
      | step T₁ => exact alone_log m T₁
      | trap T₁ => exact absurd hs (step_ne_trap hn)
      | exit T₁ => exact List.prefix_rfl
    rw [hlog, List.prefix_append_right_inj] at hpre
    obtain ⟨t, ht⟩ := hpre
    exact (List.cons.inj ht).1.symm

end Cpu

/-- Tracee `T` is where the program on its own is in state `N`, but for
`0xcc` at the addresses `as`. -/
structure Follows (as : List Addr) (T N : Tracee R) : Prop where
  mem : T.mem = patched N.mem as
  rip : T.rip = N.rip
  regs : T.regs = N.regs
  log : T.log = N.log

/-- The next instruction of the program is no `0xcc`, and none of the addresses `as`
lies in it but at its start. -/
structure Cpu.Clear (C : Cpu R) (as : List Addr) (N : Tracee R) : Prop where
  code : N.mem N.rip ≠ some 0xcc#8
  inside : ∀ i, 0 < i → i < C.size N.fetch → N.rip + BitVec.ofNat 64 i ∉ as

theorem Cpu.Clear.mono {C : Cpu R} {as bs : List Addr} {N : Tracee R} (h : C.Clear as N)
    (hle : ∀ x ∈ bs, x ∈ as) : C.Clear bs N :=
  ⟨h.code, fun i h0 hi hm => h.inside i h0 hi (hle _ hm)⟩

namespace Follows

variable {C : Cpu R} {as : List Addr} {T N T' : Tracee R}

theorem fetch (h : Follows as T N) (hc : C.Clear as N) (ha : N.rip ∉ as) :
    ∀ i < C.size N.fetch, T.fetch i = N.fetch i := by
  intro i hi
  rw [Tracee.fetch, Tracee.fetch, h.mem, h.rip, patched]
  cases i with
  | zero => rw [if_neg (by simpa using ha)]
  | succ i => rw [if_neg (hc.inside _ (by omega) hi)]

theorem current (h : Follows as T N) (hc : C.Clear as N) (ha : N.rip ∉ as) :
    C.current T = C.current N := by
  have hf := h.fetch hc ha
  rw [Cpu.current, Cpu.current, h.rip, C.size_local _ _ hf]
  congr 1
  refine List.map_congr_left fun i hi => hf i (List.mem_range.mp hi)

/-- At a `0xcc` that the debugger has put there. -/
theorem trap (h : Follows as T N) (ha : N.rip ∈ as) :
    C.step T = .trap { T with rip := T.rip + 1, trapped := true } := by
  have hcc : T.mem T.rip = some 0xcc#8 := by rw [h.mem, h.rip, patched, if_pos ha]
  rw [Cpu.step, if_pos hcc]

/-- Everywhere else the tracee does what the program does on its own. -/
theorem step (h : Follows as T N) (hc : C.Clear as N) (ha : N.rip ∉ as) :
    (∃ T' N', C.step T = .step T' ∧ C.step N = .step N' ∧ Follows as T' N') ∨
      ∃ T' N', C.step T = .exit T' ∧ C.step N = .exit N' ∧ T'.log = N'.log := by
  have hf := h.fetch hc ha
  have hcur := h.current hc ha
  have hT : T.mem T.rip ≠ some 0xcc#8 := by
    rw [h.mem, h.rip, patched, if_neg ha]
    exact hc.code
  have hlog : (C.retire T).log = (C.retire N).log := by
    rw [Cpu.retire, Cpu.retire, h.log, hcur]
  have hexec : C.exec T.fetch T.rip T.regs = C.exec N.fetch N.rip N.regs := by
    rw [C.exec_local _ _ hf, h.rip, h.regs]
  rw [Cpu.step, Cpu.step, if_neg hT, if_neg hc.code, hexec]
  cases C.exec N.fetch N.rip N.regs with
  | none => exact .inr ⟨_, _, rfl, rfl, hlog⟩
  | some p => exact .inl ⟨_, _, rfl, rfl, ⟨h.mem, rfl, rfl, hlog⟩⟩

theorem not_mem_of_step (h : Follows as T N) (hs : C.step T = .step T') : N.rip ∉ as := by
  intro ha
  rw [h.trap ha] at hs
  cases hs

/-- `k` instructions of the tracee are `k` instructions of the program, none of them at `as`. -/
theorem steps (h : Follows as T N) (hc : ∀ j N', C.steps j N = some N' → C.Clear as N') {k : Nat}
    (hs : C.steps k T = some T') : ∃ N', C.steps k N = some N' ∧ Follows as T' N' := by
  induction k generalizing T' with
  | zero =>
    obtain rfl := Option.some.inj hs
    exact ⟨N, rfl, h⟩
  | succ k ih =>
    obtain ⟨T₁, h1, hs⟩ := Cpu.steps_succ.mp hs
    obtain ⟨N₁, hN, hfol⟩ := ih h1
    rcases hfol.step (hc k N₁ hN) (hfol.not_mem_of_step hs) with ⟨T₂, N₂, hT₂,
      hN₂, h2⟩ | ⟨T₂, _, hT₂, _⟩
    · rw [hs] at hT₂
      cases hT₂
      exact ⟨N₂, Cpu.steps_succ.mpr ⟨N₁, hN, hN₂⟩, h2⟩
    · rw [hs] at hT₂
      cases hT₂

end Follows

/-- How the tracee stands to state `N` of the program on its own when `waitpid` returns. -/
inductive Lockstep (C : Cpu R) (as : List Addr) (N : Tracee R) : Wait R → Prop
  | going {T : Tracee R} : Follows as T N → Lockstep C as N (.going T)
  | stepped {T : Tracee R} : Follows as T N → T.trapped = false → Lockstep C as N (.stopped T)
  | trapped {T : Tracee R} : Follows as T N → N.rip ∈ as →
      Lockstep C as N (.stopped { T with rip := T.rip + 1, trapped := true })
  | exited {T N' : Tracee R} : C.step N = .exit N' → T.log = N'.log → Lockstep C as N (.exited T)

namespace Follows

variable {C : Cpu R} {as : List Addr} {T N : Tracee R}

theorem cont (h : Follows as T N) (hc : ∀ j N', C.steps j N = some N' → C.Clear as N') (n : Nat) :
    ∃ k N', C.steps k N = some N' ∧ Lockstep C as N' (C.cont n T) := by
  rcases Cpu.cont_cases (C := C) n T with ⟨T', h1, h2⟩ | ⟨k, T₁, T', _, h1, h2⟩
  · obtain ⟨N', hN, hfol⟩ := h.steps hc h1
    exact ⟨n, N', hN, h2 ▸ .going hfol⟩
  · obtain ⟨N₁, hN, hfol⟩ := h.steps hc h1
    refine ⟨k, N₁, hN, ?_⟩
    by_cases ha : N₁.rip ∈ as
    · have ht := hfol.trap (C := C) ha
      rcases h2 with ⟨hs, h2⟩ | ⟨hs, _⟩
      · rw [hs] at ht
        cases ht
        exact h2 ▸ .trapped hfol ha
      · rw [hs] at ht
        cases ht
    · rcases hfol.step (hc k N₁ hN) ha with ⟨T₂, N₂, hT₂, _⟩ | ⟨T₂, N₂, hT₂, hN₂, hlog⟩
      · rcases h2 with ⟨hs, _⟩ | ⟨hs, _⟩
        · rw [hs] at hT₂
          cases hT₂
        · rw [hs] at hT₂
          cases hT₂
      · rcases h2 with ⟨hs, _⟩ | ⟨hs, h2⟩
        · rw [hs] at hT₂
          cases hT₂
        · rw [hs] at hT₂
          cases hT₂
          exact h2 ▸ .exited hN₂ hlog

theorem singleStep (h : Follows as T N) (hc : C.Clear as N) :
    ∃ k N', C.steps k N = some N' ∧ Lockstep C as N' (C.singleStep T) := by
  rw [Cpu.singleStep]
  by_cases ha : N.rip ∈ as
  · rw [h.trap ha]
    exact ⟨0, N, rfl, .trapped h ha⟩
  · rcases h.step hc ha with ⟨T', N', hT, hN, hfol⟩ | ⟨T', N', hT, hN, hlog⟩
    · rw [hT]
      exact ⟨1, N', Cpu.steps_succ.mpr ⟨N, rfl, hN⟩, .stepped hfol (Cpu.log_of_step hT).2⟩
    · rw [hT]
      exact ⟨0, N, rfl, .exited hN hlog⟩

end Follows

theorem Lockstep.retires {C : Cpu R} {as : List Addr} {T₀ N : Tracee R} {w : Wait R}
    (h : Lockstep C as N w) {k : Nat} (hN : C.steps k T₀ = some N) : C.Retires T₀ w.tracee.log := by
  cases h with
  | going hf => exact hf.log ▸ .of_steps hN
  | stepped hf _ => exact hf.log ▸ .of_steps hN
  | trapped hf _ => exact hf.log ▸ .of_steps hN
  | exited hs hlog => exact hlog ▸ .of_exit hN hs

end NctuCourses.Sdb
