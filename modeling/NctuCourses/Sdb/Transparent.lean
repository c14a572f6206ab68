import Mathlib.Data.List.GetD
import NctuCourses.Sdb.Native
import NctuCourses.Sdb.Patched

namespace NctuCourses.Sdb

open NctuCourses.Lib

variable {R : Type}

/-- What is asked of the program `F`, whose instructions start at the addresses `S` of the file: the
entry point is the start of `.text`, no instruction is a `0xcc`, and the program on its own never
comes to an instruction with a start in its middle. -/
structure Plain (E : Env R) (path : Path) (F : File) (S : Addr → Prop) : Prop where
  entry : F.elfentry = F.elftext
  fresh : ∀ n, (E.spawn n).tracee.trapped = false
  byte : ∀ a, S a → F.byte a ≠ 0xcc#8
  code : ∀ n k N, E.cpu.steps k (E.spawn n).tracee = some N → N.mem N.rip ≠ some 0xcc#8
  starts : ∀ n vm k N, getTextStartInMemory path none (E.spawn n).maps = some vm →
    E.cpu.steps k (E.spawn n).tracee = some N →
    ∀ i, 0 < i → i < E.cpu.size N.fetch → ∀ a, S a → N.rip + BitVec.ofNat 64 i ≠ F.vmAddr vm a

/-- `Break` on the start of an instruction, and no `Delete`. -/
def Cmd.OnStart (S : Addr → Prop) (pg : Program R) : Cmd → Prop
  | .break_ _ addr => S (pg.fileAddr addr)
  | .delete _ => False
  | _ => True

/-- What a command does while it waits: `Si` makes one step. -/
def Cmd.waits (E : Env R) (n : Nat) (T : Tracee R) : Cmd → Wait R
  | .si => E.cpu.singleStep T
  | _ => E.cpu.cont n T

namespace Program

/-- The state from which a command lets the tracee run, with the
breakpoint that it has taken out. -/
def letGo (pg : Program R) : Cmd → Option (Option Addr × Program R)
  | .run =>
    if pg.isRunning then (pg.print [.alreadyRunning pg.name]).beforeResume
    else if pg.isLoaded then
      ({ pg with stat := .running }.print [.pid]).setBreakPoints.map fun pg => (none, pg)
    else none
  | .cont => if pg.isRunning then pg.beforeResume else none
  | .si => if pg.isRunning then pg.beforeResume else none
  | _ => none

/-- The tracee is stopped at the breakpoint at `a`. -/
def StoppedAt (pg : Program R) (a : Addr) : Prop :=
  pg.stat = .running ∧ pg.tracee.trapped = true ∧ pg.tracee.rip = a + 1

/-- When a running program is resumed with a breakpoint one byte before `rip`,
the last stop was at a `0xcc`. -/
def Honest (pg : Program R) (c : Cmd) : Prop :=
  pg.stat = .running → c = .run ∨ c = .cont ∨ c = .si → pg.hitPoint ≠ none →
  pg.tracee.trapped = true

theorem letGo_cases {pg pg₁ : Program R} {c : Cmd} {rip : Option Addr}
    (h : pg.letGo c = some (rip, pg₁)) :
    (c = .run ∨ c = .cont ∨ c = .si) ∧
      ((pg.stat = .running ∧ ∃ ls, (pg.print ls).beforeResume = some (rip, pg₁)) ∨
        pg.stat = .intermediate ∧ rip = none ∧
          ({ pg with stat := .running }.print [.pid]).setBreakPoints = some pg₁) := by
  have hnil : pg.print [] = pg := by simp [print]
  cases c with
  | break_ id addr => cases h
  | delete id => cases h
  | start => cases h
  | run =>
    refine ⟨.inl rfl, ?_⟩
    rw [letGo] at h
    split_ifs at h with hr hl
    · exact .inl ⟨isRunning_iff.mp hr, _, h⟩
    · right
      obtain ⟨pg₂, hs, he⟩ := Option.map_eq_some_iff.mp h
      obtain ⟨rfl, rfl⟩ := Prod.mk.inj he
      refine ⟨?_, rfl, hs⟩
      cases hst : pg.stat with
      | unloaded => simp [isLoaded, hst] at hl
      | intermediate => rfl
      | running => simp [isRunning, hst] at hr
  | cont =>
    refine ⟨.inr (.inl rfl), ?_⟩
    rw [letGo] at h
    split_ifs at h with hr
    exact .inl ⟨isRunning_iff.mp hr, [], by rw [hnil]; exact h⟩
  | si =>
    refine ⟨.inr (.inr rfl), ?_⟩
    rw [letGo] at h
    split_ifs at h with hr
    exact .inl ⟨isRunning_iff.mp hr, [], by rw [hnil]; exact h⟩

theorem letGo_eq {pg pg₁ : Program R} {c : Cmd} {rip : Option Addr}
    (h : pg.letGo c = some (rip, pg₁)) :
    pg₁ = { pg with stat := .running, tracee := pg₁.tracee, out := pg₁.out } := by
  obtain ⟨_, ⟨hr, ls, hb⟩ | ⟨_, _, hs⟩⟩ := letGo_cases h
  · rcases beforeResume_cases hb with ⟨_, _, rfl⟩ | ⟨_, _, _, _, rfl, _⟩
    · rw [← hr]
      rfl
    · rw [← hr]
      rfl
  · rw [setBreakPoints_eq hs]
    rfl

theorem putBack_eq {pg pg' : Program R} {rip : Option Addr} (h : putBack rip pg = some pg') :
    ∃ m, pg' = pg.setMem m := by
  cases rip with
  | none => exact ⟨pg.tracee.mem, (Option.some.inj h).symm⟩
  | some a => exact ⟨_, patchCode_eq h⟩

theorem readElf_eq (e : Elf) (pg : Program R) :
    (pg.readElf e).stat = pg.stat ∧ (pg.readElf e).breakpoints = pg.breakpoints := by
  rw [readElf]
  split
  · exact ⟨rfl, rfl⟩
  · exact ⟨rfl, rfl⟩

theorem load_eq {E : Env R} {path : Path} {pg pg' : Program R} {r : Int} (h₀ : pg.stat = .unloaded)
    (h : pg.load E path = some (r, pg')) :
    pg'.stat ≠ .running ∧ pg'.breakpoints = pg.breakpoints := by
  rcases load_cases h₀ h with ⟨_, ls, rfl⟩ | ⟨_, e, vmtext, is, ls, _, _, rfl⟩
  · exact ⟨by simp [print, h₀], rfl⟩
  · obtain ⟨hs, hb⟩ := readElf_eq e { pg with
      name := path, stat := .intermediate, tracee := (E.spawn pg.loads).tracee,
      loads := pg.loads + 1, vmtext := vmtext }
    refine ⟨fun hr => ?_, hb⟩
    cases hs.symm.trans hr

theorem childExit_eq {E : Env R} {pg pg' : Program R} (h : pg.childExit E = some pg') :
    pg'.stat ≠ .running ∧ pg'.breakpoints = pg.breakpoints := by
  obtain ⟨⟨r, pg₁⟩, hl, rfl⟩ := Option.map_eq_some_iff.mp h
  have hload := load_eq rfl hl
  exact hload

theorem afterWait_cases {E : Env R} {pg pg' : Program R} {rip : Option Addr} {w : Wait R} {r : Int}
    (h : pg.afterWait E rip w = some (.done r pg')) :
    (pg'.stat ≠ .running ∧ pg'.breakpoints = pg.breakpoints) ∨
      ∃ T m ls, w = .stopped T ∧ pg' = (setMem { pg with tracee := T } m).print ls := by
  cases w with
  | going T => cases h
  | exited T =>
    obtain ⟨pg₂, hc, he⟩ := Option.map_eq_some_iff.mp h
    obtain ⟨_, rfl⟩ : 0 = r ∧ pg₂ = pg' := by simpa using he
    have hexit := childExit_eq hc
    exact .inl hexit
  | stopped T =>
    obtain ⟨pg₂, hp, he⟩ := Option.map_eq_some_iff.mp h
    obtain ⟨_, rfl⟩ : 0 = r ∧ pg₂.printHit = pg' := by simpa using he
    obtain ⟨m, rfl⟩ := putBack_eq hp
    obtain ⟨ls, hls⟩ := printHit_eq (setMem { pg with tracee := T } m)
    exact .inr ⟨T, m, ls, rfl, hls⟩

end Program

theorem Cmd.exec_letGo {E : Env R} {pg pg₁ : Program R} {c : Cmd} {rip : Option Addr}
    (h : pg.letGo c = some (rip, pg₁)) (n : Nat) :
    c.exec E n pg = pg₁.afterWait E rip (c.waits E n pg₁.tracee) := by
  cases c with
  | break_ id addr => cases h
  | delete id => cases h
  | start => cases h
  | run =>
    rw [Program.letGo] at h
    rw [Cmd.exec, Program.run]
    split_ifs at h with hr hl
    · rw [if_neg (by simp [Program.isLoaded, Program.isRunning_iff.mp hr]), if_pos hr, Program.cont,
        if_neg (by simpa [Program.isRunning, Program.print] using hr), h]
      rfl
    · obtain ⟨pg₂, hs, he⟩ := Option.map_eq_some_iff.mp h
      obtain ⟨rfl, rfl⟩ := Prod.mk.inj he
      rw [if_neg (by simp [hl]), if_neg hr, hs]
      rfl
  | cont =>
    rw [Program.letGo] at h
    split_ifs at h with hr
    rw [Cmd.exec, Program.cont, if_neg (by simp [hr]), h]
    rfl
  | si =>
    rw [Program.letGo] at h
    split_ifs at h with hr
    rw [Cmd.exec, Program.si, if_neg (by simp [hr]), h]
    rfl

/-- A command that returns without letting the tracee run has only printed something. -/
theorem Cmd.exec_stay {E : Env R} {pg pg' : Program R} {c : Cmd}
    (hc : c = .run ∨ c = .cont ∨ c = .si) (h : pg.letGo c = none) {n : Nat} {r : Int}
    (he : c.exec E n pg = some (.done r pg')) :
    ∃ ls, pg' = pg.print ls := by
  have hprint : ∀ {ls : List Line}, some (Result.done (-1) (pg.print ls)) = some (.done r pg') →
      ∃ ls, pg' = pg.print ls := by
    intro ls he
    obtain ⟨_, rfl⟩ : -1 = r ∧ pg.print ls = pg' := by simpa using he
    exact ⟨ls, rfl⟩
  rcases hc with rfl | rfl | rfl
  · rw [Program.letGo] at h
    rw [Cmd.exec, Program.run] at he
    split_ifs at h with hr hl
    · rw [if_neg (by simp [Program.isLoaded, Program.isRunning_iff.mp hr]), if_pos hr, Program.cont,
        if_neg (by simpa [Program.isRunning, Program.print] using hr), h] at he
      cases he
    · rw [if_neg (by simp [hl]), if_neg hr, Option.map_eq_none_iff.mp h] at he
      cases he
    · rw [if_pos (by simp [hl])] at he
      exact hprint he
  · rw [Program.letGo] at h
    rw [Cmd.exec, Program.cont] at he
    split_ifs at h with hr
    · rw [if_neg (by simp [hr]), h] at he
      cases he
    · rw [if_pos (by simp [hr])] at he
      exact hprint he
  · rw [Program.letGo] at h
    rw [Cmd.exec, Program.si] at he
    split_ifs at h with hr
    · rw [if_neg (by simp [hr]), h] at he
      cases he
    · rw [if_pos (by simp [hr])] at he
      exact hprint he

/-- The breakpoints in place while the tracee runs. -/
def inPlace (pts : List Addr) : Option Addr → List Addr
  | none => pts
  | some a => pts.filter (· ≠ a)

theorem mem_of_inPlace {pts : List Addr} {rip : Option Addr} {x : Addr} (h : x ∈ inPlace pts rip) :
    x ∈ pts := by
  cases rip with
  | none => exact h
  | some a => exact List.mem_of_mem_filter h

theorem update_patched_self (m : Mem) (a : Addr) (pts : List Addr) :
    Function.update (patched m pts) a (m a) = patched m (inPlace pts (some a)) := by
  funext x
  by_cases hx : x = a
  · simp [patched, inPlace, hx]
  · simp [patched, inPlace, hx]

/-- Where the tracee of a running program is, compared with state `N` of the program on its own: at
the same place, or one past a breakpoint there. -/
structure Stands (pts : List Addr) (T N : Tracee R) : Prop where
  regs : T.regs = N.regs
  log : T.log = N.log
  place : (T.trapped = false ∧ T.rip = N.rip) ∨
    (T.trapped = true ∧ T.rip = N.rip + 1 ∧ N.rip ∈ pts)

theorem Stands.mono {pts pts' : List Addr} {T N : Tracee R} (h : Stands pts T N)
    (hle : ∀ x ∈ pts, x ∈ pts') : Stands pts' T N := by
  refine ⟨h.regs, h.log, ?_⟩
  rcases h.place with hp | ⟨h1, h2, h3⟩
  · exact .inl hp
  · exact .inr ⟨h1, h2, hle _ h3⟩

theorem Stands.withMem {pts : List Addr} {T N : Tracee R} (h : Stands pts T N) (m : Mem) :
    Stands pts { T with mem := m } N := ⟨h.regs, h.log, h.place⟩

theorem Lockstep.stands {C : Cpu R} {as : List Addr} {N T : Tracee R}
    (h : Lockstep C as N (.stopped T)) : Stands as T N := by
  cases h with
  | stepped hf ht => exact ⟨hf.regs, hf.log, .inl ⟨ht, hf.rip⟩⟩
  | trapped hf ha => exact ⟨hf.regs, hf.log, .inr ⟨rfl, by rw [← hf.rip], ha⟩⟩

/-- The debugger has kept the program to the way that it goes on its own. -/
structure Sim (E : Env R) (path : Path) (F : File) (S : Addr → Prop) (pg : Program R) : Prop
    extends Inv E path F pg where
  onStart : ∀ b ∈ pg.breakpoints, S b.addr
  stands : pg.stat = .running →
    ∃ k N, E.cpu.steps k (pg.origin E) = some N ∧ Stands pg.vmPoints pg.tracee N

namespace Sim

variable {E : Env R} {path : Path} {F : File} {S : Addr → Prop} {pg pg' pg₁ : Program R} {c : Cmd}
  {rip : Option Addr}

theorem print (h : Sim E path F S pg) (ls : List Line) : Sim E path F S (pg.print ls) :=
  ⟨h.toInv.print ls, h.onStart, h.stands⟩

theorem clear (h : Sim E path F S pg) (hF : Loadable E path F) (hP : Plain E path F S)
    (hl : pg.stat ≠ .unloaded) {k : Nat} {N : Tracee R}
    (hN : E.cpu.steps k (pg.origin E) = some N) :
    E.cpu.Clear pg.vmPoints N := by
  refine ⟨hP.code _ k N hN, fun i h0 hi hm => ?_⟩
  obtain ⟨b, hb, he⟩ := List.mem_map.mp hm
  rw [h.vm_eq hF hl] at he
  exact hP.starts _ _ k N (h.maps hl) hN i h0 hi b.addr (h.onStart b hb) he.symm

theorem letGo_mem (h : Sim E path F S pg) (hF : Loadable E path F) (hP : Plain E path F S)
    (hg : pg.letGo c = some (rip, pg₁)) :
    pg₁.tracee.mem = Sdb.patched (pg.origin E).mem (inPlace pg.vmPoints rip) := by
  obtain ⟨_, ⟨hr, ls, hb⟩ | ⟨hi, rfl, hs⟩⟩ := Program.letGo_cases hg
  · rcases Program.beforeResume_cases hb with ⟨_, rfl, rfl⟩ | ⟨b, v, hhit, rfl, rfl, hv, _⟩
    · exact h.mem hr
    · obtain ⟨hmem, hvm⟩ := Program.hitPoint_some hhit
      have hl : pg.stat ≠ .unloaded := by simp [hr]
      have hv : v = (pg.origin E).mem (pg.vm b.addr) := by
        rw [hv (by rw [Program.print, h.elfentry, h.elftext, hP.entry]),
          h.origin_byte hF hl (h.points b hmem).1, (h.points b hmem).2]
      change Function.update pg.tracee.mem (pg.tracee.rip - 1) v = _
      rw [h.mem hr, hv, ← show pg.vm b.addr = pg.tracee.rip - 1 from hvm]
      exact update_patched_self _ _ _
  · obtain rfl := Program.setBreakPoints_eq hs
    change Sdb.patched pg.tracee.mem pg.vmPoints = _
    rw [h.fresh hi]
    rfl

/-- From an honest state the tracee goes on where the program on its own is. -/
theorem letGo_follows (h : Sim E path F S pg) (hF : Loadable E path F) (hP : Plain E path F S)
    (hon : pg.Honest c) (hg : pg.letGo c = some (rip, pg₁)) :
    ∃ k N, E.cpu.steps k (pg.origin E) = some N ∧ Follows (inPlace pg.vmPoints rip) pg₁.tracee N ∧
      ∀ a, rip = some a → N.rip = a ∧ pg.StoppedAt a ∧ Stands pg.vmPoints pg.tracee N := by
  have hcode := h.letGo_mem hF hP hg
  obtain ⟨hc, ⟨hr, ls, hb⟩ | ⟨hi, rfl, hs⟩⟩ := Program.letGo_cases hg
  · obtain ⟨k, N, hN, hst⟩ := h.stands hr
    have hm : N.mem = (pg.origin E).mem := Cpu.steps_mem hN
    refine ⟨k, N, hN, ?_⟩
    rcases Program.beforeResume_cases hb with ⟨hnone, rfl, rfl⟩ | ⟨b, v, hhit, rfl, rfl, _⟩
    · rcases hst.place with ⟨_, hrip⟩ | ⟨_, hrip, hpt⟩
      · exact ⟨⟨hm ▸ hcode, hrip, hst.regs, hst.log⟩, fun a ha => by cases ha⟩
      · -- The tracee is one past a breakpoint, which `CheckIfHit` would have found.
        refine absurd ?_ (Program.hitPoint_none hnone)
        change pg.tracee.rip - 1 ∈ pg.vmPoints
        rwa [hrip, BitVec.add_sub_cancel]
    · have hvm : pg.vm b.addr = pg.tracee.rip - 1 := (Program.hitPoint_some hhit).2
      have htrap := hon hr hc (by rw [show pg.hitPoint = some b from hhit]; simp)
      rcases hst.place with ⟨hf, _⟩ | ⟨_, hrip, hpt⟩
      · rw [htrap] at hf
        cases hf
      · have hN' : pg.tracee.rip - 1 = N.rip := by rw [hrip, BitVec.add_sub_cancel]
        refine ⟨⟨hm ▸ hcode, hN', hst.regs, hst.log⟩, fun a ha => ?_⟩
        obtain rfl : pg.vm b.addr = a := Option.some.inj ha
        exact ⟨by rw [hvm, hN'], ⟨hr, htrap, by rw [hvm, BitVec.sub_add_cancel]⟩, hst⟩
  · obtain rfl := Program.setBreakPoints_eq hs
    refine ⟨0, pg.origin E, rfl, ?_, fun a ha => by cases ha⟩
    have hrip : pg.tracee.rip = (pg.origin E).rip := by rw [h.fresh hi]
    have hregs : pg.tracee.regs = (pg.origin E).regs := by rw [h.fresh hi]
    have hlog : pg.tracee.log = (pg.origin E).log := by rw [h.fresh hi]
    exact ⟨hcode, hrip, hregs, hlog⟩

theorem letGo_loaded (hg : pg.letGo c = some (rip, pg₁)) : pg.stat ≠ .unloaded := by
  obtain ⟨_, ⟨hr, _⟩ | ⟨hi, _⟩⟩ := Program.letGo_cases hg
  · simp [hr]
  · simp [hi]

theorem clear_from (h : Sim E path F S pg) (hF : Loadable E path F) (hP : Plain E path F S)
    (hg : pg.letGo c = some (rip, pg₁)) {k : Nat} {N : Tracee R}
    (hN : E.cpu.steps k (pg.origin E) = some N) {j : Nat} {N' : Tracee R}
    (hj : E.cpu.steps j N = some N') : E.cpu.Clear (inPlace pg.vmPoints rip) N' := by
  have hs : E.cpu.steps (k + j) (pg.origin E) = some N' := by
    rw [Cpu.steps_add, hN]
    exact hj
  exact (h.clear hF hP (letGo_loaded hg) hs).mono fun x => mem_of_inPlace

/-- While it waits, and when it has waited, the tracee is where the program on its own is. -/
theorem lockstep (h : Sim E path F S pg) (hF : Loadable E path F) (hP : Plain E path F S)
    (hon : pg.Honest c) (hg : pg.letGo c = some (rip, pg₁)) (n : Nat) :
    ∃ k N, E.cpu.steps k (pg.origin E) = some N ∧
      Lockstep E.cpu (inPlace pg.vmPoints rip) N (c.waits E n pg₁.tracee) := by
  obtain ⟨k, N, hN, hfol, _⟩ := h.letGo_follows hF hP hon hg
  have hw : ∃ j N', E.cpu.steps j N = some N' ∧
      Lockstep E.cpu (inPlace pg.vmPoints rip) N' (c.waits E n pg₁.tracee) := by
    cases c with
    | si => exact hfol.singleStep (h.clear_from hF hP hg hN (j := 0) rfl)
    | _ => exact hfol.cont (fun j N' hj => h.clear_from hF hP hg hN hj) n
  obtain ⟨j, N', hj, hlock⟩ := hw
  refine ⟨k + j, N', ?_, hlock⟩
  rw [Cpu.steps_add, hN]
  exact hj

theorem waited (h : Sim E path F S pg) (hF : Loadable E path F) (hP : Plain E path F S)
    (hon : pg.Honest c) (hg : pg.letGo c = some (rip, pg₁)) {n : Nat} {r : Int}
    (he : c.exec E n pg = some (.done r pg')) : Sim E path F S pg' := by
  have hinv : Inv E path F pg' :=
    h.toInv.step hF (safeDelete_of_ne fun id hd => by subst hd; cases hg)
    ⟨n, r, he⟩
  obtain ⟨k, N, hN, hlock⟩ := h.lockstep hF hP hon hg n
  have hpg₁ := Program.letGo_eq hg
  rw [Cmd.exec_letGo hg] at he
  rcases Program.afterWait_cases he with ⟨hst, hbs⟩ | ⟨T, m, ls, hw, rfl⟩
  · rw [hpg₁] at hbs
    exact ⟨hinv, fun b hb => h.onStart b (hbs ▸ hb), fun hr => absurd hr hst⟩
  · rw [hw] at hlock
    rw [hpg₁] at hinv ⊢
    exact ⟨hinv, h.onStart, fun _ =>
      ⟨k, N, hN, (hlock.stands.mono fun x => mem_of_inPlace).withMem m⟩⟩

theorem start (h : Sim E path F S pg) (hP : Plain E path F S) {r : Int}
    (hs : pg.start = some (r, pg')) : Sim E path F S pg' := by
  have hinv := h.toInv.start hs
  rcases Program.start_cases hs with ⟨ls, rfl⟩ | ⟨hi, hp⟩
  · exact h.print ls
  · obtain rfl := Program.setBreakPoints_eq hp
    refine ⟨hinv, h.onStart, fun _ => ⟨0, pg.origin E, rfl, ?_⟩⟩
    have hst : Stands pg.vmPoints pg.tracee (pg.origin E) := by
      rw [h.fresh hi]
      exact ⟨rfl, rfl, .inl ⟨hP.fresh _, rfl⟩⟩
    exact hst.withMem _

theorem break_ (h : Sim E path F S pg) (hF : Loadable E path F) {id : Int} {addr : Addr}
    (hc : (Cmd.break_ id addr).OnStart S pg) {r : Int} (hb : pg.break_ id addr = (r, pg')) :
    Sim E path F S pg' := by
  have hinv := h.toInv.break_ hF hb
  rcases Program.break_cases hb with ⟨ls, rfl⟩ | ⟨_, a, codes, ha, _, _, _, _, _, hpg'⟩
  · exact h.print ls
  have hon : ∀ b ∈ pg.breakpoints ++ [⟨id, a, codes.headD 0#8⟩], S b.addr := by
    rw [List.forall_mem_append, List.forall_mem_singleton]
    exact ⟨h.onStart, ha ▸ hc⟩
  by_cases hr : pg.stat = .running
  · rw [if_pos hr] at hpg'
    obtain ⟨k, N, hN, hst⟩ := h.stands hr
    subst hpg'
    refine ⟨hinv, hon, fun _ => ⟨k, N, hN, (hst.mono fun x hx => ?_).withMem _⟩⟩
    obtain ⟨b, hb, rfl⟩ := List.mem_map.mp hx
    exact List.mem_map.mpr ⟨b, List.mem_append_left _ hb, rfl⟩
  · rw [if_neg hr] at hpg'
    subst hpg'
    exact ⟨hinv, hon, fun hr' => absurd hr' hr⟩

theorem step (h : Sim E path F S pg) (hF : Loadable E path F) (hP : Plain E path F S)
    (hc : c.OnStart S pg) (hon : pg.Honest c) (hs : CmdStep E pg c pg') : Sim E path F S pg' := by
  obtain ⟨n, r, he⟩ := hs
  cases hg : pg.letGo c with
  | some p =>
    obtain ⟨rip, pg₁⟩ := p
    exact h.waited hF hP hon hg he
  | none =>
    cases c with
    | break_ id addr =>
      obtain ⟨hr, rfl⟩ : (pg.break_ id addr).1 = r ∧ (pg.break_ id addr).2 = pg' := by
        simpa [Cmd.exec] using he
      exact h.break_ hF hc rfl
    | delete id => exact hc.elim
    | start =>
      obtain ⟨⟨r', pg₁⟩, hd, hr⟩ := Option.map_eq_some_iff.mp he
      obtain ⟨_, rfl⟩ : r' = r ∧ pg₁ = pg' := by simpa using hr
      exact h.start hP hd
    | run =>
      obtain ⟨ls, rfl⟩ := Cmd.exec_stay (by simp) hg he
      exact h.print ls
    | cont =>
      obtain ⟨ls, rfl⟩ := Cmd.exec_stay (by simp) hg he
      exact h.print ls
    | si =>
      obtain ⟨ls, rfl⟩ := Cmd.exec_stay (by simp) hg he
      exact h.print ls

theorem load (hF : Loadable E path F) (h₀ : pg.stat = .unloaded) (hb : pg.breakpoints = [])
    (hload : pg.load E path = some (0, pg')) : Sim E path F S pg' := by
  have hinv : Inv E path F pg' := Inv.load hF h₀ (by simp [hb]) (by simp [hb]) hload
  obtain ⟨hs, hbs⟩ := Program.load_eq h₀ hload
  rw [hb] at hbs
  refine ⟨hinv, fun b hm => ?_, fun hr => absurd hr hs⟩
  rw [hbs] at hm
  cases hm

/-- A breakpoint one byte before `rip` without a trap: the tracee is let go at the breakpoint, one
byte before the place where the program on its own is. -/
theorem misled (h : Sim E path F S pg) (hF : Loadable E path F) (hP : Plain E path F S)
    (hg : pg.letGo c = some (rip, pg₁)) (hon : ¬ pg.Honest c) :
    pg.tracee.trapped = false ∧ pg₁.tracee.rip ∈ pg.vmPoints ∧
      pg₁.tracee.mem pg₁.tracee.rip ≠ some 0xcc#8 ∧
      ∃ k N, E.cpu.steps k (pg.origin E) = some N ∧ pg₁.tracee.rip = N.rip - 1 ∧
        pg₁.tracee.log = N.log := by
  simp only [Program.Honest, Classical.not_imp] at hon
  obtain ⟨hr, hc, hhit, htrap⟩ := hon
  obtain ⟨k, N, hN, hst⟩ := h.stands hr
  have hcode := h.letGo_mem hF hP hg
  have hrip : pg.tracee.rip = N.rip := by
    rcases hst.place with ⟨_, hrip⟩ | ⟨ht, _⟩
    · exact hrip
    · exact absurd ht htrap
  obtain ⟨_, ⟨_, ls, hb⟩ | ⟨hi, _⟩⟩ := Program.letGo_cases hg
  · rcases Program.beforeResume_cases hb with ⟨hnone, _⟩ | ⟨b, v, hfound, rfl, hpg₁, _⟩
    · exact absurd hnone hhit
    obtain ⟨hmem, hvm⟩ := Program.hitPoint_some hfound
    have hvm : pg.vm b.addr = pg.tracee.rip - 1 := hvm
    have hrip₁ : pg₁.tracee.rip = pg.vm b.addr := by
      rw [hpg₁, hvm]
      rfl
    refine ⟨by simpa using htrap, ?_, ?_, k, N, hN, by rw [hrip₁, hvm, hrip], ?_⟩
    · rw [hrip₁]
      exact List.mem_map_of_mem hmem
    · have hcode : pg₁.tracee.mem =
          Sdb.patched (pg.origin E).mem (inPlace pg.vmPoints (some (pg.vm b.addr))) := hcode
      rw [hcode, hrip₁, Sdb.patched, if_neg (by simp [inPlace]),
        h.origin_byte hF (by simp [hr]) (h.points b hmem).1]
      intro he
      exact hP.byte b.addr (h.onStart b hmem) (Option.some.inj he)
    · rw [hpg₁, ← hst.log]
      rfl
  · cases hr.symm.trans hi

/-- The instruction at the breakpoint is then executed, which the program on its own does not do. -/
theorem not_retires (h : Sim E path F S pg) (hF : Loadable E path F) (hP : Plain E path F S)
    (hg : pg.letGo c = some (rip, pg₁)) (hon : ¬ pg.Honest c) :
    ¬ E.cpu.Retires (pg.origin E) (c.waits E 1 pg₁.tracee).tracee.log := by
  obtain ⟨_, _, hbyte, k, N, hN, hrip, hlog⟩ := h.misled hF hP hg hon
  have hwait : (c.waits E 1 pg₁.tracee).tracee = (E.cpu.step pg₁.tracee).tracee := by
    cases c with
    | si =>
      rw [Cmd.waits, Cpu.singleStep]
      cases E.cpu.step pg₁.tracee <;> rfl
    | _ =>
      simp only [Cmd.waits, Cpu.cont]
      cases E.cpu.step pg₁.tracee <;> rfl
  intro hret
  rw [hwait, Cpu.step_log hbyte, hlog] at hret
  have hcur := hret.next hN (hP.code _ k N hN)
  have heq : pg₁.tracee.rip = N.rip := congrArg Prod.fst hcur
  bv_omega

end Sim

/-- `nop`, `jmp rel8`, and everything else ends the process. -/
def tinyCpu : Cpu Unit where
  size f := if f 0 = some 0xeb#8 then 2 else 1
  exec f rip _ :=
    if f 0 = some 0x90#8 then some (rip + 1, ())
    else if f 0 = some 0xeb#8 then some (rip + 2 + ((f 1).getD 0#8).signExtend 64, ())
    else none
  size_pos f := by split_ifs <;> omega
  size_local f g h := by rw [h 0 (by split_ifs <;> omega)]
  exec_local f g h rip r := by
    have h0 : g 0 = f 0 := h 0 (by split_ifs <;> omega)
    rw [h0]
    by_cases heb : f 0 = some 0xeb#8
    · rw [h 1 (by rw [if_pos heb]; omega)]
    · simp [heb]

/-- A position-independent program with the bytes `code` at `0x20000` of the file. -/
def tinyFile (code : List Byte) : File :=
  ⟨0x20000, 0x20000, 0x20000, 0x10, true, fun a => code.getD (a - 0x20000).toNat 0xf4#8⟩

def tinyEnv (code : List Byte) : Env Unit where
  cpu := tinyCpu
  access _ := true
  elf _ := some ⟨0x20000, [⟨"", 0, 0, 0⟩, ⟨".text", 0x20000, 0x20000, 0x10⟩]⟩
  spawn _ := ⟨[⟨0x55550000, "r-xp", some ["a.out"]⟩],
    ⟨fun x => some (code.getD (x - 0x55570000).toNat 0xf4#8), 0x55570000, (), false, []⟩⟩
  disasm _ _ := [⟨0x20000, [], 1, "", ""⟩]

theorem tinyEnv_vmtext {code : List Byte} {n : Nat} {vm : Addr}
    (h : getTextStartInMemory ["a.out"] none ((tinyEnv code).spawn n).maps = some vm) :
    vm = 0x55550000 := by
  simpa [getTextStartInMemory, tinyEnv, eq_comm] using h

theorem tinyEnv_loadable (code : List Byte) :
    Loadable (tinyEnv code) ["a.out"] (tinyFile code) := by
  refine ⟨⟨_, _, rfl, rfl, rfl, rfl, rfl, rfl⟩, fun n vm h => ?_, fun n vm h a _ => ?_⟩
  · rw [tinyEnv_vmtext h]
    change 0x20000#64 - 0x20000#64 = 0x55550000#64 ↔ true = false
    decide
  · rw [tinyEnv_vmtext h]
    have he : a + 0x55550000#64 - 0x55570000#64 = a - 0x20000#64 := by bv_omega
    change some (code.getD (a + 0x55550000#64 - 0x55570000#64).toNat 0xf4#8) = _
    rw [he]
    rfl

theorem tinyEnv_plain {code : List Byte} (hcc : 0xcc#8 ∉ code) (hlen : code.length ≤ 16) :
    Plain (tinyEnv code) ["a.out"] (tinyFile code) (· = 0x20000) := by
  have hbyte : ∀ i, code.getD i 0xf4#8 ≠ 0xcc#8 := by
    intro i
    by_cases hi : i < code.length
    · rw [List.getD_eq_getElem _ _ hi]
      intro he
      exact hcc (he ▸ List.getElem_mem hi)
    · rw [List.getD_eq_default _ _ (by omega)]
      decide
  refine ⟨rfl, fun _ => rfl, fun a _ => hbyte _, fun n k N hN he => ?_,
    fun n vm k N hvm hN i h0 hi a ha he => ?_⟩
  · rw [Cpu.steps_mem hN] at he
    exact hbyte _ (Option.some.inj he)
  · -- An instruction of two bytes just before `.text` would have to be in `code`.
    obtain rfl := tinyEnv_vmtext hvm
    subst ha
    change i < (if N.fetch 0 = some 0xeb#8 then 2 else 1) at hi
    split_ifs at hi with heb
    · obtain rfl : i = 1 := by omega
      have hrip : N.rip = 0x5556ffff#64 := by
        have he : N.rip + 1#64 = 0x55570000#64 := he
        bv_omega
      rw [Tracee.fetch, Cpu.steps_mem hN, hrip] at heb
      have heb : some (code.getD (0x5556ffff#64 + 0#64 - 0x55570000#64).toNat 0xf4#8) =
          some 0xeb#8 :=
        heb
      rw [List.getD_eq_default _ _ (le_trans hlen (by decide))] at heb
      exact absurd heb (by decide)
    · omega

/-- The program once it is loaded, and after a command. -/
def tinyLoaded (code : List Byte) : Program Unit :=
  ((unloadedProgram.load (tinyEnv code) ["a.out"]).getD (0, unloadedProgram)).2
def tinyAfter (code : List Byte) (c : Cmd) (pg : Program Unit) : Program Unit :=
  match c.exec (tinyEnv code) 5 pg with
  | some (.done _ pg') => pg'
  | _ => pg

/-- Two one-byte instructions and the end, with a breakpoint at the
first: run to it, and step twice. -/
def nops : List Byte := [0x90#8, 0x90#8]
def nopsBroken : Program Unit := tinyAfter nops (.break_ 0 0x20000) (tinyLoaded nops)
def nopsRun : Program Unit := tinyAfter nops .run nopsBroken
def nopsStepped : Program Unit := tinyAfter nops .si nopsRun
def nopsTwice : Program Unit := tinyAfter nops .si nopsStepped

theorem nopsBroken_step : CmdStep (tinyEnv nops) (tinyLoaded nops) (.break_ 0 0x20000) nopsBroken :=
  ⟨5, 0, rfl⟩

theorem nopsRun_step : CmdStep (tinyEnv nops) nopsBroken .run nopsRun := ⟨5, 0, rfl⟩

theorem nopsStepped_step : CmdStep (tinyEnv nops) nopsRun .si nopsStepped := ⟨5, 0, rfl⟩

theorem nopsTwice_step : CmdStep (tinyEnv nops) nopsStepped .si nopsTwice := ⟨5, 0, rfl⟩

theorem nops_plain : Plain (tinyEnv nops) ["a.out"] (tinyFile nops) (· = 0x20000) :=
  tinyEnv_plain (by decide) (by decide)

/-- As long as every command that resumes the program meets the condition, what the tracee has
retired at any moment is what the program retires on its own; and the next command keeps to that if
and only if it meets the condition as well. -/
theorem retires_iff_honest {E : Env R} {path : Path} {F : File} {S : Addr → Prop}
    (hF : Loadable E path F) (hP : Plain E path F S) {pg₀ pg pg' pg₁ : Program R}
    (h₀ : pg₀.stat = .unloaded) (hb : pg₀.breakpoints = []) (hload : pg₀.load E path = some (0, pg))
    {cs : List Cmd}
    (hrun : Reach (fun pg c pg' => CmdStep E pg c pg' ∧ c.OnStart S pg ∧ pg.Honest c) pg cs pg')
    {c : Cmd} {rip : Option Addr} (hg : pg'.letGo c = some (rip, pg₁)) :
    (∀ n, E.cpu.Retires (pg'.origin E) (c.waits E n pg₁.tracee).tracee.log) ↔ pg'.Honest c := by
  have hsim : Sim E path F S pg' :=
    hrun.invariant (Sim.load hF h₀ hb hload) fun _ _ _ h hs => h.step hF hP hs.2.1 hs.2.2 hs.1
  constructor
  · intro hret
    by_contra hon
    exact hsim.not_retires hF hP hg hon (hret 1)
  · intro hon n
    obtain ⟨k, N, hN, hlock⟩ := hsim.lockstep hF hP hon hg n
    exact hlock.retires hN

/-- The program is stopped at the breakpoint, and `si` is transparent. -/
theorem retires_iff_honest_hit :
    ∃ rip pg₁, nopsRun.letGo .si = some (rip, pg₁) ∧ nopsRun.hitPoint ≠ none ∧
      ∀ n, tinyCpu.Retires (nopsRun.origin (tinyEnv nops))
        (Cmd.waits (tinyEnv nops) n pg₁.tracee .si).tracee.log := by
  have hrun : Reach (fun pg c pg' => CmdStep (tinyEnv nops) pg c pg' ∧ c.OnStart (· = 0x20000) pg ∧
      pg.Honest c) (tinyLoaded nops) [.break_ 0 0x20000, .run] nopsRun :=
    (Reach.init.snoc ⟨nopsBroken_step, rfl, fun hr => by cases hr⟩).snoc
      ⟨nopsRun_step, trivial, fun hr => by cases hr⟩
  have hload : unloadedProgram.load (tinyEnv nops) ["a.out"] = some (0, tinyLoaded nops) := rfl
  exact ⟨_, _, rfl, by decide,
    (retires_iff_honest (tinyEnv_loadable nops) nops_plain rfl rfl hload hrun
    rfl).mpr fun _ _ _ => rfl⟩

/-- After a one-byte instruction with a breakpoint, the debugger takes the tracee for stopped at the
breakpoint once more, steps back and has the instruction executed twice. -/
theorem retires_twice_nop :
    Loadable (tinyEnv nops) ["a.out"] (tinyFile nops) ∧
      Plain (tinyEnv nops) ["a.out"] (tinyFile nops) (· = 0x20000) ∧
      unloadedProgram.load (tinyEnv nops) ["a.out"] = some (0, tinyLoaded nops) ∧
      Reach (fun pg c pg' => CmdStep (tinyEnv nops) pg c pg' ∧ c.OnStart (· = 0x20000) pg)
        (tinyLoaded nops) [.break_ 0 0x20000, .run, .si, .si] nopsTwice ∧
      nopsTwice.tracee.log = [(0x55570000, [some 0x90#8]), (0x55570000, [some 0x90#8])] ∧
      ¬ tinyCpu.Retires (nopsTwice.origin (tinyEnv nops)) nopsTwice.tracee.log := by
  have hrun : Reach (fun pg c pg' => CmdStep (tinyEnv nops) pg c pg' ∧ c.OnStart (· = 0x20000) pg)
      (tinyLoaded nops) [.break_ 0 0x20000, .run, .si, .si] nopsTwice :=
    (((Reach.init.snoc ⟨nopsBroken_step, rfl⟩).snoc ⟨nopsRun_step, trivial⟩).snoc
      ⟨nopsStepped_step, trivial⟩).snoc ⟨nopsTwice_step, trivial⟩
  refine ⟨tinyEnv_loadable nops, nops_plain, rfl, hrun, rfl, fun hret => ?_⟩
  -- On its own the program goes on with the instruction at `0x55570001`.
  have hN : tinyCpu.steps 1 (nopsTwice.origin (tinyEnv nops)) = some _ := rfl
  have hnext := Cpu.Retires.next hN (by decide) hret
  exact absurd (congrArg Prod.fst hnext) (by decide)

end NctuCourses.Sdb
