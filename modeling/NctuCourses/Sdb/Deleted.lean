import NctuCourses.Sdb.Hit
import NctuCourses.Sdb.Overrun

namespace NctuCourses.Sdb

open NctuCourses.Lib

variable {R : Type}

/-- What is asked of the instructions of `F` that start at the addresses `S`: none is a `0xcc`, and
none has another start in its middle. -/
structure Starts (E : Env R) (path : Path) (F : File) (S : Addr → Prop) : Prop where
  byte : ∀ a, S a → F.byte a ≠ 0xcc#8
  apart : ∀ n vm, getTextStartInMemory path none (E.spawn n).maps = some vm →
    ∀ a, S a → ∀ i, 0 < i →
    i < E.cpu.size (fun j => (E.spawn n).tracee.mem (F.vmAddr vm a + BitVec.ofNat 64 j)) →
    ∀ b, S b → F.vmAddr vm a + BitVec.ofNat 64 i ≠ F.vmAddr vm b

/-- `Break` on the start of an instruction; every other command is free. -/
def Cmd.BreaksOn (S : Addr → Prop) (pg : Program R) : Cmd → Prop
  | .break_ _ addr => S (pg.fileAddr addr)
  | _ => True

/-- The same instruction has been executed with the same effect, but for
`0xcc` at the addresses `as`. -/
inductive SameEvent (as : List Addr) : Event R → Event R → Prop
  | step {T N : Tracee R} : Follows as T N → SameEvent as (.step T) (.step N)
  | exit {T N : Tracee R} : T.log = N.log → SameEvent as (.exit T) (.exit N)

/-- Command `c` lets the tracee go, and the next thing that it does is what the program
in state `N` does on its own. -/
def Program.GoesOn (E : Env R) (pg : Program R) (c : Cmd) (N : Tracee R) : Prop :=
  ∃ rip pg₁, pg.letGo c = some (rip, pg₁) ∧
    SameEvent (inPlace pg.vmPoints rip) (E.cpu.step pg₁.tracee) (E.cpu.step N)

namespace SameEvent

variable {as : List Addr} {e f : Event R}

theorem log (h : SameEvent as e f) : e.tracee.log = f.tracee.log := by
  cases h with
  | step hf => exact hf.log
  | exit hl => exact hl

theorem ne_trap (h : SameEvent as e f) (T : Tracee R) : e ≠ .trap T := by
  intro he
  subst he
  cases h

end SameEvent

namespace Cpu

variable {C : Cpu R} {T N : Tracee R} {as : List Addr}

theorem current_inj (h : C.current T = C.current N) :
    T.rip = N.rip ∧ T.mem T.rip = N.mem N.rip := by
  obtain ⟨hrip, hbytes⟩ := Prod.mk.inj h
  refine ⟨hrip, ?_⟩
  have hhead := congrArg (fun l => l[0]?) hbytes
  simp only [List.getElem?_map, List.getElem?_range (C.size_pos _), Option.map_some, Tracee.fetch]
    at hhead
  simpa using hhead

/-- What has been executed is the instruction at `rip`. -/
theorem current_of_sameEvent (h : SameEvent as (C.step T) (C.step N)) (hlog : T.log = N.log)
    (hN : N.mem N.rip ≠ some 0xcc#8) : C.current T = C.current N := by
  have hT : T.mem T.rip ≠ some 0xcc#8 := by
    intro hcc
    apply h.ne_trap
    rw [step, if_pos hcc]
  have hsame := h.log
  rw [step_log hT, step_log hN, hlog] at hsame
  simpa using hsame

end Cpu

theorem Follows.sameEvent {C : Cpu R} {as : List Addr} {T N : Tracee R} (h : Follows as T N)
    (hc : C.Clear as N) (ha : N.rip ∉ as) : SameEvent as (C.step T) (C.step N) := by
  rcases h.step hc ha with ⟨T', N', hT, hN, hf⟩ | ⟨T', N', hT, hN, hl⟩
  · rw [hT, hN]
    exact .step hf
  · rw [hT, hN]
    exact .exit hl

namespace Program

/-- The tracee as it would be without the debugger, at the breakpoint that was hit. -/
def native (E : Env R) (pg : Program R) : Tracee R :=
  { pg.tracee with mem := (pg.origin E).mem, rip := pg.tracee.rip - 1, trapped := false }

theorem letGo_resume {pg : Program R} {c : Cmd} (hr : pg.stat = .running)
    (hc : c = .cont ∨ c = .si) :
    pg.letGo c = pg.beforeResume := by
  cases hc with
  | inl hc => rw [hc, letGo, if_pos (isRunning_iff.mpr hr)]
  | inr hc => rw [hc, letGo, if_pos (isRunning_iff.mpr hr)]

/-- The byte that `RestoreRIPAndCode` leaves at the breakpoint. -/
def restoredByte (pg : Program R) : Option Byte :=
  match pg.restorePoint with
  | none => pg.tracee.mem (pg.tracee.rip - 1)
  | some d => some d.origCode

theorem letGo_hit_eq {pg : Program R} {c : Cmd} (hr : pg.stat = .running) (hc : c = .cont ∨ c = .si)
    (hhit : pg.tracee.rip - 1 ∈ pg.vmPoints)
    (hpeek : (peekText pg.tracee.mem (pg.tracee.rip - 1)).isSome) :
    pg.letGo c = some (some (pg.tracee.rip - 1), pg.stepBack pg.restoredByte) := by
  have hcheck : pg.checkIfHit = true := by
    cases hp : pg.hitPoint with
    | none => exact absurd hhit (hitPoint_none hp)
    | some b => simp [checkIfHit, hp]
  rw [letGo_resume hr hc, beforeResume, if_pos hcheck, restoreRipAndCode_eq, restoredByte]
  cases pg.restorePoint with
  | none =>
    rw [stepBack, Function.update_eq_self]
    rfl
  | some d =>
    obtain ⟨codes, hcodes⟩ := Option.isSome_iff_exists.mp hpeek
    rw [hcodes]
    rfl

end Program

/-- A command other than `Break` and `Delete` keeps the list. If the program is running afterwards
it is the same process, and the breakpoints were in place before or have been put there now. -/
theorem CmdStep.same_points {E : Env R} {pg pg' : Program R} {c : Cmd} (hs : CmdStep E pg c pg')
    (hc : c = .start ∨ c = .run ∨ c = .cont ∨ c = .si) :
    pg'.breakpoints = pg.breakpoints ∧ (pg'.stat = .running →
      pg'.loads = pg.loads ∧ pg'.vm = pg.vm ∧ (pg.stat = .running ∨
        pg.stat = .intermediate ∧ ∀ b ∈ pg.breakpoints,
        (peekText pg.tracee.mem (pg.vm b.addr)).isSome)) := by
  obtain ⟨n, r, he⟩ := hs
  cases hg : pg.letGo c with
  | some p =>
    obtain ⟨rip, pg₁⟩ := p
    have hpg₁ := Program.letGo_eq hg
    have hbefore : pg.stat = .running ∨
        pg.stat = .intermediate ∧ ∀ b ∈ pg.breakpoints,
        (peekText pg.tracee.mem (pg.vm b.addr)).isSome := by
      obtain ⟨_, ⟨hr, _⟩ | ⟨hi, _, hset⟩⟩ := Program.letGo_cases hg
      · exact .inl hr
      · have hread := Program.patchAll_readable hset
        exact .inr ⟨hi, hread⟩
    rw [Cmd.exec_letGo hg] at he
    rcases Program.afterWait_cases he with ⟨hst, hbs⟩ | ⟨T, m, ls, _, rfl⟩
    · rw [hpg₁] at hbs
      exact ⟨hbs, fun hr => absurd hr hst⟩
    · rw [hpg₁]
      exact ⟨rfl, fun _ => ⟨rfl, rfl, hbefore⟩⟩
  | none =>
    have hprint : ∀ ls, pg' = pg.print ls → pg'.breakpoints = pg.breakpoints ∧
        (pg'.stat = .running →
        pg'.loads = pg.loads ∧ pg'.vm = pg.vm ∧ (pg.stat = .running ∨ pg.stat = .intermediate ∧
          ∀ b ∈ pg.breakpoints, (peekText pg.tracee.mem (pg.vm b.addr)).isSome)) := by
      intro ls h
      rw [h]
      exact ⟨rfl, fun hr => ⟨rfl, rfl, .inl hr⟩⟩
    rcases hc with rfl | hc
    · obtain ⟨⟨r', pg₁⟩, hd, hr⟩ := Option.map_eq_some_iff.mp he
      obtain ⟨_, rfl⟩ : r' = r ∧ pg₁ = pg' := by simpa using hr
      rcases Program.start_cases hd with ⟨ls, h⟩ | ⟨hi, hp⟩
      · exact hprint ls h
      · have hread := Program.patchAll_readable hp
        obtain rfl := Program.setBreakPoints_eq hp
        exact ⟨rfl, fun _ => ⟨rfl, rfl, .inr ⟨hi, hread⟩⟩⟩
    · obtain ⟨ls, h⟩ := Cmd.exec_stay hc hg he
      exact hprint ls h

/-- The code matches the list of breakpoints, which are on starts, have different numbers, and can
be read while the program is running. -/
structure Kept (E : Env R) (path : Path) (F : File) (S : Addr → Prop) (pg : Program R) : Prop
    extends Inv E path F pg where
  onStart : ∀ b ∈ pg.breakpoints, S b.addr
  ids : (pg.breakpoints.map (·.id)).Nodup
  readable : pg.stat = .running → ∀ b ∈ pg.breakpoints,
    (peekText (pg.origin E).mem (pg.vm b.addr)).isSome

theorem Inv.vmPoints_isSome {E : Env R} {path : Path} {F : File} {pg : Program R}
    (h : Inv E path F pg) (hF : Loadable E path F) (hl : pg.stat ≠ .unloaded) {x : Addr}
    (hx : x ∈ pg.vmPoints) :
    ((pg.origin E).mem x).isSome := by
  obtain ⟨b, hb, rfl⟩ := List.mem_map.mp hx
  rw [h.origin_byte hF hl (h.points b hb).1]
  rfl

theorem Inv.mapped {E : Env R} {path : Path} {F : File} {pg : Program R} (h : Inv E path F pg)
    (hF : Loadable E path F) (hr : pg.stat = .running) (x : Addr) :
    (pg.tracee.mem x).isSome = ((pg.origin E).mem x).isSome := by
  rw [h.mem hr, Sdb.patched]
  split_ifs with hx
  · rw [h.vmPoints_isSome hF (by simp [hr]) hx]
    rfl
  · rfl

/-- With different numbers, the list without an element is the list of those with other numbers. -/
theorem filter_eq_of_nodup {bs l₁ l₂ : List BreakPoint} {b : BreakPoint}
    (hids : (bs.map (·.id)).Nodup) (hbs : bs = l₁ ++ b :: l₂) :
    bs.filter (·.id ≠ b.id) = l₁ ++ l₂ := by
  subst hbs
  rw [List.map_append, List.map_cons, List.nodup_middle, List.nodup_cons, ← List.map_append] at hids
  have hne : ∀ d ∈ l₁ ++ l₂, d.id ≠ b.id := fun d hd he => hids.1 (he ▸ List.mem_map_of_mem hd)
  rw [List.filter_append, List.filter_cons, if_neg (by simp), ← List.filter_append,
    List.filter_eq_self.mpr fun d hd => by simpa using hne d hd]

/-- The state without the breakpoints of number `id`, with code `m`. -/
def Program.without (pg : Program R) (id : Int) (m : Mem) (ls : List Line) : Program R :=
  { pg with
    breakpoints := pg.breakpoints.filter (·.id ≠ id)
    tracee := { pg.tracee with mem := m }
    out := pg.out ++ ls }

namespace Kept

variable {E : Env R} {path : Path} {F : File} {S : Addr → Prop} {pg pg' : Program R} {c : Cmd}

theorem peek (h : Kept E path F S pg) (hF : Loadable E path F) (hr : pg.stat = .running)
    {b : BreakPoint} (hb : b ∈ pg.breakpoints) : (peekText pg.tracee.mem (pg.vm b.addr)).isSome :=
  (peekText_isSome_congr (h.mapped hF hr) _).mpr (h.readable hr b hb)

theorem load (hF : Loadable E path F) (h₀ : pg.stat = .unloaded) (hb : pg.breakpoints = [])
    (hload : pg.load E path = some (0, pg')) : Kept E path F S pg' := by
  have hsim : Sim E path F S pg' := Sim.load hF h₀ hb hload
  obtain ⟨hs, hbs⟩ := Program.load_eq h₀ hload
  refine ⟨hsim.toInv, hsim.onStart, ?_, fun hr => absurd hr hs⟩
  rw [hbs, hb]
  exact List.nodup_nil

theorem break_ (h : Kept E path F S pg) (hF : Loadable E path F) {id : Int} {addr : Addr}
    (hc : S (pg.fileAddr addr)) {r : Int} (hb : pg.break_ id addr = (r, pg')) :
    Kept E path F S pg' := by
  have hinv := h.toInv.break_ hF hb
  rcases Program.break_cases hb with ⟨ls, rfl⟩ | ⟨_, a, codes, ha, _, _, _, hp, hnew, hpg'⟩
  · exact ⟨hinv, h.onStart, h.ids, h.readable⟩
  have hon : ∀ b ∈ pg.breakpoints ++ [⟨id, a, codes.headD 0#8⟩], S b.addr := by
    rw [List.forall_mem_append, List.forall_mem_singleton]
    exact ⟨h.onStart, ha ▸ hc⟩
  have hids : ((pg.breakpoints ++ [(⟨id, a, codes.headD 0#8⟩ : BreakPoint)]).map (·.id)).Nodup := by
    rw [List.map_append, List.nodup_append]
    refine ⟨h.ids, List.nodup_singleton _, fun x hx y hy he => ?_⟩
    obtain ⟨b, hm, rfl⟩ := List.mem_map.mp hx
    obtain rfl : y = id := by simpa using hy
    exact (hnew b hm).1 he
  by_cases hr : pg.stat = .running
  · rw [if_pos hr] at hpg'
    subst hpg'
    refine ⟨hinv, hon, hids, fun _ b hm => ?_⟩
    rcases List.mem_append.mp hm with hm | hm
    · exact h.readable hr b hm
    · obtain rfl := List.mem_singleton.mp hm
      apply (peekText_isSome_congr (h.mapped hF hr) _).mp
      change (peekText pg.tracee.mem (pg.vm a)).isSome
      rw [hp]
      rfl
  · rw [if_neg hr] at hpg'
    subst hpg'
    exact ⟨hinv, hon, hids, fun hr' => absurd hr' hr⟩

theorem delete (h : Kept E path F S pg) (hF : Loadable E path F) (hpie : F.pie = false) (id : Int) :
    ∃ r m ls, pg.delete id = some (r, pg.without id m ls) ∧
    Kept E path F S (pg.without id m ls) := by
  have hkept : ∀ r m ls, pg.delete id = some (r, pg.without id m ls) →
      ∃ r m ls, pg.delete id = some (r, pg.without id m ls) ∧
      Kept E path F S (pg.without id m ls) := by
    intro r m ls hdel
    refine ⟨r, m, ls, hdel, h.toInv.delete hF (fun _ => .inl hpie) hdel,
      fun b hb => h.onStart b (List.mem_of_mem_filter hb), ?_,
      fun hr b hb => h.readable hr b (List.mem_of_mem_filter hb)⟩
    exact h.ids.sublist (List.filter_sublist.map _)
  cases hd : deleteBreakPoint pg.breakpoints id with
  | none =>
    have hfilter : pg.breakpoints.filter (·.id ≠ id) = pg.breakpoints :=
      List.filter_eq_self.mpr fun b hb => by simpa using deleteBreakPoint_none.mp hd b hb
    apply hkept (-1) pg.tracee.mem [.noBreakPoint id]
    rw [Program.without, hfilter, Program.delete, hd]
    rfl
  | some p =>
    obtain ⟨b, rest⟩ := p
    obtain ⟨rfl, l₁, l₂, hbs, rfl⟩ := deleteBreakPoint_some hd
    have hfilter := filter_eq_of_nodup h.ids hbs
    by_cases hr : pg.stat = .running
    · have hvm : pg.vm b.addr = b.addr := by
        rw [h.vm_eq hF (by simp [hr]), File.vmAddr, hpie]
        rfl
      have hpeek := h.peek hF hr (b := b) (by simp [hbs])
      rw [hvm] at hpeek
      obtain ⟨m, hm⟩ := Program.patchCode_isSome
        (Program.print { pg with breakpoints := l₁ ++ l₂ } [.deleted b.id]) hpeek b.origCode
      apply hkept 0 m [.deleted b.id]
      rw [Program.without, hfilter, Program.delete, hd]
      dsimp only
      rw [if_pos (by simp [Program.isRunning, Program.print, hr]), hm]
      rfl
    · apply hkept 0 pg.tracee.mem [.deleted b.id]
      rw [Program.without, hfilter, Program.delete, hd]
      dsimp only
      rw [if_neg (by simp [Program.isRunning, Program.print, hr])]
      rfl

theorem same (h : Kept E path F S pg) (hF : Loadable E path F) (hs : CmdStep E pg c pg')
    (hc : c = .start ∨ c = .run ∨ c = .cont ∨ c = .si) : Kept E path F S pg' := by
  have hsafe : SafeDelete F pg c := safeDelete_of_ne fun id he => by
    subst he
    simp at hc
  have hinv := h.toInv.step hF hsafe hs
  obtain ⟨hbs, hrunning⟩ := hs.same_points hc
  refine ⟨hinv, hbs ▸ h.onStart, hbs ▸ h.ids, fun hr b hb => ?_⟩
  obtain ⟨hloads, hvm, hbefore⟩ := hrunning hr
  rw [hbs] at hb
  rw [Program.origin, hloads, hvm]
  rcases hbefore with hr | ⟨hi, hread⟩
  · exact h.readable hr b hb
  · have hb := hread b hb
    rw [h.fresh hi] at hb
    exact hb

theorem step (h : Kept E path F S pg) (hF : Loadable E path F) (hpie : F.pie = false)
    (hc : c.BreaksOn S pg) (hs : CmdStep E pg c pg') : Kept E path F S pg' := by
  cases c with
  | break_ id addr =>
    obtain ⟨n, r, he⟩ := hs
    obtain ⟨hr, rfl⟩ : (pg.break_ id addr).1 = r ∧ (pg.break_ id addr).2 = pg' := by
      simpa [Cmd.exec] using he
    exact h.break_ hF hc rfl
  | delete id =>
    obtain ⟨n, r, he⟩ := hs
    obtain ⟨r', m, ls, hd, hk⟩ := h.delete hF hpie id
    rw [Cmd.exec, hd] at he
    obtain ⟨_, rfl⟩ := Result.done.inj (Option.some.inj he)
    exact hk
  | start => exact h.same hF hs (by simp)
  | run => exact h.same hF hs (by simp)
  | cont => exact h.same hF hs (by simp)
  | si => exact h.same hF hs (by simp)

theorem native_byte (h : Kept E path F S pg) (hF : Loadable E path F) (hr : pg.stat = .running)
    {a : Addr} (ha : F.InText a) (hrip : pg.tracee.rip - 1 = pg.vm a) :
    (pg.native E).mem (pg.native E).rip = some (F.byte a) := by
  change (pg.origin E).mem (pg.tracee.rip - 1) = _
  rw [hrip]
  exact h.origin_byte hF (by simp [hr]) ha

theorem native_clear (h : Kept E path F S pg) (hF : Loadable E path F) (hS : Starts E path F S)
    (hr : pg.stat = .running) {a : Addr} (ha : F.InText a) (hSa : S a)
    (hrip : pg.tracee.rip - 1 = pg.vm a) :
    E.cpu.Clear pg.vmPoints (pg.native E) := by
  have hl : pg.stat ≠ .unloaded := by simp [hr]
  constructor
  · rw [h.native_byte hF hr ha hrip]
    intro he
    exact hS.byte a hSa (Option.some.inj he)
  · intro i h0 hi hm
    obtain ⟨b, hb, he⟩ := List.mem_map.mp hm
    have hrip' : (pg.native E).rip = F.vmAddr pg.vmtext a := hrip.trans (h.vm_eq hF hl a)
    rw [h.vm_eq hF hl, hrip'] at he
    apply hS.apart _ _ (h.maps hl) a hSa i h0 ?_ b.addr (h.onStart b hb) he.symm
    rw [← hrip']
    exact hi

/-- Without the breakpoint the tracee is not taken back, and the start of the
instruction is passed over. -/
theorem not_goesOn (h : Kept E path F S pg) (hF : Loadable E path F) (hS : Starts E path F S)
    (hr : pg.stat = .running) (hc : c = .cont ∨ c = .si) {a : Addr} (ha : F.InText a) (hSa : S a)
    (hrip : pg.tracee.rip - 1 = pg.vm a) (hhit : a ∉ pg.breakpoints.map (·.addr)) :
    ¬ pg.GoesOn E c (pg.native E) := by
  have hnone : pg.hitPoint = none := by
    cases hp : pg.hitPoint with
    | none => rfl
    | some b =>
      obtain ⟨hb, hvm⟩ := Program.hitPoint_some hp
      obtain rfl := pg.vm_injective (hvm.trans hrip)
      exact absurd (List.mem_map_of_mem hb) hhit
  intro hgo
  obtain ⟨rip, pg₁, hg, hsame⟩ := hgo
  rw [Program.letGo_resume hr hc, Program.beforeResume,
    if_neg (by simp [Program.checkIfHit, hnone])] at hg
  obtain ⟨rfl, rfl⟩ := Prod.mk.inj (Option.some.inj hg)
  have hcur := E.cpu.current_of_sameEvent hsame rfl (h.native_clear hF hS hr ha hSa hrip).code
  have hrip' : pg.tracee.rip = pg.tracee.rip - 1 := (Cpu.current_inj hcur).1
  bv_omega

/-- With the breakpoint the tracee goes on if and only if `RestoreRIPAndCode` has
written the byte of the file. -/
theorem goesOn_iff_restoredByte (h : Kept E path F S pg) (hF : Loadable E path F)
    (hS : Starts E path F S) (hr : pg.stat = .running) (hc : c = .cont ∨ c = .si) {b : BreakPoint}
    (hb : b ∈ pg.breakpoints) (hrip : pg.tracee.rip - 1 = pg.vm b.addr) :
    pg.GoesOn E c (pg.native E) ↔ pg.restoredByte = some (F.byte b.addr) := by
  have hclear := h.native_clear hF hS hr (h.points b hb).1 (h.onStart b hb) hrip
  have hbyte := h.native_byte hF hr (h.points b hb).1 hrip
  have hpeek := h.peek hF hr hb
  rw [← hrip] at hpeek
  have hg := Program.letGo_hit_eq hr hc (hrip ▸ List.mem_map_of_mem hb) hpeek
  constructor
  · intro hgo
    obtain ⟨rip, pg₁, hg', hsame⟩ := hgo
    rw [hg] at hg'
    obtain ⟨rfl, rfl⟩ := Prod.mk.inj (Option.some.inj hg')
    have hcur := E.cpu.current_of_sameEvent hsame rfl hclear.code
    have hmem := (Cpu.current_inj hcur).2
    rw [hbyte] at hmem
    rw [← hmem]
    change _ = Function.update pg.tracee.mem (pg.tracee.rip - 1) pg.restoredByte (pg.tracee.rip - 1)
    rw [Function.update_self]
  · intro hv
    refine ⟨_, _, hg, ?_⟩
    have hfol : Follows (inPlace pg.vmPoints (some (pg.tracee.rip - 1)))
        (pg.stepBack pg.restoredByte).tracee (pg.native E) := by
      refine ⟨?_, rfl, rfl, rfl⟩
      change Function.update pg.tracee.mem (pg.tracee.rip - 1) pg.restoredByte = _
      rw [hv, ← hbyte, h.mem hr]
      exact update_patched_self _ _ _
    refine hfol.sameEvent (hclear.mono fun x => mem_of_inPlace) ?_
    intro hm
    have hne := (List.mem_filter.mp hm).2
    exact absurd rfl (of_decide_eq_true hne)

theorem restoredByte_iff (h : Kept E path F S pg) (hS : Starts E path F S) (hr : pg.stat = .running)
    {b : BreakPoint} (hb : b ∈ pg.breakpoints) (hrip : pg.tracee.rip - 1 = pg.vm b.addr) :
    pg.restoredByte = some (F.byte b.addr) ↔ ∃ d ∈ pg.breakpoints,
      d.addr = vmToElf (pg.tracee.rip - 1) pg.elfentry pg.elftextoff pg.vmtext ∧
      d.origCode = F.byte b.addr := by
  rw [Program.restoredByte]
  cases hp : pg.restorePoint with
  | none =>
    have hcc : pg.tracee.mem (pg.tracee.rip - 1) = some 0xcc#8 := by
      rw [h.mem hr, Sdb.patched, hrip]
      exact if_pos (List.mem_map_of_mem hb)
    rw [hcc]
    constructor
    · intro he
      exact absurd (Option.some.inj he).symm (hS.byte _ (h.onStart b hb))
    · intro he
      obtain ⟨d, hd, haddr, _⟩ := he
      exact absurd (by simpa using haddr) (List.find?_eq_none.mp hp d hd)
  | some d =>
    have haddr : d.addr = vmToElf (pg.tracee.rip - 1) pg.elfentry pg.elftextoff pg.vmtext := by
      simpa using List.find?_some hp
    have hd : d ∈ pg.breakpoints := List.mem_of_find?_eq_some hp
    constructor
    · intro he
      exact ⟨d, hd, haddr, Option.some.inj he⟩
    · intro he
      obtain ⟨d', hd', haddr', hcode⟩ := he
      obtain rfl := List.inj_on_of_nodup_map h.nodup hd hd' (haddr.trans haddr'.symm)
      exact congrArg some hcode

end Kept

/-- `.text` of 0x4000b0 to 0x4000c0 in a file that is not position independent. -/
def fixedFile (code : List Byte) : File :=
  ⟨0x4000b0, 0x4000b0, 0xb0, 0x10, false, fun a => code.getD (a - 0x4000b0).toNat 0xf4#8⟩

def fixedEnv (code : List Byte) : Env Unit where
  cpu := tinyCpu
  access _ := true
  elf _ := some ⟨0x4000b0, [⟨"", 0, 0, 0⟩, ⟨".text", 0x4000b0, 0xb0, 0x10⟩]⟩
  spawn _ := ⟨[⟨0x400000, "r-xp", some ["a.out"]⟩],
    ⟨fun x => some (code.getD (x - 0x4000b0).toNat 0xf4#8), 0x4000b0, (), false, []⟩⟩
  disasm _ _ := [⟨0x4000b0, [], 2, "", ""⟩, ⟨0x4000b2, [], 1, "", ""⟩]

theorem fixedEnv_loadable (code : List Byte) :
    Loadable (fixedEnv code) ["a.out"] (fixedFile code) := by
  refine ⟨⟨_, _, rfl, rfl, rfl, rfl, rfl, rfl⟩, fun n vm h => ?_, fun n vm h a _ => rfl⟩
  obtain rfl : vm = 0x400000#64 := by simpa [getTextStartInMemory, fixedEnv, eq_comm] using h
  change 0x4000b0#64 - 0xb0#64 = 0x400000#64 ↔ false = false
  decide

/-- `jmp` to the next instruction, which is a `nop`, with a breakpoint at
each; the first has been hit. -/
def jump : List Byte := [0xeb#8, 0x00#8, 0x90#8]
def jumpLoaded : Program Unit :=
  ((unloadedProgram.load (fixedEnv jump) ["a.out"]).getD (0, unloadedProgram)).2
def jumpBroken : Program Unit := ((jumpLoaded.break_ 0 0x4000b0).2.break_ 1 0x4000b2).2
def jumpRun : Program Unit :=
  match jumpBroken.run (fixedEnv jump) 5 with
  | some (.done _ pg) => pg
  | _ => jumpBroken
def jumpStarts (a : Addr) : Prop := a = 0x4000b0 ∨ a = 0x4000b2

theorem jump_starts : Starts (fixedEnv jump) ["a.out"] (fixedFile jump) jumpStarts := by
  constructor
  · intro a ha
    rcases ha with rfl | rfl
    · decide
    · decide
  · intro n vm _ a ha i h0 hi b hb
    have hi : i < tinyCpu.size
        (fun j => some (jump.getD (a + BitVec.ofNat 64 j - 0x4000b0#64).toNat 0xf4#8)) := hi
    change a + BitVec.ofNat 64 i ≠ b
    rcases ha with rfl | rfl
    · obtain rfl : i = 1 := by
        rw [show tinyCpu.size _ = 2 by decide] at hi
        omega
      rcases hb with rfl | rfl
      · decide
      · decide
    · rw [show tinyCpu.size _ = 1 by decide] at hi
      omega

theorem jumpRun_reach :
    Reach (fun pg c pg' => CmdStep (fixedEnv jump) pg c pg' ∧ c.BreaksOn jumpStarts pg) jumpLoaded
    [.break_ 0 0x4000b0, .break_ 1 0x4000b2, .run] jumpRun :=
  ((Reach.init.snoc ⟨⟨5, 0, rfl⟩, .inl rfl⟩).snoc ⟨⟨5, 0, rfl⟩, .inr rfl⟩).snoc
    ⟨⟨5, 0, rfl⟩, trivial⟩

/-- Whatever the commands before: when the program, which is not position independent, is stopped at
breakpoint `b`, then after `Delete` of any number `Cont` and `Si` have the instruction at `b`
executed as the program would do it on its own, if and only if the number is not that of `b` and the
entry point leads `RestoreRIPAndCode` to a breakpoint that is left and has the byte of `b`. -/
theorem delete_goesOn {E : Env R} {path : Path} {F : File} {S : Addr → Prop}
    (hF : Loadable E path F) (hpie : F.pie = false) (hS : Starts E path F S)
    {pg₀ pg pg' : Program R} (h₀ : pg₀.stat = .unloaded) (hb₀ : pg₀.breakpoints = [])
    (hload : pg₀.load E path = some (0, pg)) {cs : List Cmd}
    (hrun : Reach (fun pg c pg' => CmdStep E pg c pg' ∧ c.BreaksOn S pg) pg cs pg') {b : BreakPoint}
    (hb : b ∈ pg'.breakpoints) (hstop : pg'.StoppedAt b.addr) (id : Int) {c : Cmd}
    (hc : c = .cont ∨ c = .si) :
    ∃ r pg₂, pg'.delete id = some (r, pg₂) ∧ (pg₂.GoesOn E c (pg'.native E) ↔
      b.id ≠ id ∧ ∃ d ∈ pg'.breakpoints, d.id ≠ id ∧ d.origCode = b.origCode ∧
        d.addr = vmToElf b.addr pg'.elfentry pg'.elftextoff pg'.vmtext) := by
  have hkept : Kept E path F S pg' :=
    hrun.invariant (Kept.load hF h₀ hb₀ hload) fun _ _ _ h hs => h.step hF hpie hs.2 hs.1
  obtain ⟨r, m, ls, hdel, hk⟩ := hkept.delete hF hpie id
  obtain ⟨hr, _, hrip⟩ := hstop
  have hrip' : pg'.tracee.rip - 1 = b.addr := by rw [hrip, BitVec.add_sub_cancel]
  have hvm : pg'.tracee.rip - 1 = pg'.vm b.addr := by
    rw [hrip', hkept.vm_eq hF (by simp [hr]), File.vmAddr, hpie]
    rfl
  refine ⟨r, _, hdel, ?_⟩
  change Program.GoesOn E (pg'.without id m ls) c ((pg'.without id m ls).native E) ↔ _
  by_cases hid : b.id = id
  · -- the only breakpoint at this address is gone
    have hgone : b.addr ∉ (pg'.without id m ls).breakpoints.map (·.addr) := by
      intro hm
      obtain ⟨d, hd, haddr⟩ := List.mem_map.mp hm
      obtain ⟨hd, hne⟩ := List.mem_filter.mp hd
      obtain rfl := List.inj_on_of_nodup_map hkept.nodup hd hb haddr
      exact of_decide_eq_true hne hid
    constructor
    · intro hgo
      exact absurd hgo (hk.not_goesOn hF hS hr hc (hkept.points b hb).1
        (hkept.onStart b hb) hvm hgone)
    · intro hcond
      exact absurd hid hcond.1
  · have hleft : b ∈ (pg'.without id m ls).breakpoints :=
      List.mem_filter.mpr ⟨hb, by simpa using hid⟩
    rw [hk.goesOn_iff_restoredByte hF hS hr hc hleft hvm, hk.restoredByte_iff hS hr hleft hvm,
      (hkept.points b hb).2]
    constructor
    · intro hcond
      obtain ⟨d, hd, haddr, hcode⟩ := hcond
      obtain ⟨hd, hne⟩ := List.mem_filter.mp hd
      exact ⟨hid, d, hd, of_decide_eq_true hne, hcode, hrip' ▸ haddr⟩
    · intro hcond
      obtain ⟨_, d, hd, hne, hcode, haddr⟩ := hcond
      exact ⟨d, List.mem_filter.mpr ⟨hd, by simpa using hne⟩, hrip' ▸ haddr, hcode⟩

/-- The breakpoint at the `nop` is deleted: the `jmp` is executed. -/
theorem delete_goesOn_other :
    jumpRun.StoppedAt 0x4000b0 ∧ ∃ r pg₂, jumpRun.delete 1 = some (r, pg₂) ∧
      pg₂.GoesOn (fixedEnv jump) .cont (jumpRun.native (fixedEnv jump)) := by
  have hstop : jumpRun.StoppedAt 0x4000b0 := ⟨rfl, rfl, rfl⟩
  have hload : unloadedProgram.load (fixedEnv jump) ["a.out"] = some (0, jumpLoaded) := rfl
  obtain ⟨r, pg₂, hdel, hgo⟩ :=
    delete_goesOn (fixedEnv_loadable jump) rfl jump_starts rfl rfl hload jumpRun_reach
      (b := ⟨0, 0x4000b0, 0xeb⟩) (.head _) hstop 1 (.inl rfl)
  exact ⟨hstop, r, pg₂, hdel, hgo.mpr ⟨by decide, _, .head _, by decide, rfl, by decide⟩⟩

/-- The breakpoint that was hit is deleted: the tracee goes on in the middle of the `jmp`. -/
theorem delete_goesOn_hit :
    Loadable (fixedEnv jump) ["a.out"] (fixedFile jump) ∧ (fixedFile jump).pie = false ∧
      Starts (fixedEnv jump) ["a.out"] (fixedFile jump) jumpStarts ∧
      unloadedProgram.load (fixedEnv jump) ["a.out"] = some (0, jumpLoaded) ∧
      Reach (fun pg c pg' => CmdStep (fixedEnv jump) pg c pg' ∧ c.BreaksOn jumpStarts pg) jumpLoaded
        [.break_ 0 0x4000b0, .break_ 1 0x4000b2, .run] jumpRun ∧
      jumpRun.StoppedAt 0x4000b0 ∧
      ∃ pg₂ pg₁, jumpRun.delete 0 = some (0, pg₂) ∧ pg₂.letGo .cont = some (none, pg₁) ∧
        (tinyCpu.step pg₁.tracee).tracee.log = [(0x4000b1, [some 0x00#8])] ∧
        (tinyCpu.step (jumpRun.native (fixedEnv jump))).tracee.log =
          [(0x4000b0, [some 0xeb#8, some 0x00#8])] ∧
        ¬ pg₂.GoesOn (fixedEnv jump) .cont (jumpRun.native (fixedEnv jump)) := by
  refine ⟨fixedEnv_loadable jump, rfl, jump_starts, rfl, jumpRun_reach, ⟨rfl, rfl, rfl⟩,
    _, _, rfl, rfl, rfl, rfl, ?_⟩
  intro hgo
  obtain ⟨rip, pg₁, hg, hsame⟩ := hgo
  obtain ⟨rfl, rfl⟩ := Prod.mk.inj (Option.some.inj hg)
  have hlog := hsame.log
  exact absurd hlog (by decide)

end NctuCourses.Sdb
