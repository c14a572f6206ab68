import NctuCourses.Sdb.Transparent

namespace NctuCourses.Sdb

open NctuCourses.Lib

variable {R : Type}

/-- Command `c` runs over no breakpoint: the instruction at one is retired as the first instruction
only, when the tracee was stopped there, and wherever else the tracee comes to a breakpoint, the
command returns with the tracee stopped there. -/
structure NotRunOver (E : Env R) (pg : Program R) (c : Cmd) (pg₁ : Program R) : Prop where
  retired : ∀ n i e,
    ((E.cpu.cont n pg₁.tracee).tracee.log.drop pg₁.tracee.log.length)[i]? = some e →
    e.1 ∈ pg.vmPoints → i = 0 ∧ pg.StoppedAt e.1
  stops : ∀ n T, E.cpu.cont n pg₁.tracee = .going T → T.rip ∈ pg.vmPoints →
    ¬ (n = 0 ∧ pg.StoppedAt T.rip) →
    ∃ pg', c.exec E (n + 1) pg = some (.done 0 pg') ∧ pg'.StoppedAt T.rip ∧ pg'.tracee.log = T.log

namespace Cpu

variable {C : Cpu R} {T : Tracee R}

/-- Every instruction retired during `PTRACE_CONT` was the one at `rip` at its time. -/
theorem cont_retired {n i : Nat} {e : Retired}
    (h : ((C.cont n T).tracee.log.drop T.log.length)[i]? = some e) :
    ∃ T₁, C.steps i T = some T₁ ∧ T₁.mem T₁.rip ≠ some 0xcc#8 ∧ e = C.current T₁ := by
  rcases cont_cases (C := C) n T with ⟨T', h1, h2⟩ | ⟨k, T₁, T', _, h1, ⟨hs, h2⟩ | ⟨hs, h2⟩⟩
  · obtain ⟨es, hlog, _, hes⟩ := steps_log h1
    rw [h2, show (Wait.going T').tracee.log = T.log ++ es from hlog, List.drop_left] at h
    exact hes i e h
  · obtain ⟨es, hlog, _, hes⟩ := steps_log h1
    rw [h2, show (Wait.stopped T').tracee.log = T.log ++ es from (log_of_trap hs).trans hlog,
      List.drop_left] at h
    exact hes i e h
  · obtain ⟨es, hlog, hk, hes⟩ := steps_log h1
    have hlog' : (Wait.exited T').tracee.log = T.log ++ (es ++ [C.current T₁]) := by
      rw [← List.append_assoc, ← hlog]
      exact log_of_exit hs
    rw [h2, hlog', List.drop_left] at h
    rcases getElem?_concat_cases h with h | ⟨rfl, rfl⟩
    · exact hes i e h
    · exact ⟨T₁, hk ▸ h1, mem_ne_of_exit hs, rfl⟩

theorem steps_of_going {n : Nat} {T' : Tracee R} (h : C.cont n T = .going T') :
    C.steps n T = some T' := by
  rcases cont_cases (C := C) n T with ⟨T₁, h1, h2⟩ | ⟨_, _, _, _, _, ⟨_, h2⟩ | ⟨_, h2⟩⟩
  · rw [h] at h2
    cases h2
    exact h1
  · rw [h] at h2
    cases h2
  · rw [h] at h2
    cases h2

end Cpu

theorem update_isSome {m : Mem} {a : Addr} (h : (peekText m a).isSome) (v : Byte) (x : Addr) :
    (Function.update m a (some v) x).isSome = (m x).isSome := by
  by_cases hx : x = a
  · have h0 := peekText_isSome.mp h 0 (by omega)
    rw [hx, Function.update_self, ← BitVec.add_zero a]
    exact h0.symm
  · rw [Function.update_of_ne hx]

theorem peekText_update {m : Mem} {x : Addr} (h : (peekText m x).isSome) (a : Addr)
    {v : Option Byte} (hv : v = m a ∨ v.isSome) : (peekText (Function.update m a v) x).isSome := by
  rw [peekText_isSome] at h ⊢
  intro i hi
  by_cases hx : x + BitVec.ofNat 64 i = a
  · rw [hx, Function.update_self]
    rcases hv with rfl | hv
    · exact hx ▸ h i hi
    · exact hv
  · rw [Function.update_of_ne hx]
    exact h i hi

namespace Program

variable {pg pg' pg₁ : Program R} {a : Addr} {c : Cmd} {rip : Option Addr}

theorem patchCode_isSome (pg : Program R) (h : (peekText pg.tracee.mem a).isSome) (v : Byte) :
    ∃ m, pg.patchCode a v = some (pg.setMem m) := by
  obtain ⟨codes, hc⟩ := Option.isSome_iff_exists.mp h
  exact ⟨_, by rw [patchCode, hc]; rfl⟩

theorem peek_of_patchCode {pg pg' : Program R} {a : Addr} {v : Byte}
    (h : pg.patchCode a v = some pg') :
    (peekText pg.tracee.mem a).isSome := by
  obtain ⟨codes, hc, _⟩ := Option.bind_eq_some_iff.mp h
  rw [hc]
  rfl

/-- The loop of `SetBreakPoints` has read every breakpoint. -/
theorem patchAll_readable {pg pg' : Program R} {bs : List BreakPoint}
    (h : bs.foldlM (fun pg b =>
      pg.patchBreakPoint (elfToVm b.addr pg.elftext pg.elftextoff pg.vmtext)) pg = some pg') :
    ∀ b ∈ bs, (peekText pg.tracee.mem (pg.vm b.addr)).isSome := by
  induction bs generalizing pg with
  | nil =>
    intro b hb
    cases hb
  | cons b bs ih =>
    rw [List.foldlM_cons] at h
    obtain ⟨pg₁, h₁, h⟩ := Option.bind_eq_some_iff.mp h
    have hpeek : (peekText pg.tracee.mem (pg.vm b.addr)).isSome := peek_of_patchCode h₁
    obtain rfl := patchCode_eq h₁
    intro d hd
    cases hd with
    | head => exact hpeek
    | tail _ hd => exact (peekText_isSome_congr (update_isSome hpeek _) _).mp (ih h d hd)

/-- `Delete` writes to the address of the file; while the program is running, there is no other
breakpoint at that address of the memory. -/
def Spares (pg : Program R) (c : Cmd) : Prop :=
  ∀ id, c = .delete id → pg.stat = .running → ∀ b ∈ pg.breakpoints, b.id = id →
    ∀ d ∈ pg.breakpoints, d ≠ b → pg.vm d.addr ≠ b.addr

/-- While the program is running, there is a `0xcc` at every breakpoint,
which can be read and written. -/
structure Armed (pg : Program R) : Prop where
  nodup : (pg.breakpoints.map (·.addr)).Nodup
  code : pg.stat = .running → ∀ x ∈ pg.vmPoints, pg.tracee.mem x = some 0xcc#8
  peek : pg.stat = .running → ∀ x ∈ pg.vmPoints, (peekText pg.tracee.mem x).isSome

/-- The tracee is let go with the breakpoints of `pg` in place, but for the one at `rip`. -/
structure Resumed (pg : Program R) (rip : Option Addr) (pg₁ : Program R) : Prop where
  code : ∀ x ∈ pg.vmPoints, rip ≠ some x → pg₁.tracee.mem x = some 0xcc#8
  peek : ∀ x ∈ pg.vmPoints, (peekText pg₁.tracee.mem x).isSome
  hit : ∀ a, rip = some a → a ∈ pg.vmPoints ∧ pg.stat = .running ∧ pg.tracee.rip = a + 1 ∧
    pg₁.tracee.rip = a

namespace Armed

theorem print (h : pg.Armed) (ls : List Line) : (pg.print ls).Armed := ⟨h.nodup, h.code, h.peek⟩

theorem of_not_running (hnd : (pg.breakpoints.map (·.addr)).Nodup) (hr : pg.stat ≠ .running) :
    pg.Armed :=
  ⟨hnd, fun h => absurd h hr, fun h => absurd h hr⟩

theorem beforeResume (h : pg.Armed) (hr : pg.stat = .running)
    (hb : pg.beforeResume = some (rip, pg₁)) :
    pg.Resumed rip pg₁ := by
  rcases beforeResume_cases hb with ⟨_, rfl, rfl⟩ | ⟨b, v, hhit, rfl, rfl, _, hv⟩
  · exact ⟨fun x hx _ => h.code hr x hx, h.peek hr, fun a ha => by cases ha⟩
  obtain ⟨hmem, hvm⟩ := hitPoint_some hhit
  refine ⟨fun x hx hne => ?_, fun x hx => peekText_update (h.peek hr x hx) _ hv, fun a ha => ?_⟩
  · change Function.update pg.tracee.mem (pg.tracee.rip - 1) v x = _
    rw [← hvm, Function.update_of_ne fun he => hne (by rw [he])]
    exact h.code hr x hx
  · obtain rfl := Option.some.inj ha
    refine ⟨List.mem_map_of_mem hmem, hr, ?_, hvm.symm⟩
    rw [hvm, BitVec.sub_add_cancel]

theorem setBreakPoints (h : pg.Armed)
    (hs : ({ pg with stat := .running }.print [.pid]).setBreakPoints = some pg') : pg'.Armed := by
  have hread := patchAll_readable hs
  obtain rfl := setBreakPoints_eq hs
  refine ⟨h.nodup, fun _ x hx => if_pos hx, fun _ x hx => ?_⟩
  obtain ⟨b, hb, rfl⟩ := List.mem_map.mp hx
  have hpeek := peekText_isSome.mp (hread b hb)
  refine peekText_isSome.mpr fun i hi => ?_
  change (if _ then _ else _ : Option Byte).isSome = true
  split_ifs
  · rfl
  · exact hpeek i hi

theorem letGo (h : pg.Armed) (hg : pg.letGo c = some (rip, pg₁)) : pg.Resumed rip pg₁ := by
  obtain ⟨_, ⟨hr, ls, hb⟩ | ⟨_, rfl, hs⟩⟩ := letGo_cases hg
  · have hres := (h.print ls).beforeResume hr hb
    exact ⟨hres.code, hres.peek, hres.hit⟩
  · have hset := h.setBreakPoints hs
    obtain rfl := setBreakPoints_eq hs
    exact ⟨fun x hx _ => hset.code rfl x hx, hset.peek rfl, fun a ha => by cases ha⟩

theorem break_ (h : pg.Armed) {id : Int} {addr : Addr} {r : Int}
    (hb : pg.break_ id addr = (r, pg')) :
    pg'.Armed := by
  rcases break_cases hb with ⟨ls, rfl⟩ | ⟨_, a, codes, _, hm⟩
  · exact h.print ls
  have hnd : ((pg.withPoint ⟨id, a, codes.headD 0#8⟩).breakpoints.map (·.addr)).Nodup := by
    rw [withPoint, List.map_append, List.nodup_append]
    refine ⟨h.nodup, by simp, fun x hx y hy he => ?_⟩
    obtain ⟨d, hd, rfl⟩ := List.mem_map.mp hx
    obtain rfl : y = a := by simpa using hy
    exact (hm.new d hd).2 he
  have hresult := hm.result
  split_ifs at hresult with hr
  · subst hresult
    have hpts : ∀ x ∈ ((pg.withPoint ⟨id, a, codes.headD 0#8⟩).setMem
        (Function.update pg.tracee.mem (pg.vm a) (some 0xcc#8))).vmPoints, x ∈ pg.vmPoints ∨
        x = pg.vm a := by
      intro x hx
      obtain ⟨b, hb, rfl⟩ := List.mem_map.mp hx
      rcases List.mem_append.mp hb with hb | hb
      · exact .inl (List.mem_map_of_mem hb)
      · rw [List.mem_singleton.mp hb]
        exact .inr rfl
    refine ⟨hnd, fun _ x hx => ?_, fun _ x hx => peekText_update ?_ _ (.inr rfl)⟩
    · change Function.update pg.tracee.mem (pg.vm a) (some 0xcc#8) x = _
      by_cases he : x = pg.vm a
      · rw [he, Function.update_self]
      · rw [Function.update_of_ne he]
        exact h.code hr x ((hpts x hx).resolve_right he)
    · rcases hpts x hx with hx | rfl
      · exact h.peek hr x hx
      · exact Option.isSome_iff_exists.mpr ⟨codes, hm.peek⟩
  · subst hresult
    exact of_not_running hnd hr

theorem delete (h : pg.Armed) {id : Int} (hsp : pg.Spares (.delete id)) {r : Int}
    (hd : pg.delete id = some (r, pg')) : pg'.Armed := by
  rcases delete_cases hd with ⟨ls, rfl⟩ | ⟨b, l₁, l₂, hid, hbs, rfl⟩
  · exact h.print ls
  have hnd := nodup_addr_middle (hbs ▸ h.nodup)
  have hkept : ∀ d ∈ l₁ ++ l₂, d ∈ pg.breakpoints ∧ d ≠ b := by
    intro d hd
    refine ⟨?_, fun he => (List.nodup_cons.mp hnd).1 (he ▸ List.mem_map_of_mem hd)⟩
    rw [hbs]
    simp only [List.mem_append, List.mem_cons] at hd ⊢
    tauto
  by_cases hr : pg.stat = .running
  · rw [if_pos hr]
    refine ⟨(List.nodup_cons.mp hnd).2, fun _ x hx => ?_, fun _ x hx =>
      peekText_update ?_ _ (.inr rfl)⟩
    · obtain ⟨d, hd, rfl⟩ := List.mem_map.mp hx
      obtain ⟨hd, hne⟩ := hkept d hd
      have hspare : pg.vm d.addr ≠ b.addr := hsp id rfl hr b (by simp [hbs]) hid d hd hne
      change Function.update pg.tracee.mem b.addr (some b.origCode) (pg.vm d.addr) = _
      rw [Function.update_of_ne hspare]
      exact h.code hr _ (List.mem_map_of_mem hd)
    · obtain ⟨d, hd, rfl⟩ := List.mem_map.mp hx
      exact h.peek hr _ (List.mem_map_of_mem (hkept d hd).1)
  · rw [if_neg hr]
    exact of_not_running (List.nodup_cons.mp hnd).2 hr

end Armed

namespace Resumed

theorem putBack (h : pg.Resumed rip pg₁) {T : Tracee R} (hT : T.mem = pg₁.tracee.mem) :
    ∃ m, Program.putBack rip { pg₁ with tracee := T } =
        some (Program.setMem { pg₁ with tracee := T } m) ∧
      ∀ x ∈ pg.vmPoints, m x = some 0xcc#8 ∧ (peekText m x).isSome := by
  cases rip with
  | none =>
    refine ⟨T.mem, rfl, fun x hx => ?_⟩
    rw [hT]
    exact ⟨h.code x hx (by simp), h.peek x hx⟩
  | some a =>
    have hpeek : (peekText T.mem a).isSome := by
      rw [hT]
      exact h.peek a (h.hit a rfl).1
    obtain ⟨m, hm⟩ := patchCode_isSome { pg₁ with tracee := T } hpeek 0xcc#8
    have hmem : m = Function.update T.mem a (some 0xcc#8) :=
      congrArg (fun pg : Program R => pg.tracee.mem) (patchCode_eq hm)
    refine ⟨m, hm, fun x hx => ?_⟩
    rw [hmem]
    refine ⟨?_, peekText_update (hT ▸ h.peek x hx) _ (.inr rfl)⟩
    by_cases he : x = a
    · rw [he, Function.update_self]
    · rw [Function.update_of_ne he, hT]
      exact h.code x hx fun hs => he (Option.some.inj hs).symm

theorem exec_trap {E : Env R} (h : pg.Resumed rip pg₁) (hg : pg.letGo c = some (rip, pg₁)) {n : Nat}
    {T : Tracee R}
    (hw : c.waits E n pg₁.tracee = .stopped { T with rip := T.rip + 1, trapped := true })
    (hT : T.mem = pg₁.tracee.mem) :
    ∃ pg', c.exec E n pg = some (.done 0 pg') ∧ pg'.StoppedAt T.rip ∧ pg'.tracee.log = T.log := by
  obtain ⟨m, hm, _⟩ := h.putBack
    (show ({ T with rip := T.rip + 1, trapped := true } : Tracee R).mem = _ from hT)
  obtain ⟨ls, hls⟩ := printHit_eq (setMem
    { pg₁ with tracee := { T with rip := T.rip + 1, trapped := true } } m)
  have hstat : pg₁.stat = .running := by rw [letGo_eq hg]
  rw [Cmd.exec_letGo hg, hw, afterWait, hm]
  refine ⟨_, rfl, ?_⟩
  rw [hls]
  exact ⟨⟨hstat, rfl, rfl⟩, rfl⟩

end Resumed

theorem Armed.waited {E : Env R} (h : pg.Armed) (hg : pg.letGo c = some (rip, pg₁)) {w : Wait R}
    (hw : w.tracee.mem = pg₁.tracee.mem) {r : Int}
    (ha : pg₁.afterWait E rip w = some (.done r pg')) :
    pg'.Armed := by
  have hpg₁ := letGo_eq hg
  cases w with
  | going T => cases ha
  | exited T =>
    obtain ⟨pg₂, hc, he⟩ := Option.map_eq_some_iff.mp ha
    obtain ⟨_, rfl⟩ : 0 = r ∧ pg₂ = pg' := by simpa using he
    obtain ⟨hst, hbs⟩ := childExit_eq hc
    refine of_not_running ?_ hst
    rw [hbs, hpg₁]
    exact h.nodup
  | stopped T =>
    obtain ⟨m, hm, hpts⟩ := (h.letGo hg).putBack (show T.mem = pg₁.tracee.mem from hw)
    obtain ⟨ls, hls⟩ := printHit_eq (setMem { pg₁ with tracee := T } m)
    rw [afterWait, hm, Option.map_some, hls] at ha
    obtain ⟨_, rfl⟩ : 0 = r ∧ (setMem { pg₁ with tracee := T } m).print ls = pg' := by
      simpa using ha
    rw [hpg₁]
    exact ⟨h.nodup, fun _ x hx => (hpts x hx).1, fun _ x hx => (hpts x hx).2⟩

theorem Armed.step {E : Env R} (h : pg.Armed) (hsp : pg.Spares c) (hs : CmdStep E pg c pg') :
    pg'.Armed := by
  obtain ⟨n, r, he⟩ := hs
  have hresume : c = .run ∨ c = .cont ∨ c = .si → pg'.Armed := by
    intro hc
    cases hg : pg.letGo c with
    | none =>
      obtain ⟨ls, rfl⟩ := Cmd.exec_stay hc hg he
      exact h.print ls
    | some p =>
      rw [Cmd.exec_letGo hg] at he
      refine h.waited hg ?_ he
      rcases hc with rfl | rfl | rfl
      · exact E.cpu.cont_mem n _
      · exact E.cpu.cont_mem n _
      · exact E.cpu.singleStep_mem _
  cases c with
  | break_ id addr =>
    obtain ⟨_, rfl⟩ : (pg.break_ id addr).1 = r ∧ (pg.break_ id addr).2 = pg' := by
      simpa [Cmd.exec] using he
    exact h.break_ rfl
  | delete id =>
    obtain ⟨⟨r', pg₂⟩, hd, hr⟩ := Option.map_eq_some_iff.mp he
    obtain ⟨_, rfl⟩ : r' = r ∧ pg₂ = pg' := by simpa using hr
    exact h.delete hsp hd
  | start =>
    obtain ⟨⟨r', pg₂⟩, hd, hr⟩ := Option.map_eq_some_iff.mp he
    obtain ⟨_, rfl⟩ : r' = r ∧ pg₂ = pg' := by simpa using hr
    rcases start_cases hd with ⟨ls, rfl⟩ | ⟨_, hp⟩
    · exact h.print ls
    · exact h.setBreakPoints hp
  | run => exact hresume (.inl rfl)
  | cont => exact hresume (.inr (.inl rfl))
  | si => exact hresume (.inr (.inr rfl))

/-- Where the breakpoint has been taken out that `Run` or `Cont` lets the tracee start from, the
last stop was a trap there, and the tracee does not come to it again. -/
def LeavesBehind (E : Env R) (pg : Program R) (rip : Option Addr) (pg₁ : Program R) : Prop :=
  ∀ a, rip = some a → pg₁.tracee.mem a ≠ some 0xcc#8 →
    pg.tracee.trapped = true ∧ ∀ k T, 0 < k → E.cpu.steps k pg₁.tracee = some T → T.rip ≠ a

namespace Resumed

variable {E : Env R}

/-- Wherever the tracee comes to a breakpoint, it is in place, or the tracee starts from it. -/
theorem reach_point (h : pg.Resumed rip pg₁) (hleave : pg.LeavesBehind E rip pg₁) {i : Nat}
    {T : Tracee R} (hs : E.cpu.steps i pg₁.tracee = some T) (hT : T.rip ∈ pg.vmPoints) :
    T.mem T.rip = some 0xcc#8 ∨ (i = 0 ∧ pg.StoppedAt T.rip) := by
  rw [Cpu.steps_mem hs]
  by_cases hcc : pg₁.tracee.mem T.rip = some 0xcc#8
  · exact .inl hcc
  have hrip : rip = some T.rip := by
    by_contra hne
    exact hcc (h.code _ hT hne)
  obtain ⟨htrap, hback⟩ := hleave _ hrip hcc
  obtain ⟨_, hr, hone, _⟩ := h.hit _ hrip
  refine .inr ⟨?_, hr, htrap, hone⟩
  by_contra hi
  exact hback i T (Nat.pos_of_ne_zero hi) hs rfl

theorem notRunOver (h : pg.Resumed rip pg₁) (hg : pg.letGo c = some (rip, pg₁))
    (hwaits : ∀ n, c.waits E n pg₁.tracee = E.cpu.cont n pg₁.tracee)
    (hleave : pg.LeavesBehind E rip pg₁) : NotRunOver E pg c pg₁ := by
  constructor
  · intro n i e he hmem
    obtain ⟨T, hs, hbyte, rfl⟩ := Cpu.cont_retired he
    exact (h.reach_point hleave hs hmem).resolve_left hbyte
  · intro n T hgo hmem hnot
    have hs : E.cpu.steps n pg₁.tracee = some T := Cpu.steps_of_going hgo
    have hT := (h.reach_point hleave hs hmem).resolve_right hnot
    refine h.exec_trap hg ?_ (Cpu.steps_mem hs)
    rw [hwaits, Cpu.cont_of_steps hs, Cpu.cont, Cpu.step, if_pos hT]

theorem leavesBehind (h : pg.Resumed rip pg₁) (hg : pg.letGo c = some (rip, pg₁))
    (hwaits : ∀ n, c.waits E n pg₁.tracee = E.cpu.cont n pg₁.tracee)
    (hno : NotRunOver E pg c pg₁) : pg.LeavesBehind E rip pg₁ := by
  intro a ha hbyte
  obtain ⟨hpt, _, _, hstart⟩ := h.hit a ha
  constructor
  · -- The instruction at the breakpoint is the first one to be retired.
    have hlog : (E.cpu.cont 1 pg₁.tracee).tracee.log = pg₁.tracee.log ++
        [E.cpu.current pg₁.tracee] := by
      rw [← Cpu.step_log (hstart ▸ hbyte), Cpu.cont]
      cases E.cpu.step pg₁.tracee <;> rfl
    have hfirst := hno.retired 1 0 (E.cpu.current pg₁.tracee) (by rw [hlog, List.drop_left]; rfl)
      (show pg₁.tracee.rip ∈ pg.vmPoints from hstart ▸ hpt)
    exact hfirst.2.2.1
  · intro k T hk hs hrip
    have hgo : E.cpu.cont k pg₁.tracee = .going T := by
      rw [← Nat.add_zero k, Cpu.cont_of_steps hs]
      rfl
    obtain ⟨pg', he, hstop, _⟩ := hno.stops k T hgo (hrip ▸ hpt) (by omega)
    -- There is no `0xcc` at the breakpoint, so the tracee goes on or exits.
    have hT : T.mem T.rip ≠ some 0xcc#8 := by
      rw [Cpu.steps_mem hs, hrip]
      exact hbyte
    rw [Cmd.exec_letGo hg, hwaits, Cpu.cont_of_steps hs, Cpu.cont] at he
    cases hst : E.cpu.step T with
    | step T₁ =>
      rw [hst] at he
      cases he
    | trap T₁ => exact Cpu.step_ne_trap hT hst
    | exit T₁ =>
      rw [hst] at he
      obtain ⟨pg₂, hexit, hd⟩ := Option.map_eq_some_iff.mp he
      obtain rfl : pg₂ = pg' := by simpa using hd
      exact (childExit_eq hexit).1 hstop.1

end Resumed

end Program

/-- `jmp` to itself, with a breakpoint there. -/
def spin : List Byte := [0xeb#8, 0xfe#8]
def spinBroken : Program Unit := tinyAfter spin (.break_ 0 0x20000) (tinyLoaded spin)
def spinRun : Program Unit := tinyAfter spin .run spinBroken

theorem spinBroken_step : CmdStep (tinyEnv spin) (tinyLoaded spin) (.break_ 0 0x20000) spinBroken :=
  ⟨5, 0, rfl⟩

theorem spinRun_step : CmdStep (tinyEnv spin) spinBroken .run spinRun := ⟨5, 0, rfl⟩

/-- Whatever the commands before: `Run` and `Cont` run over no breakpoint if and only if,
where they take one out, the last stop was a trap there and the tracee does not come back to
it before it stops or exits. -/
theorem notRunOver_iff {E : Env R} {path : Path} {pg₀ pg pg' pg₁ : Program R}
    (h₀ : pg₀.stat = .unloaded) (hb : pg₀.breakpoints = []) (hload : pg₀.load E path = some (0, pg))
    {cs : List Cmd} (hrun : Reach (fun pg c pg' => CmdStep E pg c pg' ∧ pg.Spares c) pg cs pg')
    {c : Cmd} (hc : c = .run ∨ c = .cont) {rip : Option Addr} (hg : pg'.letGo c = some (rip, pg₁)) :
    NotRunOver E pg' c pg₁ ↔ pg'.LeavesBehind E rip pg₁ := by
  have hinit : pg.Armed := by
    obtain ⟨hst, hbs⟩ := Program.load_eq h₀ hload
    exact .of_not_running (by simp [hbs, hb]) hst
  have harmed : pg'.Armed := hrun.invariant hinit fun _ _ _ h hs => h.step hs.2 hs.1
  have hwaits : ∀ n, c.waits E n pg₁.tracee = E.cpu.cont n pg₁.tracee := by
    intro n
    rcases hc with rfl | rfl
    · rfl
    · rfl
  exact ⟨(harmed.letGo hg).leavesBehind hg hwaits, (harmed.letGo hg).notRunOver hg hwaits⟩

/-- Straight-line code: `cont` at the breakpoint of `nopsRun`. -/
theorem notRunOver_iff_nops :
    ∃ rip pg₁, nopsRun.letGo .cont = some (rip, pg₁) ∧ nopsRun.hitPoint ≠ none ∧
      NotRunOver (tinyEnv nops) nopsRun .cont pg₁ := by
  have hrun : Reach (fun pg c pg' => CmdStep (tinyEnv nops) pg c pg' ∧ pg.Spares c)
      (tinyLoaded nops)
      [.break_ 0 0x20000, .run] nopsRun :=
    (Reach.init.snoc ⟨nopsBroken_step, fun _ h => by cases h⟩).snoc
      ⟨nopsRun_step, fun _ h => by cases h⟩
  have hload : unloadedProgram.load (tinyEnv nops) ["a.out"] = some (0, tinyLoaded nops) := rfl
  refine ⟨_, _, rfl, by decide, (notRunOver_iff rfl rfl hload hrun (.inr rfl) rfl).mpr
    fun a ha _ => ⟨rfl, fun k N hk hN hrip => ?_⟩⟩
  obtain rfl := Option.some.inj ha
  -- The tracee executes the two instructions and exits.
  obtain rfl | rfl | ⟨j, rfl⟩ : k = 1 ∨ k = 2 ∨ ∃ j, k = 3 + j := by
    rcases Nat.lt_or_ge k 3 with h | h
    · omega
    · exact .inr (.inr ⟨k - 3, by omega⟩)
  · obtain rfl := Option.some.inj hN
    exact absurd hrip (by decide)
  · obtain rfl := Option.some.inj hN
    exact absurd hrip (by decide)
  · rw [Cpu.steps_add] at hN
    cases hN

/-- The `0xcc` of the breakpoint that was hit is out until the next stop: the loop goes round and
round over the breakpoint, and `cont` does not return. -/
theorem runOver_spin :
    Loadable (tinyEnv spin) ["a.out"] (tinyFile spin) ∧
      Plain (tinyEnv spin) ["a.out"] (tinyFile spin) (· = 0x20000) ∧
      unloadedProgram.load (tinyEnv spin) ["a.out"] = some (0, tinyLoaded spin) ∧
      Reach (fun pg c pg' => CmdStep (tinyEnv spin) pg c pg' ∧ c.OnStart (· = 0x20000) pg)
        (tinyLoaded spin) [.break_ 0 0x20000, .run] spinRun ∧
      spinRun.StoppedAt 0x55570000 ∧
      ∃ rip pg₁, spinRun.letGo .cont = some (rip, pg₁) ∧
        (tinyCpu.cont 2 pg₁.tracee).tracee.log.map Prod.fst = [0x55570000, 0x55570000] ∧
        ¬ NotRunOver (tinyEnv spin) spinRun .cont pg₁ := by
  have hrun : Reach (fun pg c pg' => CmdStep (tinyEnv spin) pg c pg' ∧ c.OnStart (· = 0x20000) pg)
      (tinyLoaded spin) [.break_ 0 0x20000, .run] spinRun :=
    (Reach.init.snoc ⟨spinBroken_step, rfl⟩).snoc ⟨spinRun_step, trivial⟩
  refine ⟨tinyEnv_loadable spin, tinyEnv_plain (by decide) (by decide), rfl, hrun, ⟨rfl, rfl, rfl⟩,
    _, _, rfl, rfl, fun h => ?_⟩
  have hsecond := h.retired 2 1 _ rfl (by decide)
  exact absurd hsecond.1 (by decide)

end NctuCourses.Sdb
