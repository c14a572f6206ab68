import NctuCourses.Osdi.Task.Schedule

namespace NctuCourses.Osdi

open Lib

/-- The kernel state stands for `A`, and the live tasks have the tick counters `T`. -/
structure Clocked (K : Kernel) (A : Control) (T : Nat → Word) : Prop extends Shows K A where
  ticks : ∀ t, A.state t ≠ .free → (K.tasks t).remindTicks = T t

/-- The states after one timer interrupt on CPU `c`. -/
def Control.ticked (A : Control) (T : Nat → Word) (c : Nat) : Control :=
  { A with state := fun u =>
      if u ∈ A.queue c ∧ A.state u = .sleep ∧ T u - 1 = 0 then .runnable else A.state u }

/-- The counters after one timer interrupt on CPU `c`, which runs task `t`. -/
def Control.tickedClock (A : Control) (T : Nat → Word) (c t : Nat) : Nat → Word := fun u =>
  if u ∈ A.queue c ∧ A.state u = .sleep ∨ u = t then T u - 1 else T u

theorem Shows.queued_iff {K : Kernel} {A : Control} (h : Shows K A) (c t : Nat) :
    K.Queued c t ↔ t ∈ A.queue c := by
  rw [Kernel.Queued, Kernel.cnt, h.cnt, List.mem_iff_getElem?]
  constructor
  · rintro ⟨j, hj, he⟩
    exact ⟨j, by rw [← h.rq c j hj]; exact he⟩
  · rintro ⟨j, he⟩
    have hj := (List.getElem?_eq_some_iff.mp he).1
    exact ⟨j, hj, (h.rq c j hj).trans he⟩

namespace Clocked

variable {K : Kernel} {A : Control} {T : Nat → Word} {L : Image} {ncpu : Nat}

theorem init {K' : Kernel} (h : Clocked K A T) {c pid : Nat} (hn : K.mem.npages ≤ 65536)
    (hfree : A.state pid = .free) (he : taskInitPercpu L c K = some K')
    (hA : Shows K' (A.inited c pid)) :
    Clocked K' (A.inited c pid) (Function.update T pid timeQuant) := by
  have hsp := taskInitPercpu_spawned hn he
  refine ⟨hA, fun u hu => ?_⟩
  by_cases hup : u = pid
  · subst hup
    rw [Function.update_self]
    obtain hf | ⟨_, ht, _⟩ := hsp.new u ((h.state u).trans hfree)
    · exact absurd ((hA.state u).symm.trans hf) hu
    · exact ht
  · have hu' : A.state u ≠ .free := by simpa [Control.inited, Control.setState, hup] using hu
    rw [Function.update_of_ne hup, hsp.old u (by rw [h.state]; exact hu')]
    exact h.ticks u hu'

theorem fork {K' : Kernel} (h : Clocked K A T) {c t pid : Nat} {tf : Trapframe}
    (hn : K.mem.npages ≤ 65536) (hcur : A.cur c = some t) (hfree : A.state pid = .free)
    (he : K.trap L c tf .fork = some K') (hA : Shows K' (A.forked pid)) :
    Clocked K' (A.forked pid) (Function.update T pid timeQuant) := by
  have hcur' : (K.cpus c).cpuTask = some t := (h.cur c).trans hcur
  simp only [Kernel.trap, saveFrame_eq hcur', Option.bind_eq_bind, Option.bind_some] at he
  obtain ⟨⟨r, K₂⟩, hf, he⟩ := Option.bind_eq_some_iff.mp he
  cases he
  have htf : ∀ (K : Kernel) (tf : Trapframe) (u : Nat), ((K.setTf t tf).tasks u).state =
      (K.tasks u).state ∧ ((K.setTf t tf).tasks u).remindTicks = (K.tasks u).remindTicks := by
    intro K tf u
    by_cases hu : u = t
    · simp [Kernel.setTf, hu]
    · simp [Kernel.setTf, hu]
  have hsp := sysFork_spawned (c := c) (t := t) (K := K.setTf t tf) hn hcur' hf
  refine ⟨hA, fun u hu => ?_⟩
  rw [(htf K₂ _ u).2]
  by_cases hup : u = pid
  · subst hup
    rw [Function.update_self]
    obtain hfr | ⟨_, ht, _⟩ := hsp.new u (by rw [(htf K tf u).1, h.state]; exact hfree)
    · exact absurd (((hA.state u).symm.trans (htf K₂ _ u).1).trans hfr) hu
    · exact ht
  · have hu' : A.state u ≠ .free := by simpa [Control.forked, Control.setState, hup] using hu
    rw [Function.update_of_ne hup, hsp.old u (by rw [(htf K tf u).1, h.state]; exact hu'),
      (htf K tf u).2]
    exact h.ticks u hu'

/-- A sleep after which task `u` is selected. -/
theorem sleep (h : Clocked K A T) (hs : Scheduled ncpu K) (tf : Trapframe) (a1 : Word) {c t u : Nat}
    (hc : c < ncpu) (hcur : A.cur c = some t) (hl : A.state t ≠ .free)
    (hpick : (A.setState t .sleep).pick (A.queue c) = some u) :
    ∃ K₁ K', yieldPoint c tf (.sleep a1) K = some K₁ ∧
      findRunnable K₁.tasks (K₁.cpus c).cpuRq.rq (K₁.cpus c).cpuRq.cnt.toNat = some (some u) ∧
      RunStep L K (c, tf, .sleep a1) K' ∧
      Clocked K' ((A.setState t .sleep).dispatch c u)
        (Function.update (Function.update T t a1) u timeQuant) := by
  have hc' : c < K.ncpu := hs.ncpu_eq ▸ hc
  obtain ⟨K₁, hy, hA₁⟩ := h.sleeping tf a1 hcur hl
  have hinv := hs.yieldPoint hc' hc hy
  have hn₁ : c < K₁.ncpu := by rw [(hs.yieldPoint_same hc' hc hy).1.ncpu]; exact hc'
  have hlen : (A.queue c).length ≤ nrTasks := by
    rw [← h.cnt c]
    exact hs.queues.cnt_le hc'
  have hf := (hA₁.findRunnable_eq (c := c) hlen).trans (congrArg some hpick)
  obtain ⟨hyield, _⟩ := hinv.schedYield hn₁ hf
  have hu : (A.setState t .sleep).state u = .runnable := by
    have := List.find?_some hpick
    simpa using this
  refine ⟨K₁, _, hy, hf, ⟨⟨hc', (trap_of_yieldPoint hy).trans hyield⟩, by simp⟩,
    hA₁.dispatch c (by rw [hu]; decide), fun v hv => ?_⟩
  have hK₁ : ∀ v, A.state v ≠ .free → (K₁.tasks v).remindTicks = Function.update T t a1 v := by
    intro v hv
    rw [SchedInv.yieldPoint_sleep ((h.cur c).trans hcur)] at hy
    cases hy
    by_cases hvt : v = t
    · simp [hvt]
    · simp [Kernel.setTf, hvt, h.ticks v hv]
  by_cases hvu : v = u
  · simp [Kernel.dispatch, hvu]
  · have hvf : A.state v ≠ .free := by
      by_cases hvt : v = t
      · rw [hvt]
        exact hl
      · simpa [Control.dispatch, Control.setState, hvu, hvt] using hv
    rw [Function.update_of_ne hvu, ← hK₁ v hvf]
    simp [Kernel.dispatch, hvu]

/-- The two ways in which a timer interrupt leaves a task that is not the current one. -/
theorem tick (h : Clocked K A T) (u : Nat) :
    (K.tasks u).tick.state = (if A.state u = .sleep ∧ T u - 1 = 0 then .runnable else A.state u) ∧
      (A.state u ≠ .free → (K.tasks u).tick.remindTicks = if A.state u = .sleep
        then T u - 1 else T u) := by
  by_cases hsl : A.state u = .sleep
  · have hsl' := (h.state u).trans hsl
    have ht := h.ticks u (by rw [hsl]; decide)
    by_cases h0 : T u - 1 = 0
    · rw [tick_last hsl' (by rw [ht]; exact h0), if_pos ⟨hsl, h0⟩, if_pos hsl, ht]
      exact ⟨rfl, fun _ => rfl⟩
    · rw [tick_sleep hsl' (by rw [ht]; exact h0), if_neg fun hh => h0 hh.2, if_pos hsl, ht]
      exact ⟨h.state u, fun _ => rfl⟩
  · rw [tick_awake (by rw [h.state]; exact hsl), if_neg fun hh => hsl hh.1, if_neg hsl]
    exact ⟨h.state u, h.ticks u⟩

theorem timer (h : Clocked K A T) (hs : Scheduled ncpu K) (tf : Trapframe) {c t : Nat}
    (hc : c < ncpu) (hcur : A.cur c = some t) (hz : T t - 1 ≠ 0#32) :
    ∃ K', RunStep L K (c, tf, .timer) K' ∧ yieldPoint c tf .timer K = none ∧
      Clocked K' (A.ticked T c) (A.tickedClock T c t) := by
  have hc' : c < K.ncpu := hs.ncpu_eq ▸ hc
  have hcur' := (h.cur c).trans hcur
  obtain ⟨_, hl, hrun⟩ := hs.cur_running hc' hc hcur'
  have hlt : A.state t ≠ .free := h.state t ▸ hl.2
  have hts := (hs.timer_woken hc' hc hcur' tf).2
  have hz' : (K.tasks t).remindTicks - 1 ≠ 0#32 := by
    rw [h.ticks t hlt]
    exact hz
  refine ⟨_, ⟨⟨hc', hs.trap_timer hc' hc hcur' hz'⟩, by simp⟩, ?_, ?_⟩
  · rw [hs.yieldPoint_timer hc' hc hcur', if_neg hz']
  have hself : ∀ ts : Task, (((K.setTf t tf).woken c).setTask t ts).tasks t = ts :=
    fun ts => by simp
  have hother : ∀ (ts : Task) (u : Nat), u ≠ t → (((K.setTf t tf).woken c).setTask t ts).tasks u =
      if u ∈ A.queue c then (K.tasks u).tick else K.tasks u := by
    intro ts u hu
    have hK : (K.setTf t tf).tasks u = K.tasks u := by simp [Kernel.setTf, hu]
    have hq : (K.setTf t tf).Queued c u ↔ u ∈ A.queue c := h.queued_iff c u
    simp only [setTask_tasks, Function.update_of_ne hu, Kernel.woken, hK, hq]
  have hst : A.state t = .running := (h.state t).symm.trans hrun
  refine ⟨⟨h.ncpu, h.next, fun u => ?_, fun u hu => ?_, h.cnt, h.rq, h.cur⟩, fun u hu => ?_⟩
  · by_cases hut : u = t
    · subst hut
      rw [hself]
      simp [Control.ticked, hst, hrun]
    · rw [hother _ u hut, Control.ticked]
      dsimp only
      by_cases hq : u ∈ A.queue c
      · rw [if_pos hq, (h.tick u).1]
        simp only [hq, true_and]
      · rw [if_neg hq, if_neg fun hh => hq hh.1]
        exact h.state u
  · have hu' : A.state u ≠ .free := by
      intro hf
      simp [Control.ticked, hf] at hu
    by_cases hut : u = t
    · subst hut
      rw [hself]
      exact h.id u hlt
    · rw [hother _ u hut]
      split_ifs
      · rw [tick_taskId, h.id u hu']
      · exact h.id u hu'
  · have hu' : A.state u ≠ .free := by
      intro hf
      simp [Control.ticked, hf] at hu
    have ht := h.ticks u hu'
    by_cases hut : u = t
    · subst hut
      rw [hself]
      simp [Control.tickedClock, ht]
    · rw [hother _ u hut, Control.tickedClock]
      simp only [hut, or_false]
      by_cases hq : u ∈ A.queue c
      · rw [if_pos hq, (h.tick u).2 hu']
        simp only [hq, true_and]
      · rw [if_neg hq, if_neg fun hh => hq hh.1, ht]

end Clocked

/-- One CPU with its first task. -/
def firstControl : Control := (Control.init 1).inited 0 0

def firstClock : Nat → Word := Function.update (fun _ => 0#32) 0 timeQuant

theorem small_clocked :
    ∃ s₀ K₀ fl, pageInit smallBoot (bootMem smallBoot fun _ _ => 0#32) = some s₀ ∧
      Started smallImage s₀ 1 K₀ ∧ Clocked K₀ firstControl firstClock ∧ Scheduled 1 K₀ ∧
      4900 ≤ fl.length ∧ Sound smallImage (fun p => madeFree smallBoot p = false) ∅ K₀ fl := by
  obtain ⟨s₀, fl, hs₀, hlen, h0⟩ := sound_small 1
  have hnp := small_npages hs₀
  obtain ⟨K₁, fl₁, e₁, hA₁, h1, l₁⟩ :=
    (Shows.init s₀ 1).initPercpu h0 0 0 (by decide) smallImage_sections (by omega)
  have hst : Started smallImage s₀ 1 K₁ := by
    refine ⟨[0], .refl _, ?_⟩
    simp only [List.foldlM_cons, e₁, List.foldlM_nil, Option.bind_eq_bind, Option.bind_some]
    rfl
  have hcl : Clocked (taskInit s₀ 1) (Control.init 1) (fun _ => 0#32) :=
    ⟨Shows.init s₀ 1, fun t ht => absurd rfl ht⟩
  exact ⟨s₀, K₁, fl₁, hs₀, hst, hcl.init hnp (by decide) e₁ hA₁, hst.scheduled le_rfl hnp,
    by omega, h1⟩

theorem Clocked.runFork {K : Kernel} {A : Control} {T : Nat → Word} {rsv : Nat → Prop} {I : Set Nat}
    {fl : List Nat} {ncpu : Nat} (hA : Clocked K A T) (hs : Scheduled ncpu K)
    (h : Sound smallImage rsv I K fl) (c t pid : Nat) (hc : c < ncpu)
    (hcur : A.cur c = some t) (ht : t < nrTasks ∧ A.state t ≠ .free)
    (hfind : (List.range nrTasks).find? (fun t => A.state t == .free) = some pid)
    (hlen : 1035 ≤ fl.length) (hnext : A.next < maxCpu) (hq : (A.queue A.next).length < nrTasks)
    (hncpu : A.ncpu ≠ 0) :
    ∃ K' fl', RunStep smallImage K (c, newTrapframe, .fork) K' ∧
      Clocked K' (A.forked pid) (Function.update T pid timeQuant) ∧ Scheduled ncpu K' ∧
      Sound smallImage rsv I K' fl' ∧ fl.length ≤ fl'.length + 1035 := by
  obtain ⟨K', fl', he, hA', h', hl⟩ := hA.trapFork h newTrapframe c t pid hcur ht hfind
    smallImage_sections hlen hnext hq hncpu
  have hstep : RunStep smallImage K (c, newTrapframe, .fork) K' :=
    ⟨⟨hs.ncpu_eq ▸ hc, he⟩, by simp⟩
  have hfree : A.state pid = .free := by
    have := List.find?_some hfind
    simpa using this
  exact ⟨K', fl', hstep, hA.fork hs.npages hcur hfree he hA', hs.step hstep, h', hl⟩

end NctuCourses.Osdi
