import NctuCourses.Osdi.Task.Clock

namespace NctuCourses.Osdi

open Lib

/-- Under `e` the CPU `c` calls `sched_yield`, which selects task `t`. -/
def Selects (c t : Nat) (e : Nat × Trapframe × Call) (K : Kernel) : Prop :=
  e.1 = c ∧ ∃ K₁, yieldPoint c e.2.1 e.2.2 K = some K₁ ∧
    findRunnable K₁.tasks (K₁.cpus c).cpuRq.rq (K₁.cpus c).cpuRq.cnt.toNat = some (some t)

/-- Task `t` is the idle task of an application processor. -/
def IdleOf (L : Image) (K : Kernel) (c t : Nat) : Prop := c ≠ L.bootcpu ∧ K.rqAt c 0 = some t

/-- When `sched_yield` is called, at most one task of the queue is runnable, apart from the idle
task of an application processor. -/
def OneReady (L : Image) (e : Nat × Trapframe × Call) (K : Kernel) : Prop :=
  ∀ K₁, yieldPoint e.1 e.2.1 e.2.2 K = some K₁ → ∀ u v,
    K₁.Queued e.1 u → (K₁.tasks u).state = .runnable → ¬ IdleOf L K₁ e.1 u →
    K₁.Queued e.1 v → (K₁.tasks v).state = .runnable → ¬ IdleOf L K₁ e.1 v → u = v

/-- From the state after step `i` to the state before step `j`, task `u`
is runnable and not selected. -/
def Waits (c u i j : Nat) (e : Nat → Nat × Trapframe × Call) (K : Nat → Kernel) : Prop :=
  ∀ m, i < m → m ≤ j → ((K m).tasks u).state = .runnable ∧ (m < j → ¬ Selects c u (e m) (K m))

/-- A runnable task is still runnable when `sched_yield` is called. -/
theorem Scheduled.still_runnable {ncpu c u : Nat} {tf : Trapframe} {call : Call} {K K₁ : Kernel}
    (h : Scheduled ncpu K) (hc : c < ncpu) (hy : yieldPoint c tf call K = some K₁)
    (hu : (K.tasks u).state = .runnable) : (K₁.tasks u).state = .runnable := by
  have hc' : c < K.ncpu := h.ncpu_eq ▸ hc
  obtain ⟨t, ht, _⟩ := h.queues.cur c hc' hc
  have hut : u ≠ t := by
    intro e
    subst e
    rw [(h.cur_running hc' hc ht).2.2] at hu
    cases hu
  cases call with
  | fork => simp [yieldPoint] at hy
  | kill => simp [yieldPoint] at hy
  | sleep a1 =>
    rw [SchedInv.yieldPoint_sleep ht] at hy
    cases hy
    simpa [Kernel.setTf, hut] using hu
  | timer =>
    rw [h.yieldPoint_timer hc' hc ht] at hy
    split_ifs at hy
    cases hy
    have hK : (K.setTf t tf).tasks u = K.tasks u := by simp [Kernel.setTf, hut]
    have htick : (K.tasks u).tick = K.tasks u := by simp [Task.tick, hu]
    simp only [setTask_tasks, Function.update_of_ne hut, Kernel.woken, hK]
    split_ifs
    · rw [htick, hu]
    · exact hu

/-- The first entry of a queue is selected only when no other entry is runnable. -/
theorem YieldInv.first_last {S : Set Nat} {c t : Nat} {K : Kernel} (h : YieldInv S c K)
    (hc : c < K.ncpu)
    (hf : findRunnable K.tasks (K.cpus c).cpuRq.rq (K.cpus c).cpuRq.cnt.toNat = some (some t))
    (h0 : K.rqAt c 0 = some t) {u : Nat} (hu : K.Queued c u) (hut : u ≠ t) :
    (K.tasks u).state ≠ .runnable := by
  obtain ⟨j, hj, hjt, _, hlast⟩ := findRunnable_last hf
  have hpos : 0 < K.cnt c := Nat.zero_lt_of_lt hj
  have hj0 : j = 0 := (h.queues.inj c hc c hc j hj 0 hpos (hjt.trans h0.symm)).2
  obtain ⟨i, hi, hiu⟩ := hu
  have hi0 : i ≠ 0 := by
    intro e
    subst e
    exact hut (Option.some.inj (hiu.symm.trans h0))
  exact hlast i (by omega) hi u hiu

/-- The entry at index 0, which on an application processor is the idle task, is selected only when
no other task of the queue is runnable. If at most one task other than an idle one is runnable
whenever `sched_yield` is called, no task is selected twice while another one waits. -/
theorem schedYield_roundRobin (L : Image) (mem : Mem) {ncpu n : Nat} (hn : 1 ≤ ncpu)
    (hnp : mem.npages ≤ 65536) {K : Nat → Kernel} {e : Nat → Nat × Trapframe × Call}
    (hst : Started L mem ncpu (K 0)) (hp : Path (RunStep L) n K e) :
    (∀ i < n, ∀ c t K₁, (e i).1 = c → yieldPoint c (e i).2.1 (e i).2.2 (K i) = some K₁ →
      findRunnable K₁.tasks (K₁.cpus c).cpuRq.rq (K₁.cpus c).cpuRq.cnt.toNat = some (some t) →
      K₁.rqAt c 0 = some t → ∀ u, K₁.Queued c u → u ≠ t → (K₁.tasks u).state ≠ .runnable) ∧
    ((∀ i < n, OneReady L (e i) (K i)) → ∀ c t u i j, i < j → j < n →
      Selects c t (e i) (K i) → Selects c t (e j) (K j) → u ≠ t → (K j).Queued c u →
      ¬ IdleOf L (K j) c u → ¬ Waits c u i j e K) := by
  have hinv : ∀ i ≤ n, Scheduled ncpu (K i) := fun i hi =>
    (hst.scheduled hn hnp).run (hp.reach hi)
  have hcpu : ∀ i < n, (e i).1 < ncpu := fun i hi => by
    have := (hp i hi).1.1
    rwa [(hinv i (by omega)).ncpu_eq] at this
  have hidle : ∀ i < n, ∀ c t K₁, (e i).1 = c → yieldPoint c (e i).2.1 (e i).2.2 (K i) = some K₁ →
      findRunnable K₁.tasks (K₁.cpus c).cpuRq.rq (K₁.cpus c).cpuRq.cnt.toNat = some (some t) →
      K₁.rqAt c 0 = some t → ∀ u, K₁.Queued c u → u ≠ t → (K₁.tasks u).state ≠ .runnable := by
    intro i hi c t K₁ hc hy hf h0 u hu hut
    subst hc
    have hs := hinv i (by omega)
    have hc' : (e i).1 < (K i).ncpu := hs.ncpu_eq ▸ hcpu i hi
    have hn₁ := (hs.yieldPoint_same hc' (hcpu i hi) hy).1.ncpu
    exact (hs.yieldPoint hc' (hcpu i hi) hy).first_last (hn₁ ▸ hc') hf h0 hu hut
  refine ⟨hidle, fun hone c t u i j hij hj _ hsel hut hu hni hw => ?_⟩
  obtain ⟨rfl, K₁, hy, hf⟩ := hsel
  have hs := hinv j (by omega)
  have hc' : (e j).1 < (K j).ncpu := hs.ncpu_eq ▸ hcpu j hj
  obtain ⟨hsame, _⟩ := hs.yieldPoint_same hc' (hcpu j hj) hy
  obtain ⟨k, hk, hkt, hr, _⟩ := findRunnable_last hf
  have hu₁ : K₁.Queued (e j).1 u := (hsame.queued _ u).mpr hu
  have hru : (K₁.tasks u).state = .runnable :=
    hs.still_runnable (hcpu j hj) hy (hw j hij le_rfl).1
  have hni₁ : ¬ IdleOf L K₁ (e j).1 u := by
    rw [IdleOf, hsame.rqAt]
    exact hni
  have hti : ¬ IdleOf L K₁ (e j).1 t := fun hi => hidle j hj _ t K₁ rfl hy hf hi.2 u hu₁ hut hru
  exact hut (hone j hj K₁ hy u t hu₁ hru hni₁ ⟨k, hk, hkt⟩ hr hti)

/-- A call that does not come to `sched_yield`. -/
theorem OneReady.of_none {L : Image} {e : Nat × Trapframe × Call} {K : Kernel}
    (h : yieldPoint e.1 e.2.1 e.2.2 K = none) : OneReady L e K := fun K₁ hy => by
  rw [h] at hy
  cases hy

theorem Shows.oneReady {L : Image} {c v : Nat} {tf : Trapframe} {call : Call} {K Y : Kernel}
    {A : Control} (h : Shows Y A) (hy : yieldPoint c tf call K = some Y)
    (hv : ∀ u ∈ A.queue c, A.state u = .runnable → u = v) : OneReady L (c, tf, call) K := by
  have hready : ∀ u, Y.Queued c u → (Y.tasks u).state = .runnable → u = v := fun u hu hr =>
    hv u ((h.queued_iff c u).mp hu) (h.state u ▸ hr)
  intro Z hZ u w hu hru _ hw hrw _
  cases hy.symm.trans hZ
  exact (hready u hu hru).trans (hready w hw hrw).symm

/-- Two tasks that sleep for one tick in turn: task 1 is selected twice, and task 0, which is ready
in between, is selected in between. -/
theorem schedYield_roundRobin_pair :
    ∃ (s₀ : Mem) (K : Nat → Kernel) (e : Nat → Nat × Trapframe × Call),
      Started smallImage s₀ 1 (K 0) ∧ Path (RunStep smallImage) 6 K e ∧
      (∀ i < 6, OneReady smallImage (e i) (K i)) ∧
      Selects 0 1 (e 1) (K 1) ∧ Selects 0 1 (e 5) (K 5) ∧ (K 5).Queued 0 0 ∧
      ¬ Waits 0 0 1 5 e K := by
  obtain ⟨s₀, K₀, fl₀, hs₀, hst, hA₀, hi₀, hlen, h0⟩ := small_clocked
  obtain ⟨K₁, _, e₀, hA₁, hi₁, _, _⟩ := hA₀.runFork hi₀ h0 0 0 1 (by decide) rfl (by decide)
    (by decide) (by omega) (by decide) (by decide) (by decide)
  obtain ⟨Y₁, K₂, y₁, f₁, e₁, hA₂⟩ := hA₁.sleep (L := smallImage) hi₁ newTrapframe 1#32 (c := 0)
    (t := 0) (u := 1) (by decide) rfl (by decide) (by decide)
  have hi₂ := hi₁.step e₁
  obtain ⟨K₃, e₂, y₂, hA₃⟩ := hA₂.timer (L := smallImage) hi₂ newTrapframe (c := 0) (t := 1)
    (by decide) rfl (by decide)
  have hi₃ := hi₂.step e₂
  obtain ⟨Y₃, K₄, y₃, f₃, e₃, hA₄⟩ := hA₃.sleep (L := smallImage) hi₃ newTrapframe 1#32 (c := 0)
    (t := 1) (u := 0) (by decide) rfl (by decide) (by decide)
  have hi₄ := hi₃.step e₃
  obtain ⟨K₅, e₄, y₄, hA₅⟩ := hA₄.timer (L := smallImage) hi₄ newTrapframe (c := 0) (t := 0)
    (by decide) rfl (by decide)
  have hi₅ := hi₄.step e₄
  obtain ⟨Y₅, K₆, y₅, f₅, e₅, _⟩ := hA₅.sleep (L := smallImage) hi₅ newTrapframe 1#32 (c := 0)
    (t := 0) (u := 1) (by decide) rfl (by decide) (by decide)
  obtain ⟨Z₁, z₁, hZ₁⟩ := hA₁.sleeping newTrapframe 1#32 (c := 0) (t := 0) rfl (by decide)
  obtain ⟨Z₃, z₃, hZ₃⟩ := hA₃.sleeping newTrapframe 1#32 (c := 0) (t := 1) rfl (by decide)
  obtain ⟨Z₅, z₅, hZ₅⟩ := hA₅.sleeping newTrapframe 1#32 (c := 0) (t := 0) rfl (by decide)
  have hone₁ := hZ₁.oneReady (L := smallImage) z₁ (v := 1) (by decide)
  have hone₃ := hZ₃.oneReady (L := smallImage) z₃ (v := 0) (by decide)
  have hone₅ := hZ₅.oneReady (L := smallImage) z₅ (v := 1) (by decide)
  let K (i : Nat) := [K₀, K₁, K₂, K₃, K₄, K₅].getD i K₆
  let e (i : Nat) := (0, newTrapframe, [Call.fork, .sleep 1#32, .timer, .sleep 1#32, .timer].getD i
    (.sleep 1#32))
  have hpath : Path (RunStep smallImage) 6 K e := by
    intro i hi
    match i, hi with
    | 0, _ => exact e₀
    | 1, _ => exact e₁
    | 2, _ => exact e₂
    | 3, _ => exact e₃
    | 4, _ => exact e₄
    | 5, _ => exact e₅
  have hone : ∀ i < 6, OneReady smallImage (e i) (K i) := by
    intro i hi
    match i, hi with
    | 0, _ => exact .of_none (by simp [e, yieldPoint])
    | 1, _ => exact hone₁
    | 2, _ => exact .of_none y₂
    | 3, _ => exact hone₃
    | 4, _ => exact .of_none y₄
    | 5, _ => exact hone₅
  have hqueued : K₅.Queued 0 0 := (hA₅.queued_iff 0 0).mpr (by decide)
  exact ⟨s₀, K, e, hst, hpath, hone, ⟨rfl, Y₁, y₁, f₁⟩, ⟨rfl, Y₅, y₅, f₅⟩, hqueued,
    (schedYield_roundRobin smallImage s₀ le_rfl (small_npages hs₀) hst hpath).2 hone 0 1 0 1 5
      (by decide) (by decide)
      ⟨rfl, Y₁, y₁, f₁⟩ ⟨rfl, Y₅, y₅, f₅⟩ (by decide) hqueued fun h => h.1 rfl⟩

/-- One CPU with the queue `[0, 1, 2, 3]`: task 0 sleeps and task 3 is selected; it sleeps for one
tick, in which task 2 runs; then task 2 sleeps and task 3 is selected again, while task 1 has been
runnable all the time. -/
theorem schedYield_starves :
    ∃ (s₀ : Mem) (K : Nat → Kernel) (e : Nat → Nat × Trapframe × Call),
      pageInit smallBoot (bootMem smallBoot fun _ _ => 0#32) = some s₀ ∧
      Started smallImage s₀ 1 (K 0) ∧ Path (RunStep smallImage) 7 K e ∧
      Selects 0 3 (e 3) (K 3) ∧ Selects 0 3 (e 6) (K 6) ∧ (K 6).Queued 0 1 ∧
      ¬ IdleOf smallImage (K 6) 0 1 ∧ Waits 0 1 3 6 e K := by
  obtain ⟨s₀, K₀, fl₀, hs₀, hst, hA₀, hi₀, hlen, h0⟩ := small_clocked
  obtain ⟨K₁, fl₁, e₀, hA₁, hi₁, h1, l₁⟩ := hA₀.runFork hi₀ h0 0 0 1 (by decide) rfl (by decide)
    (by decide) (by omega) (by decide) (by decide) (by decide)
  obtain ⟨K₂, fl₂, e₁, hA₂, hi₂, h2, l₂⟩ := hA₁.runFork hi₁ h1 0 0 2 (by decide) rfl (by decide)
    (by decide) (by omega) (by decide) (by decide) (by decide)
  obtain ⟨K₃, fl₃, e₂, hA₃, hi₃, _, _⟩ := hA₂.runFork hi₂ h2 0 0 3 (by decide) rfl (by decide)
    (by decide) (by omega) (by decide) (by decide) (by decide)
  obtain ⟨Y₃, K₄, y₃, f₃, e₃, hA₄⟩ := hA₃.sleep (L := smallImage) hi₃ newTrapframe 100#32 (c := 0)
    (t := 0) (u := 3) (by decide) rfl (by decide) (by decide)
  have hi₄ := hi₃.step e₃
  obtain ⟨Y₄, K₅, y₄, f₄, e₄, hA₅⟩ := hA₄.sleep (L := smallImage) hi₄ newTrapframe 1#32 (c := 0)
    (t := 3) (u := 2) (by decide) rfl (by decide) (by decide)
  have hi₅ := hi₄.step e₄
  obtain ⟨K₆, e₅, y₅, hA₆⟩ := hA₅.timer (L := smallImage) hi₅ newTrapframe (c := 0) (t := 2)
    (by decide) rfl (by decide)
  have hi₆ := hi₅.step e₅
  obtain ⟨Y₆, K₇, y₆, f₆, e₆, _⟩ := hA₆.sleep (L := smallImage) hi₆ newTrapframe 100#32 (c := 0)
    (t := 2) (u := 3) (by decide) rfl (by decide) (by decide)
  refine ⟨s₀, fun i => [K₀, K₁, K₂, K₃, K₄, K₅, K₆].getD i K₇, fun i => (0, newTrapframe,
    [Call.fork, .fork, .fork, .sleep 100#32, .sleep 1#32, .timer].getD i (.sleep 100#32)),
    hs₀, hst, ?_, ⟨rfl, Y₃, y₃, f₃⟩, ⟨rfl, Y₆, y₆, f₆⟩, (hA₆.queued_iff 0 1).mpr (by decide),
    fun h => h.1 rfl, ?_⟩
  · intro i hi
    match i, hi with
    | 0, _ => exact e₀
    | 1, _ => exact e₁
    | 2, _ => exact e₂
    | 3, _ => exact e₃
    | 4, _ => exact e₄
    | 5, _ => exact e₅
    | 6, _ => exact e₆
  · intro m hm hm'
    match m, hm, hm' with
    | 4, _, _ =>
      refine ⟨hA₄.state 1, fun _ hs => ?_⟩
      obtain ⟨_, Y, hy, hf⟩ := hs
      cases y₄.symm.trans hy
      cases f₄.symm.trans hf
    | 5, _, _ =>
      refine ⟨hA₅.state 1, fun _ hs => ?_⟩
      obtain ⟨_, Y, hy, _⟩ := hs
      cases y₅.symm.trans hy
    | 6, _, _ => exact ⟨hA₆.state 1, fun h => absurd h (by decide)⟩

end NctuCourses.Osdi
