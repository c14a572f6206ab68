import NctuCourses.Osdi.Task.RoundRobin

namespace NctuCourses.Osdi

open Lib

/-- A timer interrupt that CPU `c` handles. -/
def IsTick (c : Nat) (e : Nat × Trapframe × Call) : Prop := e.1 = c ∧ e.2.2 = .timer

instance decidableIsTick (c : Nat) : (e : Nat × Trapframe × Call) → Decidable (IsTick c e)
  | (_, _, .timer) => decidable_of_iff (_ = c) ⟨fun h => ⟨h, rfl⟩, And.left⟩
  | (_, _, .fork) | (_, _, .kill) | (_, _, .sleep _) => isFalse fun h => Call.noConfusion h.2

/-- The number of timer interrupts that CPU `c` handles in the `k` steps from step `i` on. -/
def ticksIn (c : Nat) (e : Nat → Nat × Trapframe × Call) (i : Nat) : Nat → Nat
  | 0 => 0
  | k + 1 => ticksIn c e i k + if IsTick c (e (i + k)) then 1 else 0

/-- The state after the loop of `timer_handler`, before the quantum of
the current task is looked at. -/
def afterLoop (c : Nat) (tf : Trapframe) (K : Kernel) : Option Kernel := do
  let (_, K) ← saveFrame c tf K
  (List.range (K.cpus c).cpuRq.cnt.toNat).foldlM (wake c) K

/-- What a timer interrupt of its own CPU does to a task that is not the current one. -/
def Kernel.passed (K : Kernel) (c u : Nat) (e : Nat × Trapframe × Call) : Task :=
  if IsTick c e then (K.tasks u).tick else K.tasks u

namespace Scheduled

variable {L : Image} {ncpu c u : Nat} {K K' : Kernel} {e : Nat × Trapframe × Call}

theorem afterLoop_eq (h : Scheduled ncpu K) (hc : c < ncpu) (tf : Trapframe) :
    ∃ t, (K.cpus c).cpuTask = some t ∧ afterLoop c tf K = some ((K.setTf t tf).woken c) := by
  have hc' : c < K.ncpu := h.ncpu_eq ▸ hc
  obtain ⟨t, ht, _⟩ := h.queues.cur c hc' hc
  have hw : (List.range ((K.setTf t tf).cpus c).cpuRq.cnt.toNat).foldlM (wake c) (K.setTf t tf) =
      some ((K.setTf t tf).woken c) := (h.timer_woken hc' hc ht tf).1
  refine ⟨t, ht, ?_⟩
  simp only [afterLoop, saveFrame_eq ht, Option.bind_eq_bind, Option.bind_some, hw]

theorem queued_mono (h : Scheduled ncpu K) (hs : RunStep L K e K') (hq : K.Queued c u)
    (hc : c < ncpu) : K'.Queued c u := by
  obtain ⟨c', tf, call⟩ := e
  obtain ⟨⟨hc', hs⟩, hk⟩ := hs
  have hcn : c' < ncpu := h.ncpu_eq ▸ hc'
  obtain ⟨t, ht, _⟩ := h.queues.cur c' hc' hcn
  cases hy : yieldPoint c' tf call K with
  | some K₁ =>
    have hs' : schedYield c' K₁ = some K' := (trap_of_yieldPoint hy).symm.trans hs
    exact ((schedYield_some hs').1.queued c u).mpr
      (((h.yieldPoint_same hc' hcn hy).1.queued c u).mpr hq)
  | none =>
    cases call with
    | kill => exact absurd rfl hk
    | sleep a1 => simp [SchedInv.yieldPoint_sleep ht] at hy
    | timer =>
      rw [h.yieldPoint_timer hc' hcn ht] at hy
      split_ifs at hy with hz
      have he := (h.trap_timer (L := L) hc' hcn ht hz).symm.trans hs
      cases he
      exact hq
    | fork =>
      simp only [Kernel.trap, saveFrame_eq ht, Option.bind_eq_bind, Option.bind_some] at hs
      obtain ⟨⟨r, K₂⟩, hf, he⟩ := Option.bind_eq_some_iff.mp hs
      cases he
      have ht' : ((K.setTf t tf).cpus c').cpuTask = some t := ht
      rcases sysFork_cases ht' hf with ⟨_, hsame, _⟩ | ⟨p, _, hp, _, _⟩
      · exact (hsame.queued c u).mpr hq
      · obtain ⟨j, hj, hju⟩ := hq
        have hj' : j < (K.setTf t tf).cnt c := hj
        by_cases hne : c = (K.setTf t tf).nextCpu
        · subst hne
          refine ⟨j, ?_, (hp.front j hj').trans hju⟩
          have : j < K₂.cnt (K.setTf t tf).nextCpu := by
            rw [hp.cnt]
            omega
          exact this
        · have hrq := hp.other c hne
          refine ⟨j, ?_, ?_⟩
          · change j < (K₂.cpus c).cpuRq.cnt.toNat
            rw [hrq]
            exact hj
          · change (K₂.cpus c).cpuRq.rq j = some u
            rw [hrq]
            exact hju

theorem woken_other (h : Scheduled ncpu K) (hc : c < ncpu) (hq : K.Queued c u) {c' t : Nat}
    (hc' : c' < ncpu) (hut : u ≠ t) (tf : Trapframe) :
    ((K.setTf t tf).woken c').tasks u = K.passed c u (c', tf, .timer) := by
  have hK : (K.setTf t tf).tasks u = K.tasks u := by simp [Kernel.setTf, hut]
  have hiff : (K.setTf t tf).Queued c' u ↔ IsTick c (c', tf, .timer) := by
    constructor
    · intro hq'
      exact ⟨h.queues.queued_unique (h.ncpu_eq ▸ hc') (h.ncpu_eq ▸ hc) hq' hq, rfl⟩
    · intro hi
      obtain ⟨rfl, _⟩ := hi
      exact hq
  simp only [Kernel.woken, hiff, hK, Kernel.passed]

theorem yieldPoint_other (h : Scheduled ncpu K) (hc : c < ncpu) (hq : K.Queued c u) {K₁ : Kernel}
    (hc' : e.1 < ncpu) (hu : (K.cpus e.1).cpuTask ≠ some u)
    (hy : yieldPoint e.1 e.2.1 e.2.2 K = some K₁) : K₁.tasks u = K.passed c u e := by
  obtain ⟨c', tf, call⟩ := e
  have hcK : c' < K.ncpu := h.ncpu_eq ▸ hc'
  obtain ⟨t, ht, _⟩ := h.queues.cur c' hcK hc'
  have hut : u ≠ t := fun e => hu (e ▸ ht)
  simp only at hy
  cases call with
  | fork => simp [yieldPoint] at hy
  | kill => simp [yieldPoint] at hy
  | sleep a1 =>
    rw [SchedInv.yieldPoint_sleep ht] at hy
    cases hy
    have hno : ¬ IsTick c (c', tf, .sleep a1) := fun hi => Call.noConfusion hi.2
    simp [Kernel.passed, hno, Kernel.setTf, hut]
  | timer =>
    rw [h.yieldPoint_timer hcK hc' ht] at hy
    split_ifs at hy
    cases hy
    rw [setTask_tasks, Function.update_of_ne hut]
    exact h.woken_other hc hq hc' hut tf

/-- One step, seen from a task that is not the current one of the CPU concerned. -/
theorem step_other (h : Scheduled ncpu K) (hs : RunStep L K e K') (hc : c < ncpu)
    (hq : K.Queued c u) (hu : (K.cpus e.1).cpuTask ≠ some u) :
    ((K'.tasks u).state = (K.passed c u e).state ∧
      (K'.tasks u).remindTicks = (K.passed c u e).remindTicks ∧ ∀ c', ¬ Selects c' u e K) ∨
    ((K.passed c u e).state = .runnable ∧ (K'.tasks u).state = .running ∧
      (K'.tasks u).remindTicks = timeQuant ∧ Selects c u e K) := by
  obtain ⟨⟨hcK, hs⟩, hk⟩ := hs
  have hc' : e.1 < ncpu := h.ncpu_eq ▸ hcK
  obtain ⟨t, ht, _⟩ := h.queues.cur e.1 hcK hc'
  have hut : u ≠ t := fun e => hu (e ▸ ht)
  cases hy : yieldPoint e.1 e.2.1 e.2.2 K with
  | some K₁ =>
    have hsame := (h.yieldPoint_same hcK hc' hy).1
    have hyield : schedYield e.1 K₁ = some K' := (trap_of_yieldPoint hy).symm.trans hs
    obtain ⟨v, hf⟩ := schedYield_found hyield
    obtain ⟨j, hj, hjv, hr, _⟩ := findRunnable_last hf
    obtain ⟨he, _⟩ := (h.yieldPoint hcK hc' hy).schedYield (hsame.ncpu ▸ hcK) hf
    cases he.symm.trans hyield
    have hK₁ := h.yieldPoint_other hc hq hc' hu hy
    by_cases huv : u = v
    · subst huv
      have hqe : K.Queued e.1 u := (hsame.queued e.1 u).mp ⟨j, hj, hjv⟩
      have hce : e.1 = c := h.queues.queued_unique hcK (h.ncpu_eq ▸ hc) hqe hq
      refine .inr ⟨hK₁ ▸ hr, by simp [Kernel.dispatch], by simp [Kernel.dispatch], hce, ?_⟩
      subst hce
      exact ⟨K₁, hy, hf⟩
    · have hd : (K₁.dispatch e.1 v).tasks u = K.passed c u e := by
        rw [← hK₁]
        simp [Kernel.dispatch, huv]
      refine .inl ⟨by rw [hd], by rw [hd], fun c'' hsel => ?_⟩
      obtain ⟨rfl, K₂, hy₂, hf₂⟩ := hsel
      cases hy.symm.trans hy₂
      cases hf.symm.trans hf₂
      exact huv rfl
  | none =>
    have hnone : ∀ c'', ¬ Selects c'' u e K := by
      intro c'' hsel
      obtain ⟨rfl, K₂, hy₂, _⟩ := hsel
      cases hy.symm.trans hy₂
    obtain ⟨c', tf, call⟩ := e
    simp only at hy hcK hc' ht
    refine .inl ?_
    cases call with
    | kill => exact absurd rfl hk
    | sleep a1 => simp [SchedInv.yieldPoint_sleep ht] at hy
    | timer =>
      rw [h.yieldPoint_timer hcK hc' ht] at hy
      split_ifs at hy with hz
      cases (h.trap_timer (L := L) hcK hc' ht hz).symm.trans hs
      rw [setTask_tasks, Function.update_of_ne hut, h.woken_other hc hq hc' hut tf]
      exact ⟨rfl, rfl, hnone⟩
    | fork =>
      have hno : ¬ IsTick c (c', tf, .fork) := fun hi => Call.noConfusion hi.2
      simp only [Kernel.trap, saveFrame_eq ht, Option.bind_eq_bind, Option.bind_some] at hs
      obtain ⟨⟨r, K₂⟩, hf, he⟩ := Option.bind_eq_some_iff.mp hs
      cases he
      have hK : (K.setTf t tf).tasks u = K.tasks u := by simp [Kernel.setTf, hut]
      have hl := h.queues.queued_live (h.ncpu_eq ▸ hc) hq
      have hsp := sysFork_spawned (K := K.setTf t tf) h.npages ht hf
      have hK₂ : K₂.tasks u = K.tasks u := by
        rw [hsp.old u (by rw [hK]; exact hl.2), hK]
      have hfin : ∀ tf', (K₂.setTf t tf').tasks u = K.tasks u := by
        intro tf'
        simp [Kernel.setTf, hut, hK₂]
      rw [hfin, Kernel.passed, if_neg hno]
      exact ⟨rfl, rfl, hnone⟩

theorem sleeping_not_cur (h : Scheduled ncpu K) (hu : (K.tasks u).state = .sleep) {c' : Nat}
    (hc' : c' < ncpu) : (K.cpus c').cpuTask ≠ some u := by
  intro he
  rw [(h.cur_running (h.ncpu_eq ▸ hc') hc' he).2.2] at hu
  cases hu

/-- One step of a sleeping task: it is touched by the timer interrupts of its own CPU only, and it
wakes up when they have counted down to zero. -/
theorem step_sleeping (h : Scheduled ncpu K) (hs : RunStep L K e K') (hc : c < ncpu)
    (hq : K.Queued c u) (hu : (K.tasks u).state = .sleep) :
    (¬ (IsTick c e ∧ (K.tasks u).remindTicks - 1 = 0) → (K'.tasks u).state = .sleep ∧
      (K'.tasks u).remindTicks =
        (if IsTick c e then (K.tasks u).remindTicks - 1 else (K.tasks u).remindTicks) ∧
      ∀ c', ¬ Selects c' u e K) ∧
    (IsTick c e → (K.tasks u).remindTicks - 1 = 0 →
      (∃ K₁, afterLoop c e.2.1 K = some K₁ ∧ (K₁.tasks u).state = .runnable) ∧
      ((K'.tasks u).state = .runnable ∨ (K'.tasks u).state = .running ∧ Selects c u e K)) := by
  have hc' : e.1 < ncpu := h.ncpu_eq ▸ hs.1.1
  have hcur := h.sleeping_not_cur hu hc'
  have hstep := h.step_other hs hc hq hcur
  constructor
  · intro hno
    have hp : (K.passed c u e).state = .sleep ∧ (K.passed c u e).remindTicks =
        if IsTick c e then (K.tasks u).remindTicks - 1 else (K.tasks u).remindTicks := by
      rw [Kernel.passed]
      by_cases hi : IsTick c e
      · rw [if_pos hi, if_pos hi, tick_sleep hu fun hz => hno ⟨hi, hz⟩]
        exact ⟨hu, rfl⟩
      · rw [if_neg hi, if_neg hi]
        exact ⟨hu, rfl⟩
    rcases hstep with ⟨hst, ht, hsel⟩ | ⟨hr, _⟩
    · exact ⟨hst.trans hp.1, ht.trans hp.2, hsel⟩
    · rw [hp.1] at hr
      cases hr
  · intro hi hz
    have hp : (K.passed c u e).state = .runnable := by
      rw [Kernel.passed, if_pos hi, tick_last hu hz]
    constructor
    · obtain ⟨t, ht, hloop⟩ := h.afterLoop_eq hc e.2.1
      refine ⟨_, hloop, ?_⟩
      have hut : u ≠ t := by
        intro he
        subst he
        exact h.sleeping_not_cur hu hc ht
      have hw := h.woken_other hc hq hc hut e.2.1
      rw [hw, Kernel.passed, if_pos ⟨rfl, rfl⟩, tick_last hu hz]
    · rcases hstep with ⟨hst, _⟩ | ⟨_, hst, _, hsel⟩
      · exact .inl (hst.trans hp)
      · exact .inr ⟨hst, hsel⟩

end Scheduled

section Countdown

variable {L : Image} {ncpu n c u : Nat} {K : Nat → Kernel} {e : Nat → Nat × Trapframe × Call}

theorem toNat_sub_one {w : Word} (h : 1 ≤ w.toNat) : (w - 1).toNat = w.toNat - 1 := by
  have h1 : (1 : Word).toNat = 1 := rfl
  rw [BitVec.toNat_sub_of_le (by rw [BitVec.le_def, h1]; exact h), h1]

theorem sleep_countdown (hinv : ∀ m ≤ n, Scheduled ncpu (K m)) (hp : Path (RunStep L) n K e)
    (hc : c < ncpu) {i : Nat} (hq : (K i).Queued c u) (hu : ((K i).tasks u).state = .sleep)
    {k : Nat} (hk : i + k ≤ n)
    (hlt : ticksIn c e i k < ((K i).tasks u).remindTicks.toNat) :
    (K (i + k)).Queued c u ∧ ((K (i + k)).tasks u).state = .sleep ∧
      ((K (i + k)).tasks u).remindTicks.toNat + ticksIn c e i k =
        ((K i).tasks u).remindTicks.toNat := by
  induction k with
  | zero => exact ⟨hq, hu, rfl⟩
  | succ k ih =>
    simp only [ticksIn] at hlt
    have hlt' : ticksIn c e i k < ((K i).tasks u).remindTicks.toNat := by
      split_ifs at hlt <;> omega
    obtain ⟨hqk, huk, hsum⟩ := ih (by omega) hlt'
    have hik := hinv (i + k) (by omega)
    have hstep := hp (i + k) (by omega)
    have hone : 1 ≤ ((K (i + k)).tasks u).remindTicks.toNat := by omega
    have hsub := toNat_sub_one hone
    have hno : ¬ (IsTick c (e (i + k)) ∧ ((K (i + k)).tasks u).remindTicks - 1 = 0) := by
      rintro ⟨hi, hz⟩
      rw [if_pos hi] at hlt
      have h0 : (((K (i + k)).tasks u).remindTicks - 1).toNat = 0 := by rw [hz]; rfl
      omega
    obtain ⟨hst, ht, _⟩ := (hik.step_sleeping hstep hc hqk huk).1 hno
    refine ⟨hik.queued_mono hstep hqk hc, hst, ?_⟩
    rw [← Nat.add_assoc, ht, ticksIn]
    by_cases hi : IsTick c (e (i + k))
    · rw [if_pos hi, if_pos hi]
      rw [if_pos hi] at hlt
      omega
    · rw [if_neg hi, if_neg hi]
      omega

end Countdown

theorem Scheduled.slept {L : Image} {ncpu c t : Nat} {K K' : Kernel} {tf : Trapframe} {a1 : Word}
    (h : Scheduled ncpu K) (hs : RunStep L K (c, tf, .sleep a1) K')
    (ht : (K.cpus c).cpuTask = some t) :
    K'.Queued c t ∧ (K'.tasks t).state = .sleep ∧ (K'.tasks t).remindTicks = a1 ∧
      ∀ c', ¬ Selects c' t (c, tf, .sleep a1) K := by
  have hcK : c < K.ncpu := hs.1.1
  have hc : c < ncpu := h.ncpu_eq ▸ hcK
  have hq := (h.cur_running hcK hc ht).1
  have hy := SchedInv.yieldPoint_sleep ht tf a1
  have hyield := (trap_of_yieldPoint hy).symm.trans hs.1.2
  obtain ⟨v, hf⟩ := schedYield_found hyield
  obtain ⟨j, _, _, hr, _⟩ := findRunnable_last hf
  have htv : t ≠ v := by
    intro he
    subst he
    simp at hr
  have hn₁ := (h.yieldPoint_same hcK hc hy).1.ncpu
  obtain ⟨he, _⟩ := (h.yieldPoint hcK hc hy).schedYield (hn₁ ▸ hcK) hf
  cases he.symm.trans hyield
  refine ⟨h.queued_mono hs hq hc, by simp [Kernel.dispatch, htv], by simp [Kernel.dispatch, htv],
    fun c' hsel => ?_⟩
  obtain ⟨rfl, K₁, hy₁, hf₁⟩ := hsel
  cases hy.symm.trans hy₁
  cases hf.symm.trans hf₁
  exact htv rfl

/-- A task that calls `SYS_sleep` with `n` at step `i` sleeps while its CPU handles fewer than `n`
timer interrupts, and no CPU selects it; the `n`-th one makes it runnable. -/
theorem sleep_exact (L : Image) (mem : Mem) {ncpu N : Nat} (hn : 1 ≤ ncpu)
    (hnp : mem.npages ≤ 65536) {K : Nat → Kernel} {e : Nat → Nat × Trapframe × Call}
    (hst : Started L mem ncpu (K 0)) (hp : Path (RunStep L) N K e) {i c t : Nat} {tf : Trapframe}
    {a1 : Word} (hi : i < N) (he : e i = (c, tf, .sleep a1))
    (ht : ((K i).cpus c).cpuTask = some t) :
    (∀ c', ¬ Selects c' t (e i) (K i)) ∧
    ∀ k, i + 1 + k ≤ N → ticksIn c e (i + 1) k < a1.toNat →
      ((K (i + 1 + k)).tasks t).state = .sleep ∧
      (i + 1 + k < N →
        (¬ (IsTick c (e (i + 1 + k)) ∧ ticksIn c e (i + 1) k + 1 = a1.toNat) →
          ∀ c', ¬ Selects c' t (e (i + 1 + k)) (K (i + 1 + k))) ∧
        (IsTick c (e (i + 1 + k)) → ticksIn c e (i + 1) k + 1 = a1.toNat →
          (∃ K₁, afterLoop c (e (i + 1 + k)).2.1 (K (i + 1 + k)) = some K₁ ∧
            (K₁.tasks t).state = .runnable) ∧
          (((K (i + 1 + k + 1)).tasks t).state = .runnable ∨
            ((K (i + 1 + k + 1)).tasks t).state = .running ∧
              Selects c t (e (i + 1 + k)) (K (i + 1 + k))))) := by
  have hinv : ∀ m ≤ N, Scheduled ncpu (K m) := fun m hm =>
    (hst.scheduled hn hnp).run (hp.reach hm)
  have hstep := hp i hi
  rw [he] at hstep ⊢
  have hc : c < ncpu := (hinv i (by omega)).ncpu_eq ▸ hstep.1.1
  obtain ⟨hq, hsl, hticks, hsel⟩ := (hinv i (by omega)).slept hstep ht
  refine ⟨hsel, fun k hk hlt => ?_⟩
  have hcount := sleep_countdown hinv hp hc (i := i + 1) (k := k) hq hsl hk
    (by rw [hticks]; exact hlt)
  rw [hticks] at hcount
  obtain ⟨hqk, hslk, hsum⟩ := hcount
  refine ⟨hslk, fun hkN => ?_⟩
  have hm := (hinv (i + 1 + k) hk).step_sleeping (hp (i + 1 + k) hkN) hc hqk hslk
  have hone : 1 ≤ ((K (i + 1 + k)).tasks t).remindTicks.toNat := by omega
  have hsub := toNat_sub_one hone
  have hzero : ((K (i + 1 + k)).tasks t).remindTicks - 1 = 0 ↔
      ticksIn c e (i + 1) k + 1 = a1.toNat := by
    rw [← BitVec.toNat_inj, hsub]
    have h0 : (0 : Word).toNat = 0 := rfl
    omega
  constructor
  · intro hno
    exact (hm.1 fun hh => hno ⟨hh.1, hzero.mp hh.2⟩).2.2
  · intro htick hlast
    exact hm.2 htick (hzero.mpr hlast)

/-- Task 0 forks, sleeps for one tick and is woken by the first timer interrupt. -/
theorem sleep_exact_one :
    ∃ (s₀ : Mem) (K : Nat → Kernel) (e : Nat → Nat × Trapframe × Call),
      Started smallImage s₀ 1 (K 0) ∧ Path (RunStep smallImage) 3 K e ∧
      e 1 = (0, newTrapframe, .sleep 1#32) ∧ ((K 1).cpus 0).cpuTask = some 0 ∧
      ((K 2).tasks 0).state = .sleep ∧ ((K 3).tasks 0).state ≠ .sleep := by
  obtain ⟨s₀, K₀, fl₀, hs₀, hst, hA₀, hi₀, hlen, h0⟩ := small_clocked
  obtain ⟨K₁, _, e₀, hA₁, hi₁, _, _⟩ := hA₀.runFork hi₀ h0 0 0 1 (by decide) rfl (by decide)
    (by decide) (by omega) (by decide) (by decide) (by decide)
  obtain ⟨_, K₂, _, _, e₁, hA₂⟩ := hA₁.sleep (L := smallImage) hi₁ newTrapframe 1#32 (c := 0)
    (t := 0) (u := 1) (by decide) rfl (by decide) (by decide)
  have hi₂ := hi₁.step e₁
  obtain ⟨K₃, e₂, _, hA₃⟩ := hA₂.timer (L := smallImage) hi₂ newTrapframe (c := 0) (t := 1)
    (by decide) rfl (by decide)
  have hpath : Path (RunStep smallImage) 3 (fun i => [K₀, K₁, K₂].getD i K₃) fun i =>
      (0, newTrapframe, [Call.fork, .sleep 1#32].getD i .timer) := by
    intro i hi
    match i, hi with
    | 0, _ => exact e₀
    | 1, _ => exact e₁
    | 2, _ => exact e₂
  obtain ⟨_, hsleep⟩ := sleep_exact smallImage s₀ le_rfl (small_npages hs₀) hst hpath (i := 1)
    (by decide) rfl (hA₁.cur 0)
  obtain ⟨hsl, hlast⟩ := hsleep 0 (by decide) (by decide)
  obtain ⟨_, hawake⟩ := (hlast (by decide)).2 ⟨rfl, rfl⟩ rfl
  refine ⟨s₀, _, _, hst, hpath, rfl, hA₁.cur 0, hsl, fun hs => ?_⟩
  cases hawake with
  | inl h => cases h.symm.trans hs
  | inr h => cases h.1.symm.trans hs

end NctuCourses.Osdi
