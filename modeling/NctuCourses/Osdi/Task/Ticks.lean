import NctuCourses.Osdi.Task.Sleep

namespace NctuCourses.Osdi

open Lib

/-- The counters of the sleeping and running tasks are positive as `int32_t`. -/
def Kernel.Positive (K : Kernel) : Prop := ∀ t, K.Live t →
  (K.tasks t).state = .sleep ∨ (K.tasks t).state = .running → 0 < (K.tasks t).remindTicks.toInt

/-- A sleep, if `e` is one, is for a positive number of ticks. -/
def GoodSleep (e : Nat × Trapframe × Call) : Prop := ∀ a1, e.2.2 = .sleep a1 → 0 < a1.toInt

private theorem toInt_sub_one {w : Word} (h : 0 < w.toInt) : (w - 1).toInt = w.toInt - 1 := by
  have h1 : (1 : Word).toNat = 1 := rfl
  have hlt := w.isLt
  simp only [BitVec.toInt_eq_toNat_cond] at h ⊢
  split_ifs at h with hw
  · have hsub : (w - 1).toNat = w.toNat - 1 := by
      rw [BitVec.toNat_sub_of_le (by rw [BitVec.le_def, h1]; omega), h1]
    rw [hsub, if_pos (by omega), if_pos hw]
    omega
  · omega

private theorem toInt_pred_pos {w : Word} (h : 0 < w.toInt) (hz : w - 1 ≠ 0) :
    0 < (w - 1).toInt := by
  have hs := toInt_sub_one h
  have hne : (w - 1).toInt ≠ 0 := fun h0 => hz (BitVec.eq_of_toInt_eq (by rw [h0]; rfl))
  omega

theorem Kernel.Positive.passed {K : Kernel} (h : K.Positive) {c u : Nat}
    {e : Nat × Trapframe × Call} (hl : K.Live u)
    (hst : (K.passed c u e).state = .sleep ∨ (K.passed c u e).state = .running) :
    0 < (K.passed c u e).remindTicks.toInt := by
  rw [Kernel.passed] at hst ⊢
  split_ifs at hst ⊢
  · by_cases hsl : (K.tasks u).state = .sleep
    · by_cases hz : (K.tasks u).remindTicks - 1 = 0
      · rw [tick_last hsl hz] at hst
        simp at hst
      · rw [tick_sleep hsl hz]
        exact toInt_pred_pos (h u hl (.inl hsl)) hz
    · rw [tick_awake hsl] at hst ⊢
      exact h u hl hst
  · exact h u hl hst

namespace Scheduled

variable {L : Image} {ncpu c t u : Nat} {K K' : Kernel} {e : Nat × Trapframe × Call}

/-- One step that is no sleep, seen from the current task of the CPU concerned. -/
theorem step_cur (h : Scheduled ncpu K) (hs : RunStep L K e K') (ht : (K.cpus e.1).cpuTask = some t)
    (hno : ∀ a1, e.2.2 ≠ .sleep a1) :
    ((K'.tasks t).state = .running ∧ yieldPoint e.1 e.2.1 e.2.2 K = none ∧
      (K'.tasks t).remindTicks = if IsTick e.1 e then (K.tasks t).remindTicks - 1
        else (K.tasks t).remindTicks) ∧
      (IsTick e.1 e → (K.tasks t).remindTicks - 1 ≠ 0) ∨
    (IsTick e.1 e ∧ (K.tasks t).remindTicks - 1 = 0 ∧ yieldPoint e.1 e.2.1 e.2.2 K ≠ none ∧
      ((K'.tasks t).state = .runnable ∨
        (K'.tasks t).state = .running ∧ (K'.tasks t).remindTicks = timeQuant)) := by
  obtain ⟨c, tf, call⟩ := e
  obtain ⟨⟨hcK, hs⟩, hk⟩ := hs
  simp only at hcK hs ht ⊢
  have hc : c < ncpu := h.ncpu_eq ▸ hcK
  have hrun := (h.cur_running hcK hc ht).2.2
  cases call with
  | kill => exact absurd rfl hk
  | sleep a1 => exact absurd rfl (hno a1)
  | fork =>
    have hnt : ¬ IsTick c (c, tf, .fork) := fun hi => Call.noConfusion hi.2
    simp only [Kernel.trap, saveFrame_eq ht, Option.bind_eq_bind, Option.bind_some] at hs
    obtain ⟨⟨r, K₂⟩, hf, he⟩ := Option.bind_eq_some_iff.mp hs
    cases he
    have hK : (K.setTf t tf).tasks t = { K.tasks t with tf := tf } := by simp [Kernel.setTf]
    have hsp := sysFork_spawned (K := K.setTf t tf) h.npages ht hf
    have hK₂ : K₂.tasks t = { K.tasks t with tf := tf } := by
      rw [hsp.old t (by rw [hK]; simp [hrun]), hK]
    refine .inl ⟨⟨?_, by simp [yieldPoint], ?_⟩, fun hi => absurd hi hnt⟩
    · simp [Kernel.setTf, hK₂, hrun]
    · simp [Kernel.setTf, hK₂, hnt]
  | timer =>
    have htick : IsTick c (c, tf, .timer) := ⟨rfl, rfl⟩
    have hyt := h.yieldPoint_timer hcK hc ht tf
    by_cases hz : (K.tasks t).remindTicks - 1 = 0#32
    · rw [if_pos hz] at hyt
      have hyield := (trap_of_yieldPoint hyt).symm.trans hs
      obtain ⟨v, hf⟩ := schedYield_found hyield
      have hn₁ := (h.yieldPoint_same hcK hc hyt).1.ncpu
      obtain ⟨he, _⟩ := (h.yieldPoint hcK hc hyt).schedYield (hn₁ ▸ hcK) hf
      cases he.symm.trans hyield
      refine .inr ⟨htick, hz, by simp [hyt], ?_⟩
      by_cases htv : t = v
      · exact .inr (by simp [Kernel.dispatch, htv])
      · exact .inl (by simp [Kernel.dispatch, htv])
    · rw [if_neg hz] at hyt
      cases (h.trap_timer (L := L) hcK hc ht hz).symm.trans hs
      exact .inl ⟨⟨by simpa using hrun, hyt, by simp [htick]⟩, fun _ => hz⟩

theorem step_new (h : Scheduled ncpu K) (hs : RunStep L K e K') (hl : K'.Live u) (hd : ¬ K.Live u) :
    (K'.tasks u).state = .runnable := by
  obtain ⟨c, tf, call⟩ := e
  obtain ⟨⟨hcK, hs⟩, hk⟩ := hs
  simp only at hcK hs
  have hc : c < ncpu := h.ncpu_eq ▸ hcK
  obtain ⟨t, ht, _⟩ := h.queues.cur c hcK hc
  cases hy : yieldPoint c tf call K with
  | some K₁ =>
    have hsame := (h.yieldPoint_same hcK hc hy).1
    have hyield := (trap_of_yieldPoint hy).symm.trans hs
    exact absurd ((hsame.live u).mp (((schedYield_some hyield).1.live u).mp hl)) hd
  | none =>
    cases call with
    | kill => exact absurd rfl hk
    | sleep a1 => simp [SchedInv.yieldPoint_sleep ht] at hy
    | timer =>
      have hts := (h.timer_woken hcK hc ht tf).2
      rw [h.yieldPoint_timer hcK hc ht] at hy
      split_ifs at hy with hz
      cases (h.trap_timer (L := L) hcK hc ht hz).symm.trans hs
      have hsame : SameQueues ((K.setTf t tf).woken c) (((K.setTf t tf).woken c).setTask t
          { K.tasks t with tf := tf, remindTicks := (K.tasks t).remindTicks - 1 }) :=
        SameQueues.setTask _ (by rw [hts]) (by rw [hts])
      have hw := (SameQueues.setTf K t tf).trans (SameQueues.woken _ c)
      exact absurd (((hw.trans hsame).live u).mp hl) hd
    | fork =>
      simp only [Kernel.trap, saveFrame_eq ht, Option.bind_eq_bind, Option.bind_some] at hs
      obtain ⟨⟨r, K₂⟩, hf, he⟩ := Option.bind_eq_some_iff.mp hs
      cases he
      have hsp := sysFork_spawned (K := K.setTf t tf) h.npages ht hf
      have hfree : ((K.setTf t tf).tasks u).state = .free := by
        by_contra hne
        exact hd (((SameQueues.setTf K t tf).live u).mp ⟨hl.1, hne⟩)
      have hl₂ : K₂.Live u := ((SameQueues.setTf K₂ t _).live u).mp hl
      obtain hf' | ⟨hst, _⟩ := hsp.new u hfree
      · exact absurd hf' hl₂.2
      · by_cases hut : u = t
        · simpa [Kernel.setTf, hut] using hut ▸ hst
        · simpa [Kernel.setTf, hut] using hst

/-- A step keeps the counters positive exactly if it is no sleep with a bad argument. -/
theorem step_positive (h : Scheduled ncpu K) (hpos : K.Positive) (hs : RunStep L K e K') :
    K'.Positive ↔ GoodSleep e := by
  have hcK : e.1 < K.ncpu := hs.1.1
  have hc : e.1 < ncpu := h.ncpu_eq ▸ hcK
  obtain ⟨t, ht, _⟩ := h.queues.cur e.1 hcK hc
  obtain ⟨hqt, hlt, hrun⟩ := h.cur_running hcK hc ht
  have hpt := hpos t hlt (.inr hrun)
  constructor
  · intro hK' a1 he
    obtain ⟨c, tf, call⟩ := e
    cases he
    obtain ⟨hq, hsl, hticks, _⟩ := h.slept hs ht
    have h' := h.step hs
    have hl := h'.queues.queued_live (h'.ncpu_eq ▸ hc) hq
    have hp := hK' t hl (.inl hsl)
    rwa [hticks] at hp
  · intro hgood u hl' hst
    by_cases hut : u = t
    · subst hut
      by_cases hsl : ∃ a1, e.2.2 = .sleep a1
      · obtain ⟨a1, he⟩ := hsl
        obtain ⟨c, tf, call⟩ := e
        cases he
        rw [(h.slept hs ht).2.2.1]
        exact hgood a1 rfl
      · rcases h.step_cur hs ht fun a1 he => hsl ⟨a1, he⟩ with
          ⟨⟨_, _, hticks⟩, hne⟩ | ⟨_, _, _, hr | ⟨_, hq⟩⟩
        · rw [hticks]
          split_ifs with hi
          · exact toInt_pred_pos hpt (hne hi)
          · exact hpt
        · rw [hr] at hst
          simp at hst
        · rw [hq]
          decide
    · by_cases hl : K.Live u
      · obtain ⟨c, hcu, j, hj, hju⟩ := h.queues.cover u hl
        have hcn : c < ncpu := h.ncpu_eq ▸ hcu
        have hcur : (K.cpus e.1).cpuTask ≠ some u := by
          rw [ht]
          exact fun he => hut (Option.some.inj he).symm
        rcases h.step_other hs hcn ⟨j, hj, hju⟩ hcur with ⟨hst', hticks, _⟩ | ⟨_, _, hticks, _⟩
        · rw [hticks]
          rw [hst'] at hst
          exact hpos.passed hl hst
        · rw [hticks]
          decide
      · rw [h.step_new hs hl' hl] at hst
        simp at hst

/-- A task that stays the current one of CPU `c` is touched by the timer interrupts of `c` only. -/
theorem step_unyielded (h : Scheduled ncpu K) (hs : RunStep L K e K') (hc : c < ncpu)
    (ht : (K.cpus c).cpuTask = some t) (hny : e.1 = c → yieldPoint e.1 e.2.1 e.2.2 K = none) :
    (K'.cpus c).cpuTask = some t ∧
    (K'.tasks t).remindTicks =
      (if IsTick c e then (K.tasks t).remindTicks - 1 else (K.tasks t).remindTicks) ∧
    (IsTick c e → (K.tasks t).remindTicks - 1 ≠ 0) := by
  have hcK : c < K.ncpu := h.ncpu_eq ▸ hc
  obtain ⟨hq, hl, hrun⟩ := h.cur_running hcK hc ht
  have h' := h.step hs
  have hcur : (K'.tasks t).state = .running → (K'.cpus c).cpuTask = some t :=
    (h'.running c (h'.ncpu_eq ▸ hc) hc t (h.queued_mono hs hq hc)).mp
  by_cases hce : e.1 = c
  · subst hce
    have hno : ∀ a1, e.2.2 ≠ .sleep a1 := by
      intro a1 he
      have hy := hny rfl
      rw [he, SchedInv.yieldPoint_sleep ht] at hy
      cases hy
    rcases h.step_cur hs ht hno with ⟨⟨hr, _, hticks⟩, hne⟩ | ⟨_, _, hy, _⟩
    · exact ⟨hcur hr, hticks, hne⟩
    · exact absurd (hny rfl) hy
  · have hnt : ¬ IsTick c e := fun hi => hce hi.1
    have hother : (K.cpus e.1).cpuTask ≠ some t := by
      intro he
      have hce' : e.1 < ncpu := h.ncpu_eq ▸ hs.1.1
      obtain ⟨hq', _, _⟩ := h.cur_running hs.1.1 hce' he
      exact hce (h.queues.queued_unique hs.1.1 hcK hq' hq)
    have hp : K.passed c t e = K.tasks t := by rw [Kernel.passed, if_neg hnt]
    rcases h.step_other hs hc hq hother with ⟨hst, hticks, _⟩ | ⟨hr, _⟩
    · rw [hp] at hst hticks
      rw [if_neg hnt]
      exact ⟨hcur (hst.trans hrun), hticks, fun hi => absurd hi hnt⟩
    · rw [hp, hrun] at hr
      cases hr

end Scheduled

theorem Spawned.positive {st : TaskState} {K K' : Kernel} (h : Spawned st K K') (hK : K.Positive) :
    K'.Positive := by
  intro u hl hst
  by_cases hfree : (K.tasks u).state = .free
  · obtain hf | ⟨_, hticks, _⟩ := h.new u hfree
    · exact absurd hf hl.2
    · rw [hticks]
      decide
  · rw [h.old u hfree] at hst ⊢
    exact hK u ⟨hl.1, hfree⟩ hst

theorem Started.positive {L : Image} {mem : Mem} {ncpu : Nat} {K : Kernel}
    (h : Started L mem ncpu K) (hnp : mem.npages ≤ 65536) : K.Positive := by
  obtain ⟨cs, hperm, hi⟩ := h
  clear hperm
  have h0 : (taskInit mem ncpu).Positive := fun u hl => absurd rfl hl.2
  have hn0 : (taskInit mem ncpu).mem.npages ≤ 65536 := hnp
  generalize taskInit mem ncpu = K₀ at hi h0 hn0
  induction cs generalizing K₀ with
  | nil =>
    cases hi
    exact h0
  | cons c cs ih =>
    rw [List.foldlM_cons, Option.bind_eq_bind, Option.bind_eq_some_iff] at hi
    obtain ⟨K₁, h1, h2⟩ := hi
    have hsp := taskInitPercpu_spawned hn0 h1
    exact ih K₁ h2 (hsp.positive h0) (hsp.npages ▸ hn0)

section Countdown

variable {L : Image} {ncpu N c t i k : Nat} {K : Nat → Kernel} {e : Nat → Nat × Trapframe × Call}

private theorem toNat_eq_toInt {w : Word} (h : 0 < w.toInt) : (w.toNat : Int) = w.toInt := by
  have hlt := w.isLt
  simp only [BitVec.toInt_eq_toNat_cond] at h ⊢
  split_ifs at h ⊢ <;> omega

/-- A task that has been asleep throughout has seen fewer timer interrupts than its counter had. -/
theorem sleeping_ticks (hinv : ∀ m ≤ N, Scheduled ncpu (K m)) (hp : Path (RunStep L) N K e)
    (hc : c < ncpu) (hq : (K i).Queued c t) (h0 : 0 < ((K i).tasks t).remindTicks.toNat)
    (hk : i + k ≤ N) (hsl : ∀ j ≤ k, ((K (i + j)).tasks t).state = .sleep) :
    ticksIn c e i k < ((K i).tasks t).remindTicks.toNat := by
  induction k with
  | zero => exact h0
  | succ k ih =>
    have hlt := ih (by omega) fun j hj => hsl j (by omega)
    obtain ⟨hqk, hslk, hsum⟩ :=
      sleep_countdown hinv hp hc hq (hsl 0 (by omega)) (k := k) (by omega) hlt
    rw [ticksIn]
    by_cases hi : IsTick c (e (i + k))
    · rw [if_pos hi]
      by_contra hge
      have hone : ((K (i + k)).tasks t).remindTicks = 1 :=
        BitVec.eq_of_toNat_eq (by have h1 : (1 : Word).toNat = 1 := rfl; omega)
      obtain ⟨_, hlast⟩ := (hinv (i + k) (by omega)).step_sleeping
        (hp (i + k) (by omega)) hc hqk hslk
      have hawake := (hlast hi (by rw [hone]; rfl)).2
      have hs := hsl (k + 1) le_rfl
      rw [← Nat.add_assoc] at hs
      rw [hs] at hawake
      simp at hawake
    · rw [if_neg hi]
      exact hlt

/-- A task that has been the current one throughout has seen fewer timer
interrupts than its counter had. -/
theorem running_ticks (hinv : ∀ m ≤ N, Scheduled ncpu (K m)) (hp : Path (RunStep L) N K e)
    (hc : c < ncpu) (ht : ((K i).cpus c).cpuTask = some t)
    (h0 : 0 < ((K i).tasks t).remindTicks.toNat) (hk : i + k ≤ N)
    (hny : ∀ j < k, (e (i + j)).1 = c →
      yieldPoint c (e (i + j)).2.1 (e (i + j)).2.2 (K (i + j)) = none) :
    ((K (i + k)).cpus c).cpuTask = some t ∧
      ((K (i + k)).tasks t).remindTicks.toNat + ticksIn c e i k =
        ((K i).tasks t).remindTicks.toNat ∧
      0 < ((K (i + k)).tasks t).remindTicks.toNat := by
  induction k with
  | zero => exact ⟨ht, rfl, h0⟩
  | succ k ih =>
    obtain ⟨htk, hsum, hpos⟩ := ih (by omega) fun j hj => hny j (by omega)
    obtain ⟨hcur, hticks, hne⟩ :=
      (hinv (i + k) (by omega)).step_unyielded (hp (i + k) (by omega)) hc htk
      fun he => by
        rw [he]
        exact hny k (by omega) he
    refine ⟨hcur, ?_⟩
    rw [← Nat.add_assoc, hticks, ticksIn]
    by_cases hi : IsTick c (e (i + k))
    · have hsub := toNat_sub_one hpos
      have hz : (((K (i + k)).tasks t).remindTicks - 1).toNat ≠ 0 := fun h0 =>
        hne hi (BitVec.eq_of_toNat_eq h0)
      rw [if_pos hi, if_pos hi]
      omega
    · rw [if_neg hi, if_neg hi]
      omega

end Countdown

/-- If every sleep so far was for a positive `int32_t`, the counters of the sleeping and running
tasks are positive and can be decremented without underflow; the next step keeps this exactly if it
is no sleep with a bad argument; and a task sleeps or runs on for fewer timer interrupts of its CPU
than its counter says. -/
theorem ticks_positive (L : Image) (mem : Mem) {ncpu N : Nat} (hn : 1 ≤ ncpu)
    (hnp : mem.npages ≤ 65536) {K : Nat → Kernel} {e : Nat → Nat × Trapframe × Call}
    (hst : Started L mem ncpu (K 0)) (hp : Path (RunStep L) N K e)
    (hgood : ∀ i < N, GoodSleep (e i)) {i : Nat} (hi : i ≤ N) :
    (K i).Positive ∧
    (∀ t, (K i).Live t → ((K i).tasks t).state = .sleep ∨ ((K i).tasks t).state = .running →
      (((K i).tasks t).remindTicks - 1).toInt = ((K i).tasks t).remindTicks.toInt - 1) ∧
    (∀ e' K', RunStep L (K i) e' K' → (K'.Positive ↔ GoodSleep e')) ∧
    ∀ c < ncpu, ∀ t k, i + k ≤ N →
      ((K i).Queued c t ∧ (∀ j ≤ k, ((K (i + j)).tasks t).state = .sleep) ∨
        ((K i).cpus c).cpuTask = some t ∧ (∀ j < k, (e (i + j)).1 = c →
          yieldPoint c (e (i + j)).2.1 (e (i + j)).2.2 (K (i + j)) = none)) →
      (ticksIn c e i k : Int) < ((K i).tasks t).remindTicks.toInt := by
  have hinv : ∀ m ≤ N, Scheduled ncpu (K m) := fun m hm =>
    (hst.scheduled hn hnp).run (hp.reach hm)
  have hpos : ∀ m ≤ N, (K m).Positive := by
    intro m hm
    induction m with
    | zero => exact hst.positive hnp
    | succ m ih =>
      exact ((hinv m (by omega)).step_positive (ih (by omega)) (hp m hm)).mpr (hgood m hm)
  refine ⟨hpos i hi, fun t hl hs => toInt_sub_one (hpos i hi t hl hs),
    fun e' K' hs => (hinv i hi).step_positive (hpos i hi) hs, fun c hc t k hk hcase => ?_⟩
  have hcK : c < (K i).ncpu := (hinv i hi).ncpu_eq ▸ hc
  cases hcase with
  | inl h =>
    have hl := (hinv i hi).queues.queued_live hcK h.1
    have hp0 := hpos i hi t hl (.inl (h.2 0 (by omega)))
    have heq := toNat_eq_toInt hp0
    have hlt := sleeping_ticks hinv hp hc h.1 (by omega) hk h.2
    omega
  | inr h =>
    obtain ⟨_, hl, hrun⟩ := (hinv i hi).cur_running hcK hc h.1
    have hp0 := hpos i hi t hl (.inr hrun)
    have heq := toNat_eq_toInt hp0
    obtain ⟨_, hsum, hlast⟩ := running_ticks hinv hp hc h.1 (by omega) hk h.2
    omega

/-- Task 0 forks and sleeps for one tick. -/
theorem ticks_positive_one :
    ∃ (s₀ : Mem) (K : Nat → Kernel) (e : Nat → Nat × Trapframe × Call),
      Started smallImage s₀ 1 (K 0) ∧ Path (RunStep smallImage) 2 K e ∧
      e 1 = (0, newTrapframe, .sleep 1#32) ∧ (K 2).Positive := by
  obtain ⟨s₀, K₀, fl₀, hs₀, hst, hA₀, hi₀, hlen, h0⟩ := small_clocked
  obtain ⟨K₁, _, e₀, hA₁, hi₁, _, _⟩ := hA₀.runFork hi₀ h0 0 0 1 (by decide) rfl (by decide)
    (by decide) (by omega) (by decide) (by decide) (by decide)
  obtain ⟨_, K₂, _, _, e₁, hA₂⟩ := hA₁.sleep (L := smallImage) hi₁ newTrapframe 1#32 (c := 0)
    (t := 0) (u := 1) (by decide) rfl (by decide) (by decide)
  have hpath : Path (RunStep smallImage) 2 (fun i => [K₀, K₁].getD i K₂) fun i =>
      (0, newTrapframe, [Call.fork].getD i (.sleep 1#32)) := by
    intro i hi
    match i, hi with
    | 0, _ => exact e₀
    | 1, _ => exact e₁
  have hgood : ∀ i < 2, GoodSleep (0, newTrapframe, [Call.fork].getD i (.sleep 1#32)) := by
    intro i hi a1 he
    match i, hi with
    | 0, _ => cases he
    | 1, _ =>
      cases he
      decide
  exact ⟨s₀, _, _, hst, hpath, rfl,
    (ticks_positive smallImage s₀ le_rfl (small_npages hs₀) hst hpath hgood (i := 2) le_rfl).1⟩

/-- Task 0 forks and sleeps for zero ticks: its counter is zero, and the next timer interrupt makes
it negative and leaves the task asleep. -/
theorem ticks_positive_zero :
    ∃ (s₀ : Mem) (K : Nat → Kernel),
      Started smallImage s₀ 1 (K 0) ∧
      Path (RunStep smallImage) 3 K
        (fun i => (0, newTrapframe, [Call.fork, .sleep 0#32].getD i .timer)) ∧
      ((K 2).tasks 0).state = .sleep ∧ ((K 2).tasks 0).remindTicks.toInt = 0 ∧
      ((K 3).tasks 0).state = .sleep ∧ ((K 3).tasks 0).remindTicks.toInt = -1 := by
  obtain ⟨s₀, K₀, fl₀, hs₀, hst, hA₀, hi₀, hlen, h0⟩ := small_clocked
  obtain ⟨K₁, _, e₀, hA₁, hi₁, _, _⟩ := hA₀.runFork hi₀ h0 0 0 1 (by decide) rfl (by decide)
    (by decide) (by omega) (by decide) (by decide) (by decide)
  obtain ⟨_, K₂, _, _, e₁, hA₂⟩ := hA₁.sleep (L := smallImage) hi₁ newTrapframe 0#32 (c := 0)
    (t := 0) (u := 1) (by decide) rfl (by decide) (by decide)
  have hi₂ := hi₁.step e₁
  obtain ⟨K₃, e₂, _, hA₃⟩ := hA₂.timer (L := smallImage) hi₂ newTrapframe (c := 0) (t := 1)
    (by decide) rfl (by decide)
  refine ⟨s₀, fun i => [K₀, K₁, K₂].getD i K₃, hst, fun i hi => ?_, hA₂.state 0, ?_, ?_, ?_⟩
  · match i, hi with
    | 0, _ => exact e₀
    | 1, _ => exact e₁
    | 2, _ => exact e₂
  · exact (congrArg BitVec.toInt (hA₂.ticks 0 (by decide))).trans (by decide)
  · exact (hA₃.state 0).trans (by decide)
  · exact (congrArg BitVec.toInt (hA₃.ticks 0 (by decide))).trans (by decide)

end NctuCourses.Osdi
