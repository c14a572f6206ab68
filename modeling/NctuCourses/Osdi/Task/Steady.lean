import NctuCourses.Osdi.Task.Runqueue

namespace NctuCourses.Osdi

open Lib

/-- The invariant of the whole kernel, with the runqueues left out: they may be anything. The CPUs
in `X` are about to choose a new current task. -/
structure Steady (L : Image) (rsv : Nat → Prop) (I : Set Nat) (X : Set Nat) (K : Kernel)
    (fl : List Nat) : Prop extends Sound L rsv I K fl where
  slots : ∀ t, (K.tasks t).state ≠ .free → t < nrTasks
  ids : ∀ t, (K.tasks t).state ≠ .free → (K.tasks t).taskId = t
  cur : ∀ c ∉ X, ∀ t, (K.cpus c).cpuTask = some t → (K.tasks t).state = .running
  curInj : ∀ c ∉ X, ∀ c' ∉ X, ∀ t, (K.cpus c).cpuTask = some t → (K.cpus c').cpuTask = some t →
    c = c'

namespace Steady

variable {L : Image} {rsv : Nat → Prop} {I X : Set Nat} {K K' : Kernel} {fl : List Nat} {c t : Nat}

theorem live (h : Steady L rsv I X K fl) (ht : (K.tasks t).state ≠ .free) : K.Live t :=
  ⟨h.slots t ht, ht⟩

theorem cur_live (h : Steady L rsv I X K fl) (hc : c ∉ X) (ht : (K.cpus c).cpuTask = some t) :
    K.Live t :=
  h.live (by rw [h.cur c hc t ht]; decide)

theorem mono {X' : Set Nat} (h : Steady L rsv I X K fl) (hX : X ⊆ X') : Steady L rsv I X' K fl :=
  ⟨h.toSound, h.slots, h.ids, fun c hc => h.cur c fun hm => hc (hX hm),
    fun c hc c' hc' => h.curInj c (fun hm => hc (hX hm)) c' fun hm => hc' (hX hm)⟩

theorem congr (h : Steady L rsv I X K fl) (hm : K'.mem = K.mem) (hl : K'.taskLock = K.taskLock)
    (ht : K'.tasks = K.tasks) (hc : ∀ c, (K'.cpus c).cpuTask = (K.cpus c).cpuTask) :
    Steady L rsv I X K' fl := by
  refine ⟨h.toSound.congr hm hl (fun t => by rw [ht]) fun t => by rw [ht], ?_, ?_, ?_, ?_⟩
  · rw [ht]
    exact h.slots
  · rw [ht]
    exact h.ids
  · simp only [ht, hc]
    exact h.cur
  · simp only [hc]
    exact h.curInj

theorem setTask (h : Steady L rsv I X K fl) {ts : Task}
    (hfree : ts.state = .free ↔ (K.tasks t).state = .free) (hid : ts.taskId = (K.tasks t).taskId)
    (hpg : ts.pgdir = (K.tasks t).pgdir)
    (hcur : ∀ c ∉ X, (K.cpus c).cpuTask = some t → ts.state = .running) :
    Steady L rsv I X (K.setTask t ts) fl := by
  have hst : ∀ u, ((K.setTask t ts).tasks u).state = .free ↔ (K.tasks u).state = .free := by
    intro u
    by_cases hu : u = t
    · simp [hu, hfree]
    · simp [hu]
  refine ⟨h.toSound.congr rfl rfl hst fun u => ?_, fun u hu => ?_, fun u hu =>
    ?_, fun c hc u he => ?_,
    h.curInj⟩
  · by_cases hu : u = t
    · simp [hu, hpg]
    · simp [hu]
  · exact h.slots u fun hf => hu ((hst u).mpr hf)
  · have hid' := h.ids u fun hf => hu ((hst u).mpr hf)
    by_cases hut : u = t
    · subst hut
      simpa [hid] using hid'
    · simpa [hut] using hid'
  · by_cases hut : u = t
    · subst hut
      simpa using hcur c hc he
    · simpa [hut] using h.cur c hc u he

theorem setTf (h : Steady L rsv I X K fl) (t : Nat) (tf : Trapframe) :
    Steady L rsv I X (K.setTf t tf) fl :=
  h.setTask Iff.rfl rfl rfl fun c hc he => h.cur c hc t he

/-- The current task of CPU `c` gives it up. -/
theorem rest (h : Steady L rsv I ∅ K fl) {ts : Task} (hc : (K.cpus c).cpuTask = some t)
    (hfree : ts.state = .free ↔ (K.tasks t).state = .free) (hid : ts.taskId = (K.tasks t).taskId)
    (hpg : ts.pgdir = (K.tasks t).pgdir) : Steady L rsv I {c} (K.setTask t ts) fl := by
  refine (h.mono (Set.empty_subset {c})).setTask hfree hid hpg fun c' hc' he => ?_
  exact absurd (h.curInj c' (by simp) c (by simp) t he hc) hc'

theorem wake (h : Steady L rsv I X K fl) {i : Nat} (hw : wake c K i = some K') :
    Steady L rsv I X K' fl := by
  rw [Osdi.wake] at hw
  split_ifs at hw
  cases hq : (K.cpus c).cpuRq.rq i with
  | none => simp [hq] at hw
  | some t =>
    simp only [hq] at hw
    have hcur : (K.tasks t).state = .sleep → ∀ c ∉ X, (K.cpus c).cpuTask ≠ some t := by
      intro hs c hc he
      rw [h.cur c hc t he] at hs
      cases hs
    split_ifs at hw with hs hz
    · cases hw
      exact h.setTask (by simp [hs]) rfl rfl fun c hc he => absurd he (hcur hs c hc)
    · cases hw
      exact h.setTask Iff.rfl rfl rfl fun c hc he => absurd he (hcur hs c hc)
    · cases hw
      exact h

theorem wakeAll (h : Steady L rsv I X K fl) {is : List Nat}
    (hw : is.foldlM (Osdi.wake c) K = some K') : Steady L rsv I X K' fl := by
  induction is generalizing K with
  | nil =>
    cases hw
    exact h
  | cons i is ih =>
    rw [List.foldlM_cons, Option.bind_eq_bind, Option.bind_eq_some_iff] at hw
    obtain ⟨K₁, h1, h2⟩ := hw
    exact ih (h.wake h1) h2

/-- `sched_yield` gives CPU `c` a runnable task, which runs nowhere else. -/
theorem yield (h : Steady L rsv I {c} K fl) (hy : schedYield c K = some K') :
    Steady L rsv I ∅ K' fl := by
  simp only [schedYield, Option.bind_eq_bind, Option.bind_eq_some_iff] at hy
  obtain ⟨r, hf, hy⟩ := hy
  cases r with
  | none => simp at hy
  | some t =>
    obtain ⟨_, _, hy⟩ := Option.bind_eq_some_iff.mp hy
    cases hy
    have hr := (findRunnable_some hf).1
    have hother : ∀ c' ≠ c, (K.cpus c').cpuTask ≠ some t := by
      intro c' hc' he
      rw [h.cur c' hc' t he] at hr
      cases hr
    have hlive := h.live (t := t) (by rw [hr]; decide)
    have hst : ∀ u, ((K.dispatch c t).tasks u).state = .free ↔ (K.tasks u).state = .free := by
      intro u
      by_cases hu : u = t
      · simp [Kernel.dispatch, hu, hr]
      · simp [Kernel.dispatch, hu]
    have hcpu : ∀ c' u, ((K.dispatch c t).cpus c').cpuTask = some u ↔
        c' = c ∧ t = u ∨ c' ≠ c ∧ (K.cpus c').cpuTask = some u := by
      intro c' u
      by_cases hc' : c' = c
      · simp [Kernel.dispatch, hc']
      · simp [Kernel.dispatch, hc']
    refine ⟨h.toSound.dispatch c hlive, fun u hu => ?_, fun u hu => ?_, fun c' _ u he => ?_,
      fun c' _ c'' _ u he he' => ?_⟩
    · exact h.slots u fun hf => hu ((hst u).mpr hf)
    · have hid := h.ids u fun hf => hu ((hst u).mpr hf)
      by_cases hut : u = t
      · subst hut
        simpa [Kernel.dispatch] using hid
      · simpa [Kernel.dispatch, hut] using hid
    · by_cases hut : u = t
      · simp [Kernel.dispatch, hut]
      · rcases (hcpu c' u).mp he with ⟨_, htu⟩ | ⟨hc', he⟩
        · exact absurd htu.symm hut
        · simpa [Kernel.dispatch, hut] using h.cur c' hc' u he
    · rcases (hcpu c' u).mp he with ⟨hc', htu⟩ | ⟨hc', he⟩ <;>
        rcases (hcpu c'' u).mp he' with ⟨hc'', htu'⟩ | ⟨hc'', he'⟩
      · exact hc'.trans hc''.symm
      · exact absurd (htu ▸ he') (hother c'' hc'')
      · exact absurd (htu' ▸ he) (hother c' hc')
      · exact h.curInj c' hc' c'' hc'' u he he'

theorem setRq (h : Steady L rsv I X K fl) (c : Nat) (q : Runqueue) :
    Steady L rsv I X (K.setRq c q) fl := by
  refine h.congr rfl rfl rfl fun c' => ?_
  by_cases hc : c' = c
  · simp [Kernel.setRq, hc]
  · simp [Kernel.setRq, hc]

theorem killLoop (h : Steady L rsv I X K fl) {pid : Int} {n i j : Nat}
    (hk : killLoop pid n i K = some (j, K')) : Steady L rsv I X K' fl := by
  induction n generalizing i K with
  | zero =>
    cases hk
    exact h
  | succ n ih =>
    simp only [Osdi.killLoop, Option.bind_eq_bind, Option.bind_eq_some_iff] at hk
    obtain ⟨⟨found, rq⟩, _, hk⟩ := hk
    have h1 := h.setRq i { (K.cpus i).cpuRq with rq := rq }
    split_ifs at hk
    · cases hk
      exact h1
    · exact ih h1 hk

theorem shrink (h : Steady L rsv I X K fl) {i : Nat} (hs : K.shrink i = some K') :
    Steady L rsv I X K' fl := by
  simp only [Kernel.shrink] at hs
  split_ifs at hs
  · cases hs
    exact h.setRq i _
  · cases hs
    exact h.setRq i _

theorem timer (h : Steady L rsv I ∅ K fl) (hc : (K.cpus c).cpuTask = some t)
    (ht : timerHandler c K = some K') : Steady L rsv I ∅ K' fl := by
  simp only [timerHandler, hc, Option.bind_eq_bind, Option.bind_eq_some_iff] at ht
  obtain ⟨K₁, hw, ht⟩ := ht
  have h1 := h.wakeAll hw
  have hc₁ : (K₁.cpus c).cpuTask = some t := by rw [(wakeAll_some hw).2, hc]
  have hrun := h1.cur c (by simp) t hc₁
  split_ifs at ht
  · refine yield (h1.rest hc₁ ?_ ?_ ?_) ht
    · simp [hrun]
    · rfl
    · rfl
  · cases ht
    exact h1.setTask Iff.rfl rfl rfl fun c' hc' he => h1.cur c' hc' t he

theorem sleep (h : Steady L rsv I ∅ K fl) {a1 : Word} (hc : (K.cpus c).cpuTask = some t)
    (hs : sysSleep c a1 K = some K') : Steady L rsv I ∅ K' fl := by
  simp only [sysSleep, hc] at hs
  have hrun := h.cur c (by simp) t hc
  refine yield (h.rest hc ?_ ?_ ?_) hs
  · simp [hrun]
  · rfl
  · rfl

theorem released (h : Steady L rsv I ∅ K fl) (hc : (K.cpus c).cpuTask = some t) {mem : Mem}
    (hf : taskFree L (K.tasks t).pgdir K.mem = some mem) :
    ∃ fl', Steady L rsv I {c} (K.released t mem) fl' := by
  obtain ⟨mem', fl', hf', h1⟩ := h.toSound.released (h.cur_live (by simp) hc)
  cases hf'.symm.trans hf
  have hst : ∀ u, ((K.released t mem).tasks u).state ≠ .free → u ≠ t ∧
      (K.tasks u).state ≠ .free := by
    intro u hu
    by_cases hut : u = t
    · simp [Kernel.released, hut] at hu
    · exact ⟨hut, by simpa [Kernel.released, hut] using hu⟩
  refine ⟨fl', h1, fun u hu => h.slots u (hst u hu).2, fun u hu => ?_, fun c' hc' u he => ?_,
    fun c' _ c'' _ => h.curInj c' (by simp) c'' (by simp)⟩
  · obtain ⟨hut, hu⟩ := hst u hu
    simpa [Kernel.released, hut] using h.ids u hu
  · have hut : u ≠ t := fun e => hc' (h.curInj c' (by simp) c (by simp) t (e ▸ he) hc)
    simpa [Kernel.released, hut] using h.cur c' (by simp) u he

theorem kill (h : Steady L rsv I ∅ K fl) (hc : (K.cpus c).cpuTask = some t)
    (hk : sysKill L c (K.tasks t).taskId K = some K') : ∃ fl', Steady L rsv I ∅ K' fl' := by
  have hid := h.ids t (by rw [h.cur c (by simp) t hc]; decide)
  rw [hid, sysKill] at hk
  split_ifs at hk
  · simp only [Option.bind_eq_bind, Option.bind_eq_some_iff, Int.toNat_natCast] at hk
    obtain ⟨mem, hf, ⟨i, K₁⟩, hloop, K₂, hsh, hy⟩ := hk
    obtain ⟨fl', h1⟩ := h.released hc hf
    have h2 := (h1.killLoop hloop).shrink hsh
    exact ⟨fl', h2.yield hy⟩
  · cases hk
    exact ⟨fl, h⟩

/-- A new task `p` in a free slot, which becomes the current one of `c` if it is running. -/
theorem spawned (h : Steady L rsv I ∅ K fl) {p : Nat} {fl' : List Nat} (hp : p < nrTasks)
    (hfree : (K.tasks p).state = .free) (h1 : Sound L rsv I K' fl')
    (hold : ∀ u, u ≠ p → K'.tasks u = K.tasks u) (hid : (K'.tasks p).taskId = p)
    (hcpu : ∀ c t, (K'.cpus c).cpuTask = some t → (K.cpus c).cpuTask = some t ∨
      t = p ∧ (K'.tasks p).state = .running ∧ ∀ c', (K'.cpus c').cpuTask = some p → c' = c) :
    Steady L rsv I ∅ K' fl' := by
  have hne : ∀ c t, (K.cpus c).cpuTask = some t → t ≠ p := fun c t ht e =>
    (h.cur_live (by simp) ht).2 (e ▸ hfree)
  refine ⟨h1, fun u hu => ?_, fun u hu => ?_, fun c _ u he => ?_, fun c _ c' _ u he he' => ?_⟩
  · by_cases hup : u = p
    · exact hup ▸ hp
    · exact h.slots u (by rwa [hold u hup] at hu)
  · by_cases hup : u = p
    · rw [hup]
      exact hid
    · rw [hold u hup] at hu ⊢
      exact h.ids u hu
  · rcases hcpu c u he with he | ⟨hup, hrun, _⟩
    · rw [hold u (hne c u he)]
      exact h.cur c (by simp) u he
    · rw [hup]
      exact hrun
  · rcases hcpu c u he with hk | ⟨rfl, _, huniq⟩
    · rcases hcpu c' u he' with hk' | ⟨rfl, _, huniq⟩
      · exact h.curInj c (by simp) c' (by simp) u hk hk'
      · exact huniq c he
    · exact (huniq c' he').symm

theorem forked (h : Steady L rsv I ∅ K fl) {p : Nat} {pgdir : Word} {m : Mem} {fl' : List Nat}
    (hp : p < nrTasks) (hfree : (K.tasks p).state = .free)
    (h1 : Sound L rsv I (K.forked c t p pgdir m) fl') :
    Steady L rsv I ∅ (K.forked c t p pgdir m) fl' := by
  refine h.spawned hp hfree h1 (fun u hu => ?_) ?_ fun c' u he => .inl ?_
  · simp [Kernel.forked, Kernel.setRq, Kernel.created, hu]
  · simp [Kernel.forked, Kernel.setRq, Kernel.created]
  · by_cases hc : c' = K.nextCpu
    · subst hc
      simpa [Kernel.forked, Kernel.setRq, Kernel.created] using he
    · simpa [Kernel.forked, Kernel.setRq, Kernel.created, hc] using he

theorem inited (h : Steady L rsv I ∅ K fl) {p : Nat} {eip pgdir : Word} {m : Mem} {fl' : List Nat}
    (hp : p < nrTasks) (hfree : (K.tasks p).state = .free)
    (h1 : Sound L rsv I (K.inited eip c p pgdir m) fl') :
    Steady L rsv I ∅ (K.inited eip c p pgdir m) fl' := by
  have hne : ∀ c, (K.cpus c).cpuTask ≠ some p := fun c he =>
    (h.cur_live (by simp) he).2 hfree
  refine h.spawned hp hfree h1 (fun u hu => ?_) ?_ fun c' u he => ?_
  · simp [Kernel.inited, Kernel.created, hu]
  · simp [Kernel.inited, Kernel.created]
  · by_cases hc : c' = c
    · subst hc
      have hup : p = u := by simpa [Kernel.inited, Kernel.created] using he
      refine .inr ⟨hup.symm, by simp [Kernel.inited, Kernel.created], fun c'' he' => ?_⟩
      by_contra hc''
      refine hne c'' ?_
      simpa [Kernel.inited, Kernel.created, hc''] using he'
    · exact .inl (by simpa [Kernel.inited, Kernel.created, hc] using he)

end Steady

end NctuCourses.Osdi
