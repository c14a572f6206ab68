import NctuCourses.Osdi.Task.Runqueue

namespace NctuCourses.Osdi

open Lib

section Npages

theorem pageAlloc_npages {f : Word} {s t : Mem} {r : Option Nat}
    (h : pageAlloc f s = some (r, t)) : t.npages = s.npages := by
  rw [pageAlloc] at h
  cases hl : s.pageFreeList with
  | none =>
    rw [hl] at h
    cases h
    rfl
  | some pp =>
    simp only [hl, Option.bind_eq_bind] at h
    split_ifs at h
    · obtain ⟨u, hu, h⟩ := Option.bind_eq_some_iff.mp h
      obtain ⟨k, _, rfl⟩ := Option.map_eq_some_iff.mp hu
      cases h
      rfl
    · cases h
      rfl

theorem pageFree_npages {p : Nat} {s t : Mem} (h : pageFree p s = some t) :
    t.npages = s.npages := by
  rw [pageFree] at h
  split_ifs at h
  cases h
  rfl

theorem pageDecref_npages {p : Nat} {s t : Mem} (h : pageDecref p s = some t) :
    t.npages = s.npages := by
  simp only [pageDecref] at h
  split_ifs at h
  · have hn := pageFree_npages h
    exact hn
  · cases h
    rfl

theorem pgdirWalk_npages {pgdir va : Word} {create : Bool} {s t : Mem} {r : Option Word}
    (h : pgdirWalk pgdir va create s = some (r, t)) : t.npages = s.npages := by
  simp only [pgdirWalk] at h
  split_ifs at h
  · obtain ⟨k, _, he⟩ := Option.map_eq_some_iff.mp h
    cases he
    rfl
  · cases h
    rfl
  · simp only [Option.bind_eq_bind, Option.bind_eq_some_iff] at h
    obtain ⟨⟨o, u⟩, hu, h⟩ := h
    have hn := pageAlloc_npages hu
    cases o with
    | none =>
      cases h
      exact hn
    | some pp =>
      obtain ⟨k, _, h⟩ := Option.bind_eq_some_iff.mp h
      cases h
      exact hn

theorem pageRemove_npages {pgdir va : Word} {s t : Mem} (h : pageRemove pgdir va s = some t) :
    t.npages = s.npages := by
  simp only [pageRemove, Option.bind_eq_bind, Option.bind_eq_some_iff] at h
  obtain ⟨o, _, h⟩ := h
  cases o with
  | none =>
    cases h
    rfl
  | some q =>
    obtain ⟨u, hu, rfl⟩ := Option.map_eq_some_iff.mp h
    have hn := pageDecref_npages hu
    exact hn

theorem pageInsert_npages {pgdir va perm : Word} {pp : Nat} {s t : Mem} {e : Int}
    (h : pageInsert pgdir pp va perm s = some (e, t)) : t.npages = s.npages := by
  simp only [pageInsert, Option.bind_eq_bind, Option.bind_eq_some_iff] at h
  obtain ⟨⟨o, u⟩, hu, h⟩ := h
  have hn := pgdirWalk_npages hu
  cases o with
  | none =>
    cases h
    exact hn
  | some pte =>
    dsimp only at h
    split_ifs at h
    · obtain ⟨v, hv, h⟩ := Option.bind_eq_some_iff.mp h
      cases h
      have hr := pageRemove_npages hv
      exact hr.trans hn
    · cases h
      exact hn

theorem bootMapRegion_npages {pgdir va size pa perm : Word} {s t : Mem}
    (h : bootMapRegion pgdir va size pa perm s = some t) : t.npages = s.npages := by
  induction va, size, pa, s using bootMapRegion.induct pgdir perm with
  | case1 va size pa s hsize pte u hu ih =>
    rw [bootMapRegion, dif_pos hsize, hu] at h
    have hn := ih h
    have hw := pgdirWalk_npages hu
    exact hn.trans hw
  | case2 va size pa s hsize hno =>
    rw [bootMapRegion, dif_pos hsize] at h
    split at h
    · rename_i pte u hu
      exact absurd hu (hno pte u)
    · cases h
  | case3 va size pa s hsize =>
    rw [bootMapRegion, dif_neg hsize] at h
    cases h
    rfl

theorem setupvm_npages {pgdir start size : Word} {s t : Mem}
    (h : setupvm pgdir start size s = some t) : t.npages = s.npages := by
  simp only [setupvm, Option.bind_eq_bind, Option.bind_eq_some_iff] at h
  obtain ⟨pa, _, u, hu, r, _, h⟩ := h
  split_ifs at h
  cases h
  exact bootMapRegion_npages hu

theorem foldlM_npages {α : Type} {f : Mem → α → Option Mem}
    (hf : ∀ s a t, f s a = some t → t.npages = s.npages) {l : List α} {s t : Mem}
    (h : l.foldlM f s = some t) : t.npages = s.npages := by
  induction l generalizing s with
  | nil =>
    cases h
    rfl
  | cons a l ih =>
    rw [List.foldlM_cons, Option.bind_eq_bind, Option.bind_eq_some_iff] at h
    obtain ⟨u, hu, h⟩ := h
    exact (ih h).trans (hf s a u hu)

theorem setupkvm_pgdir {L : Image} {s t : Mem} {pgdir : Word} (hn : s.npages ≤ 65536)
    (h : setupkvm L s = some (some pgdir, t)) : kernbase ≤ pgdir ∧ t.npages = s.npages := by
  simp only [setupkvm, Option.bind_eq_bind, Option.bind_eq_some_iff] at h
  obtain ⟨⟨o, u⟩, hu, h⟩ := h
  have hun := pageAlloc_npages hu
  cases o with
  | none => cases h
  | some pp =>
    obtain ⟨k, hk, h⟩ := Option.bind_eq_some_iff.mp h
    obtain ⟨rs, _, h⟩ := Option.bind_eq_some_iff.mp h
    obtain ⟨v, hv, h⟩ := Option.bind_eq_some_iff.mp h
    cases h
    refine ⟨?_, (foldlM_npages (fun _ _ _ => bootMapRegion_npages) hv).trans hun⟩
    rw [page2kva, kaddr] at hk
    split_ifs at hk with hlt
    obtain rfl := Option.some.inj hk
    have hkb : kernbase.toNat = 4026531840 := by decide
    dsimp only at hlt
    rw [pgnum_eq] at hlt
    rw [BitVec.le_def, BitVec.toNat_add, hkb]
    omega

theorem mapUserStack_npages {pgdir : Word} {vas : List Word} {s t : Mem} {ok : Bool}
    (h : mapUserStack pgdir vas s = some (ok, t)) : t.npages = s.npages := by
  induction vas generalizing s with
  | nil =>
    cases h
    rfl
  | cons va vas ih =>
    simp only [mapUserStack, Option.bind_eq_bind, Option.bind_eq_some_iff] at h
    obtain ⟨⟨o, u⟩, hu, h⟩ := h
    have hun := pageAlloc_npages hu
    cases o with
    | none =>
      cases h
      exact hun
    | some pp =>
      obtain ⟨⟨e, v⟩, hv, h⟩ := Option.bind_eq_some_iff.mp h
      have hvn := (pageInsert_npages hv).trans hun
      dsimp only at h
      split_ifs at h
      · cases h
        exact hvn
      · exact (ih h).trans hvn

theorem copyStackPage_npages {parent child va : Word} {s t : Mem}
    (h : copyStackPage parent child s va = some t) : t.npages = s.npages := by
  simp only [copyStackPage, Option.bind_eq_bind, Option.bind_eq_some_iff] at h
  obtain ⟨_, _, _, _, _, _, _, _, _, _, _, _, h⟩ := h
  cases h
  rfl

theorem setupUser_npages {L : Image} {pgdir : Word} {s t : Mem}
    (h : setupUser L pgdir s = some t) : t.npages = s.npages := by
  simp only [setupUser, Option.bind_eq_bind, Option.bind_eq_some_iff] at h
  obtain ⟨s₁, h1, s₂, h2, s₃, h3, h4⟩ := h
  rw [setupvm_npages h4, setupvm_npages h3, setupvm_npages h2, setupvm_npages h1]

end Npages

theorem taskCreate_npages {L : Image} {c : Nat} {K K' : Kernel} {r : Int}
    (hn : K.mem.npages ≤ 65536) (h : taskCreate L c K = some (r, K')) :
    K'.mem.npages = K.mem.npages := by
  simp only [taskCreate] at h
  split_ifs at h
  split at h
  · cases h
    rfl
  · simp only [Option.bind_eq_bind, Option.bind_eq_some_iff] at h
    obtain ⟨⟨o, s⟩, hs, h⟩ := h
    cases o with
    | none => cases h
    | some pgdir =>
      have hsn := (setupkvm_pgdir hn hs).2
      obtain ⟨⟨ok, t⟩, ht, h⟩ := Option.bind_eq_some_iff.mp h
      have htn : t.npages = s.npages := mapUserStack_npages ht
      cases ok with
      | false =>
        cases h
        exact htn.trans hsn
      | true =>
        cases h
        exact htn.trans hsn

/-- The live tasks stay as they are; a new one, if any, has state `st`, a full time quantum and a
directory above `KERNBASE`. -/
structure Spawned (st : TaskState) (K K' : Kernel) : Prop where
  old : ∀ u, (K.tasks u).state ≠ .free → K'.tasks u = K.tasks u
  new : ∀ u, (K.tasks u).state = .free → (K'.tasks u).state = .free ∨
    ((K'.tasks u).state = st ∧ (K'.tasks u).remindTicks = timeQuant ∧ kernbase ≤ (K'.tasks u).pgdir)
  npages : K'.mem.npages = K.mem.npages

theorem Spawned.created {L : Image} {K : Kernel} {pid : Nat} {pgdir : Word} {s mem : Mem}
    (cpu : Nat) (hn : K.mem.npages ≤ 65536) (hfree : (K.tasks pid).state = .free)
    (hkvm : setupkvm L K.mem = some (some pgdir, s))
    (hstack : mapUserStack pgdir userStack s = some (true, mem)) :
    Spawned .runnable K (K.created cpu pid pgdir mem) := by
  obtain ⟨hpg, hsn⟩ := setupkvm_pgdir hn hkvm
  refine ⟨fun u hu => ?_, fun u hu => ?_, (mapUserStack_npages hstack).trans hsn⟩
  · have hne : u ≠ pid := fun e => hu (e ▸ hfree)
    simp [Kernel.created, hne]
  · by_cases hup : u = pid
    · subst hup
      exact .inr (by simpa [Kernel.created] using hpg)
    · exact .inl (by simpa [Kernel.created, hup] using hu)

/-- Changes to the new task that keep what `task_create` has set, apart from the state. -/
theorem Spawned.congr {st : TaskState} {K K₁ K' : Kernel} {p : Nat} (h : Spawned .runnable K K₁)
    (hfree : (K.tasks p).state = .free) (hold : ∀ u, u ≠ p → K'.tasks u = K₁.tasks u)
    (hst : (K'.tasks p).state = st) (hticks : (K'.tasks p).remindTicks = timeQuant)
    (hpg : kernbase ≤ (K'.tasks p).pgdir) (hst' : ∀ u, u ≠ p → (K.tasks u).state = .free →
      (K₁.tasks u).state = .free) (hn : K'.mem.npages = K.mem.npages) : Spawned st K K' := by
  refine ⟨fun u hu => ?_, fun u hu => ?_, hn⟩
  · have hup : u ≠ p := fun e => hu (e ▸ hfree)
    rw [hold u hup, h.old u hu]
  · by_cases hup : u = p
    · subst hup
      exact .inr ⟨hst, hticks, hpg⟩
    · exact .inl (by rw [hold u hup, hst' u hup hu])

theorem sysFork_spawned {L : Image} {c t : Nat} {K K' : Kernel} {r : Int}
    (hn : K.mem.npages ≤ 65536) (ht : (K.cpus c).cpuTask = some t)
    (h : sysFork L c K = some (r, K')) : Spawned .runnable K K' := by
  rcases sysFork_inv ht h with
    ⟨rfl, hc⟩ | ⟨p, pgdir, s, m₁, m₂, m₃, rfl, hp, hfree, hkvm, hstack, hcopy, hvm, _, rfl⟩
  · have hn₁ := taskCreate_npages hn hc
    obtain ⟨_, ⟨_, mem, q, pgdir, hq, rfl⟩ | ⟨p, _, _, _, hr, _⟩⟩ := taskCreate_cases hc
    · refine ⟨fun u hu => ?_, fun u hu => .inl ?_, hn₁⟩
      · by_cases huq : u = q
        · subst huq
          rw [hq.resolve_left hu]
          simp
        · simp [huq]
      · by_cases huq : u = q
        · subst huq
          simpa using hu
        · simpa [huq] using hu
    · omega
  · have h1 := Spawned.created c hn hfree hkvm hstack
    have hpg := (setupkvm_pgdir hn hkvm).1
    have hcopy' := foldlM_npages (fun _ _ _ => copyStackPage_npages) hcopy
    refine h1.congr hfree (fun u hu => ?_) ?_ ?_ ?_ (fun u hu hf => ?_) ?_
    · simp [Kernel.forked, Kernel.setRq, Kernel.created, hu]
    · simp [Kernel.forked, Kernel.setRq, Kernel.created]
    · simp [Kernel.forked, Kernel.setRq, Kernel.created]
    · simpa [Kernel.forked, Kernel.setRq, Kernel.created] using hpg
    · simpa [Kernel.created, hu] using hf
    · exact (setupUser_npages hvm).trans (hcopy'.trans h1.npages)

theorem taskInitPercpu_spawned {L : Image} {c : Nat} {K K' : Kernel} (hn : K.mem.npages ≤ 65536)
    (h : taskInitPercpu L c K = some K') : Spawned .running K K' := by
  obtain ⟨p, pgdir, s, m₁, m₃, hp, hfree, hkvm, hstack, hvm, rfl⟩ := taskInitPercpu_inv h
  have h1 := Spawned.created c hn hfree hkvm hstack
  have hpg := (setupkvm_pgdir hn hkvm).1
  refine h1.congr hfree (fun u hu => ?_) ?_ ?_ ?_ (fun u hu hf => ?_) ?_
  · simp [Kernel.inited, Kernel.created, hu]
  · simp [Kernel.inited, Kernel.created]
  · simp [Kernel.inited, Kernel.created]
  · simpa [Kernel.inited, Kernel.created] using hpg
  · simpa [Kernel.created, hu] using hf
  · exact (setupUser_npages hvm).trans h1.npages

end NctuCourses.Osdi
