import NctuCourses.Lib.Run
import NctuCourses.Osdi.Task.AddrSpace

namespace NctuCourses.Osdi

open Lib

/-- `page_remove` of one page of directory `d`. The page is freed if this was its only mapping. -/
theorem VmInv.removeEntry {G : Space} {I : Set Nat} {s : Mem} {fl : List Nat} {d : Nat}
    (h : VmInv G I 0 s fl) (hd : d ∈ G.dirs) (hb : ∀ q, refs G s q < 65536) {va : Word}
    (hc : G.counted (pgnum va) = true) :
    ∃ u l₀, pageRemove (kva d) va s = some u ∧ VmInv G I 0 u (l₀ ++ fl) ∧
      Apart (G.dirs.erase d) G.rsv s u ∧ (∀ i < 1024, u.ram d i = s.ram d i) ∧
      (∀ v < 2 ^ 20, v ≠ pgnum va → u.pteAt d v = s.pteAt d v) ∧
      present (u.pteAt d (pgnum va)) = false ∧ (present (s.pteAt d (pgnum va)) = true →
        mapSites G s (pgnum (s.pteAt d (pgnum va))) = {(d, pgnum va)} →
        l₀ = [pgnum (s.pteAt d (pgnum va))] ∧ ∀ q, mapSites G u q = (mapSites G s q).erase
          (d, pgnum va)) := by
  cases hp : present (s.pteAt d (pgnum va)) with
  | false =>
    exact ⟨s, [], h.pageRemove_absent hd hp, h, Apart.refl _ _ s, fun _ _ =>
      rfl, fun _ _ _ => rfl, hp,
      fun hpr => absurd hpr (by simp)⟩
  | true =>
    obtain ⟨u, hu, hn, hram, h1⟩ := h.pageRemove_present hd hc hp (hb _).le
    have hpde := pde_present hp
    have hmap := h.remap_of_ram hd hpde hn hram
    have hrow : ∀ i < 1024, u.ram d i = s.ram d i := by
      intro i hi
      by_cases hs : i = pdx va
      · rw [hs]
        exact hmap.row d hd _ (pdx_lt va) hpde
      · exact hmap.slots d hd i hi fun e => hs (by rw [e.2, pgnum_div])
    have hout : ∀ v < 2 ^ 20, v ≠ pgnum va → u.pteAt d v = s.pteAt d v := fun v hv hne => by
      rw [hmap.pte d hd v hv, if_neg fun e => hne e.2]
    have hself : present (u.pteAt d (pgnum va)) = false := by
      rw [hmap.pte d hd _ (pgnum_lt va), if_pos ⟨rfl, rfl⟩]
      rfl
    have hsites : ∀ q, mapSites G u q = (mapSites G s q).erase (d, pgnum va) := fun q => by
      rw [mapSites_update hd (pgnum_lt va) hmap.pte]
      simp
    by_cases hr : refs G s (pgnum (s.pteAt d (pgnum va))) + (0 : Nat → Nat)
      (pgnum (s.pteAt d (pgnum va))) = 1
    · rw [if_pos hr] at h1
      exact ⟨u, [_], hu, h1, Apart.of_remap hmap, hrow, hout, hself, fun _ _ => ⟨rfl, hsites⟩⟩
    · rw [if_neg hr] at h1
      refine ⟨u, [], hu, h1, Apart.of_remap hmap, hrow, hout, hself, fun _ hsite => absurd ?_ hr⟩
      have hdat := h.mapped d hd _ (pgnum_lt va) hc hp
      rw [refs, hsite, tableSites_eq_empty hdat.notTable]
      rfl

/-- The loop of `task_free` over the user stack. It frees the pages that `d` alone maps. -/
theorem VmInv.removeStack {G : Space} {I : Set Nat} {s : Mem} {fl : List Nat} {d : Nat}
    (h : VmInv G I 0 s fl) (hd : d ∈ G.dirs)
    (hb : ∀ I' t fl', VmInv G I' 0 t fl' → ∀ q, refs G t q < 65536) (vas : List Word)
    (hc : ∀ va ∈ vas, G.counted (pgnum va) = true) (hnd : (vas.map pgnum).Nodup) :
    ∃ t l, vas.foldlM (fun s va => pageRemove (kva d) va s) s = some t ∧ VmInv G I 0 t (l ++ fl) ∧
      Apart (G.dirs.erase d) G.rsv s t ∧ (∀ i < 1024, t.ram d i = s.ram d i) ∧
      (∀ v < 2 ^ 20, (∀ va ∈ vas, pgnum va ≠ v) → t.pteAt d v = s.pteAt d v) ∧
      (∀ va ∈ vas, present (t.pteAt d (pgnum va)) = false) ∧
      ((∀ va ∈ vas, present (s.pteAt d (pgnum va)) = true ∧
          mapSites G s (pgnum (s.pteAt d (pgnum va))) = {(d, pgnum va)}) →
        ∀ p, p ∈ l ↔ ∃ va ∈ vas, pgnum (s.pteAt d (pgnum va)) = p) := by
  induction vas generalizing s fl with
  | nil =>
    exact ⟨s, [], rfl, h, Apart.refl _ _ s, fun _ _ => rfl, fun _ _ _ => rfl, by simp, by simp⟩
  | cons va vas ih =>
    obtain ⟨hnew, hnd⟩ := List.nodup_cons.mp hnd
    have hnew' : ∀ va' ∈ vas, pgnum va' ≠ pgnum va := fun va' hva' e =>
      hnew (List.mem_map.mpr ⟨va', hva', e⟩)
    obtain ⟨u, l₀, hu, h1, hap0, hrow0, hout0, habs0, hown0⟩ :=
      h.removeEntry hd (hb _ _ _ h) (hc va (by simp))
    obtain ⟨t, l, he, h2, hap, hrow, hout, habs, hlist⟩ :=
      ih h1 (fun va' hva' => hc va' (by simp [hva'])) hnd
    have hpte : ∀ va' ∈ vas, u.pteAt d (pgnum va') = s.pteAt d (pgnum va') := fun va' hva' =>
      hout0 _ (pgnum_lt va') (hnew' va' hva')
    refine ⟨t, l ++ l₀, ?_, by rwa [List.append_assoc], hap0.trans hap,
      fun i hi => (hrow i hi).trans (hrow0 i hi), fun v hv hne => ?_, fun va' hva' =>
      ?_, fun hown p => ?_⟩
    · rw [List.foldlM_cons, hu]
      exact he
    · rw [hout v hv fun va' hva' => hne va' (by simp [hva']), hout0 v hv (hne va (by simp)).symm]
    · rcases List.mem_cons.mp hva' with rfl | hva'
      · rw [hout _ (pgnum_lt va') hnew', habs0]
      · exact habs va' hva'
    · obtain ⟨hpr, hsite⟩ := hown va (by simp)
      obtain ⟨hone, hsites⟩ := hown0 hpr hsite
      have hown' : ∀ va' ∈ vas, present (u.pteAt d (pgnum va')) = true ∧
          mapSites G u (pgnum (u.pteAt d (pgnum va'))) = {(d, pgnum va')} := by
        intro va' hva'
        obtain ⟨h1, h2⟩ := hown va' (by simp [hva'])
        rw [hpte va' hva', hsites, h2]
        refine ⟨h1, Finset.erase_eq_of_notMem ?_⟩
        simp [(hnew' va' hva').symm]
      rw [List.mem_append, hlist hown' p, hone, List.mem_singleton]
      constructor
      · rintro (⟨va', hva', he'⟩ | rfl)
        · exact ⟨va', by simp [hva'], by rw [← hpte va' hva', he']⟩
        · exact ⟨va, by simp, rfl⟩
      · rintro ⟨va', hva', he'⟩
        rcases List.mem_cons.mp hva' with rfl | hva'
        · exact .inr he'.symm
        · exact .inl ⟨va', hva', by rw [hpte va' hva', he']⟩

theorem taskFree_steps {L : Image} {pgdir : Word} {s t₁ t₂ t₃ : Mem} (hk : kernbase ≤ L.kernPgdir)
    (h₁ : userStack.foldlM (fun s va => pageRemove pgdir va s) s = some t₁)
    (h₂ : ptableRemove pgdir t₁ = some t₂) (h₃ : pgdirRemove pgdir t₂ = some t₃) :
    taskFree L pgdir s = some t₃ := by
  rw [taskFree, paddr_of_le hk, h₁]
  simp only [Option.bind_eq_bind, Option.bind_some, h₂, h₃]

/-- `task_free` gives back the directory, its page tables and the stack pages it alone maps, and
leaves every other directory as it was. -/
theorem taskFree_spec {L : Image} {dirs : Finset Nat} {rsv : Nat → Prop} {I : Set Nat} {s : Mem}
    {fl : List Nat} (h : VmInv (taskSpace dirs rsv) I 0 s fl) (hn : s.npages ≤ 65536)
    (hcard : dirs.card ≤ 32) (hk : kernbase ≤ L.kernPgdir) {d : Nat} (hd : d ∈ dirs) :
    ∃ t l, taskFree L (kva d) s = some t ∧
      VmInv (taskSpace (dirs.erase d) rsv) I 0 t (l ++ fl) ∧ Apart (dirs.erase d) rsv s t ∧
      (Private (taskSpace dirs rsv) s d → ∀ p, p ∈ l ↔ p = d ∨
        (∃ i < 1024, present (s.ram d i) = true ∧ pgnum (s.ram d i) = p) ∨
        ∃ v < 2 ^ 20, stackVpn v = true ∧ pgnum (s.pteAt d v) = p) := by
  have hb : ∀ I' t fl', VmInv (taskSpace dirs rsv) I' 0 t fl' →
      ∀ q, refs (taskSpace dirs rsv) t q < 65536 := fun I' t fl' hv q =>
    (taskSpace_refs_lt hv (by omega) q).trans (by decide)
  have hc : ∀ va ∈ userStack, stackVpn (pgnum va) = true := fun va hva =>
    (stackVpn_userStack (pgnum va)).mpr ⟨va, hva, rfl⟩
  obtain ⟨t₁, l₁, he₁, h1, hap, hrow, _, habs, hl₁⟩ :=
    h.removeStack (show d ∈ (taskSpace dirs rsv).dirs from hd) hb userStack hc userStack_nodup
  have hnone : ∀ v < 2 ^ 20, stackVpn v = true → present (t₁.pteAt d v) = false := by
    intro v _ hv
    obtain ⟨va, hva, rfl⟩ := (stackVpn_userStack v).mp hv
    exact habs va hva
  obtain ⟨t₂, l₂, he₂, hn₂, hram₂, h2, hl₂⟩ :=
    h1.ptableRemove_spec (show d ∈ (taskSpace dirs rsv).dirs from hd) hnone
  have hdlt : d < 65536 := (h.dir d hd).1.trans_le hn
  obtain ⟨he₃, h3⟩ := h2.pgdirRemove_spec (Set.mem_insert d I) hdlt
  have hdI : d ∉ I := fun hi => ((h.idle d).mp hi).1.notDir hd
  rw [Set.insert_sdiff_self_of_notMem hdI] at h3
  have hram₃ : (t₂.give d).ram = t₁.ram := hram₂
  refine ⟨t₂.give d, d :: (l₂ ++ l₁), ?_, ?_, hap.trans ?_, fun hpriv p => ?_⟩
  · exact taskFree_steps hk he₁ he₂ he₃
  · have hlist : d :: (l₂ ++ l₁) ++ fl = d :: (l₂ ++ (l₁ ++ fl)) := by simp
    rw [hlist]
    exact h3
  · exact ⟨hn₂, fun _ _ _ => by rw [hram₃], fun _ _ _ _ => by rw [hram₃],
      fun d' _ v _ => pteAt_of_ram_eq hram₃ d' v⟩
  · have hown : ∀ va ∈ userStack, present (s.pteAt d (pgnum va)) = true ∧
        mapSites (taskSpace dirs rsv) s (pgnum (s.pteAt d (pgnum va))) = {(d, pgnum va)} :=
      fun va hva => hpriv _ (pgnum_lt va) (hc va hva)
    rw [List.mem_cons, List.mem_append, hl₂, hl₁ hown]
    refine or_congr_right (or_congr ?_ ?_)
    · constructor
      · rintro ⟨i, hi, hp, he⟩
        rw [hrow i hi] at hp he
        exact ⟨i, hi, hp, he⟩
      · rintro ⟨i, hi, hp, he⟩
        rw [← hrow i hi] at hp he
        exact ⟨i, hi, hp, he⟩
    · constructor
      · rintro ⟨va, hva, he⟩
        exact ⟨pgnum va, pgnum_lt va, hc va hva, he⟩
      · rintro ⟨v, _, hv, he⟩
        obtain ⟨va, hva, rfl⟩ := (stackVpn_userStack v).mp hv
        exact ⟨va, hva, he⟩

/-- What `task_create` leaves behind when it returns a task id. -/
def Kernel.created (K : Kernel) (cpu pid : Nat) (pgdir : Word) (mem : Mem) : Kernel :=
  { K with mem := mem, taskLock := false }.setTask pid
    { tf := newTrapframe
      taskId := pid
      parentId := match (K.cpus cpu).cpuTask with
        | some t => (K.tasks t).taskId
        | none => pid
      remindTicks := timeQuant
      state := .runnable
      pgdir := pgdir }

/-- `task_create` either fails with `-1`, holding the lock, or fills in a free slot. -/
theorem taskCreate_cases {L : Image} {cpu : Nat} {K K' : Kernel} {r : Int}
    (h : taskCreate L cpu K = some (r, K')) :
    K.taskLock = false ∧
      ((r = -1 ∧ ∃ (mem : Mem) (pid : Nat) (pgdir : Word),
          ((K.tasks pid).state = .free ∨ pgdir = (K.tasks pid).pgdir) ∧
          K' = { K with mem := mem, taskLock := true }.setTask pid
            { K.tasks pid with pgdir := pgdir }) ∨
        ∃ (pid : Nat) (pgdir : Word) (s mem : Mem), r = pid ∧ pid < nrTasks ∧
          (K.tasks pid).state = .free ∧ setupkvm L K.mem = some (some pgdir, s) ∧
          mapUserStack pgdir userStack s = some (true, mem) ∧
          K' = K.created cpu pid pgdir mem) := by
  cases hlock : K.taskLock with
  | true => simp [taskCreate, hlock] at h
  | false =>
    refine ⟨rfl, ?_⟩
    simp only [taskCreate, hlock, Bool.false_eq_true, if_false] at h
    cases hfind : (List.range nrTasks).find? fun pid => (K.tasks pid).state == .free with
    | none =>
      rw [hfind] at h
      obtain ⟨rfl, rfl⟩ := Prod.mk.inj (Option.some.inj h)
      exact .inl ⟨rfl, K.mem, 0, (K.tasks 0).pgdir, .inr rfl, by simp [Kernel.setTask]⟩
    | some pid =>
      rw [hfind] at h
      have hpid := List.mem_range.mp (List.mem_of_find?_eq_some hfind)
      have hfree : (K.tasks pid).state = .free := by simpa using List.find?_some hfind
      simp only [Option.bind_eq_bind, Option.bind_eq_some_iff] at h
      obtain ⟨⟨o, s⟩, hkvm, h⟩ := h
      cases o with
      | none => simp at h
      | some pgdir =>
        obtain ⟨⟨ok, mem⟩, hstack, h⟩ := Option.bind_eq_some_iff.mp h
        cases ok with
        | false =>
          obtain ⟨rfl, rfl⟩ := Prod.mk.inj (Option.some.inj h)
          exact .inl ⟨rfl, mem, pid, pgdir, .inl hfree, rfl⟩
        | true =>
          obtain ⟨rfl, rfl⟩ := Prod.mk.inj (Option.some.inj h)
          refine .inr ⟨pid, pgdir, s, mem, rfl, hpid, hfree, hkvm, hstack, ?_⟩
          simp only [Kernel.created, Kernel.setTask, Function.update_self, Function.update_idem]
          cases (K.cpus cpu).cpuTask with
          | none => rfl
          | some t =>
            by_cases ht : t = pid
            · simp [ht]
            · simp [ht]

/-- With the lock free, a free slot and the memory needed, `task_create` returns a task id. -/
theorem taskCreate_some {L : Image} {cpu pid : Nat} {K : Kernel} {pgdir : Word} {s mem : Mem}
    (hlock : K.taskLock = false)
    (hfind : (List.range nrTasks).find? (fun pid => (K.tasks pid).state == .free) = some pid)
    (hkvm : setupkvm L K.mem = some (some pgdir, s))
    (hstack : mapUserStack pgdir userStack s = some (true, mem)) :
    taskCreate L cpu K = some ((pid : Int), K.created cpu pid pgdir mem) := by
  simp only [taskCreate, hlock, Bool.false_eq_true, if_false]
  rw [hfind]
  simp only [hkvm, Option.bind_eq_bind, Option.bind_some, Kernel.setTask, hstack, Bool.not_true,
    Bool.false_eq_true, if_false, Kernel.created, Function.update_self, Function.update_idem]
  cases (K.cpus cpu).cpuTask with
  | none => rfl
  | some t =>
    by_cases ht : t = pid
    · simp [ht]
    · simp [ht]

/-- The directory has its page tables for the addresses from `KERNBASE` on. -/
def KernTables (s : Mem) (d : Nat) : Prop := ∀ i < 1024, 960 ≤ i → present (s.ram d i) = true

theorem kernTables_of_regions {L : Image} {n : Nat} {rs : List Region} {s : Mem} {d : Nat}
    (hrs : kvmRegions L n = some rs) (hs : tableSlots s d = insert 954 (regionsTables rs)) :
    KernTables s d := by
  intro i hi hlow
  have hmem : (⟨kernbase, roundup (0xffffffff#32 - kernbase) pgsize, 0#32, pteW⟩ : Region) ∈
      rs := by
    simp only [kvmRegions, Option.bind_eq_bind, Option.bind_eq_some_iff] at hrs
    obtain ⟨_, _, _, _, _, _, hrs⟩ := hrs
    obtain rfl := Option.some.inj hrs
    simp
  have hsize : (roundup (0xffffffff#32 - kernbase) pgsize).toNat / 4096 = 65536 := by decide
  have hkb : pgnum kernbase = 983040 := by decide
  have hslot : i ∈ pageTables kernbase
      ((roundup (0xffffffff#32 - kernbase) pgsize).toNat / 4096) := by
    rw [hsize]
    refine mem_pageTables.mpr ⟨1024 * (i - 960), by omega, ?_⟩
    rw [vpnAt, hkb]
    omega
  have hin : i ∈ tableSlots s d := by
    rw [hs]
    exact Finset.mem_insert_of_mem (mem_regionsTables.mpr ⟨_, hmem, hslot⟩)
  exact (mem_tableSlots.mp hin).2

/-- The free pages that `task_create` takes: the directory, one page table for each slot needed, and
the ten pages of the stack. The stack is in slot 954. -/
def pagesNeeded (rs : List Region) : Nat := (insert 954 (regionsTables rs)).card + 11

theorem pagesNeeded_le (rs : List Region) : pagesNeeded rs ≤ 1035 := by
  have hsub : insert 954 (regionsTables rs) ⊆ Finset.range 1024 :=
    Finset.insert_subset (Finset.mem_range.mpr (by decide)) (regionsTables_subset rs)
  have hle := Finset.card_le_card hsub
  rw [Finset.card_range] at hle
  rw [pagesNeeded]
  omega

/-- The memory after a successful `task_create`: a new directory `d` with the kernel's
mappings and a stack of its own. -/
structure NewSpace (L : Image) (dirs : Finset Nat) (rsv : Nat → Prop) (I : Set Nat) (s : Mem)
    (fl : List Nat) (d : Nat) (u : Mem) (fl' : List Nat) : Prop where
  fresh : d ∉ dirs
  inv : VmInv (taskSpace (insert d dirs) rsv) I 0 u fl'
  apart : Apart dirs rsv s u
  own : Private (taskSpace (insert d dirs) rsv) u d
  pages : fl.length = fl'.length + tabs u d + 11
  keep : ∀ p, p ∉ fl → mapSites (taskSpace (insert d dirs) rsv) u p = mapSites
    (taskSpace dirs rsv) s p
  regions : ∃ rs, kvmRegions L s.npages = some rs ∧ tableSlots u d = insert 954 (regionsTables rs) ∧
    ∀ v < 2 ^ 20, stackVpn v = false → u.pteAt d v = regionsEntry rs 0#32 v
  stack : ∀ v < 2 ^ 20, stackVpn v = true →
    ∃ p ∈ fl, u.pteAt d v = page2pa p ||| pteP ||| (pteW ||| pteU)
  near : ∀ p, Near u fl' d p → p ∈ fl
  ram : ∀ p, p ∉ fl → ∀ j, u.ram p j = s.ram p j

theorem createdSpace {L : Image} {dirs : Finset Nat} {rsv : Nat → Prop} {I : Set Nat} {s t u : Mem}
    {fl : List Nat} {pgdir : Word} (h : VmInv (taskSpace dirs rsv) I 0 s fl)
    (hn : s.npages ≤ 65536) (hcard : dirs.card ≤ 32)
    (hL : L.lapic = 0#32 ∨ mmiobase ≤ L.lapic ∧ L.lapic < mmiolim)
    (hkvm : setupkvm L s = some (some pgdir, t))
    (hstack : mapUserStack pgdir userStack t = some (true, u)) :
    ∃ d fl', pgdir = kva d ∧ NewSpace L dirs rsv I s fl d u fl' := by
  rcases setupkvm_spec h hn hL with
    ⟨_, hno⟩ | ⟨rs, d, fl₁, t', fl₂, hrs, hfl, he, hd, h1, hap, hsuf, hent, hset, hlen, hnear, hram⟩
  · simp [hkvm] at hno
  obtain ⟨hpg, rfl⟩ := Prod.mk.inj (Option.some.inj (he.symm.trans hkvm))
  obtain rfl := Option.some.inj hpg
  have habs : ∀ v < 2 ^ 20, stackVpn v = true → t'.pteAt d v = 0#32 := fun v hv hs => by
    rw [hent v hv, regionsEntry_stack hn hL hrs _ hv hs]
  rcases createSpace_spec h1 hcard habs with ⟨_, u', he'⟩ | ⟨u', fl₃, he', h2, hm⟩
  · simp [hstack] at he'
  obtain ⟨_, rfl⟩ := Prod.mk.inj (Option.some.inj (he'.symm.trans hstack))
  have hpdx : (userStack.map pdx).toFinset = {954} := by rw [userStack_eq]; decide
  refine ⟨d, fl₃, rfl, hd, h2, hap.trans (hm.apart.mono fun d' hd' => ?_), fun v hv hc => ?_, ?_,
    fun p hp => ?_, ⟨rs, hrs, ?_, fun v hv hs => ?_⟩, fun v hv hs => ?_,
    fun p hp => hnear p (hm.near p hp), fun p hp j => ?_⟩
  · exact Finset.mem_erase.mpr ⟨fun e => hd (e ▸ hd'), Finset.mem_insert_of_mem hd'⟩
  · obtain ⟨va, hva, rfl⟩ := (stackVpn_userStack v).mp hc
    exact hm.own va hva
  · have hten : userStack.length = 10 := by rw [userStack_eq]; rfl
    have hpages := hm.pages
    rw [hten] at hpages
    rw [hfl, List.length_cons]
    omega
  · have hp₂ : p ∉ fl₂ := fun e => hp (by rw [hfl]; exact List.mem_cons_of_mem d (hsuf.subset e))
    rw [hm.keep p hp₂]
    ext y
    rw [mem_mapSites, mem_mapSites]
    by_cases hy : y.1 = d
    · constructor
      · rintro ⟨⟨_, hv⟩, hc, hpr, _⟩
        rw [hy, habs y.2 hv hc] at hpr
        simp at hpr
      · rintro ⟨⟨hyd, _⟩, _⟩
        exact absurd (hy ▸ hyd) hd
    · have hmem : y.1 ∈ (taskSpace (insert d dirs) rsv).dirs ↔ y.1 ∈ (taskSpace dirs rsv).dirs := by
        simp [taskSpace, hy]
      rw [hmem]
      refine and_congr_right fun hyd => ?_
      rw [hap.pte y.1 hyd.1 y.2 hyd.2]
      rfl
  · rw [hm.tables, hset, hpdx, Finset.union_comm, Finset.insert_eq]
  · rw [hm.other v hv fun va hva e => ?_, hent v hv]
    rw [← e, (stackVpn_userStack _).mpr ⟨va, hva, rfl⟩] at hs
    simp at hs
  · obtain ⟨va, hva, rfl⟩ := (stackVpn_userStack v).mp hs
    obtain ⟨p, hp, he'⟩ := hm.perm va hva
    exact ⟨p, by rw [hfl]; exact List.mem_cons_of_mem d (hsuf.subset hp), he'⟩
  · rw [hm.ram p (fun hn => hp (hnear p hn)) j, hram p hp j]

def Kernel.Live (K : Kernel) (pid : Nat) : Prop := pid < nrTasks ∧ (K.tasks pid).state ≠ .free

/-- The page that holds the directory of a task. -/
def Kernel.dir (K : Kernel) (pid : Nat) : Nat := pgnum ((K.tasks pid).pgdir - kernbase)

def Kernel.dirs (K : Kernel) : Finset Nat :=
  ((Finset.range nrTasks).filter fun pid => (K.tasks pid).state ≠ .free).image K.dir

theorem Kernel.mem_dirs {K : Kernel} {d : Nat} :
    d ∈ K.dirs ↔ ∃ pid, K.Live pid ∧ K.dir pid = d := by
  simp [Kernel.dirs, Kernel.Live]

theorem Kernel.card_dirs_le (K : Kernel) : K.dirs.card ≤ 32 := by
  refine Finset.card_image_le.trans ((Finset.card_filter_le _ _).trans ?_)
  simp [nrTasks]

/-- The page of `kern_pgdir`. -/
def Image.kernDir (L : Image) : Nat := pgnum (L.kernPgdir - kernbase)

/-- The allocator's and the reference counts' invariant for the tasks. The pages that `rsv` singles
out belong to the kernel, `kern_pgdir` and its page tables among them. -/
structure TaskInv (L : Image) (rsv : Nat → Prop) (I : Set Nat) (K : Kernel) (fl : List Nat) :
    Prop where
  vm : VmInv (taskSpace K.dirs rsv) I 0 K.mem fl
  npages : K.mem.npages ≤ 65536
  lapic : L.lapic = 0#32 ∨ mmiobase ≤ L.lapic ∧ L.lapic < mmiolim
  kern : kernbase ≤ L.kernPgdir
  kernDir : rsv L.kernDir
  kernTbl : ∀ i < 1024, present (K.mem.ram L.kernDir i) = true → rsv (pgnum (K.mem.ram L.kernDir i))
  pgdir : ∀ pid, K.Live pid → (K.tasks pid).pgdir = kva (K.dir pid)
  inj : ∀ pid pid', K.Live pid → K.Live pid' → K.dir pid = K.dir pid' → pid = pid'

/-- What the calls that concern only the tasks in `T` leave alone. -/
structure Untouched (rsv : Nat → Prop) (T : Set Nat) (K K' : Kernel) : Prop where
  npages : K'.mem.npages = K.mem.npages
  rsv : ∀ p, rsv p → ∀ i, K'.mem.ram p i = K.mem.ram p i
  live : ∀ pid, K.Live pid → pid ∉ T → K'.Live pid
  dir : ∀ pid, K.Live pid → pid ∉ T → K'.dir pid = K.dir pid
  row : ∀ pid, K.Live pid → pid ∉ T → ∀ i < 1024, K'.mem.ram (K.dir pid) i = K.mem.ram (K.dir pid) i
  pte : ∀ pid, K.Live pid → pid ∉ T → ∀ v < 2 ^ 20,
    K'.mem.pteAt (K.dir pid) v = K.mem.pteAt (K.dir pid) v

namespace Untouched

variable {rsv : Nat → Prop} {T : Set Nat} {K K' K'' : Kernel}

theorem refl (rsv : Nat → Prop) (T : Set Nat) (K : Kernel) : Untouched rsv T K K :=
  ⟨rfl, fun _ _ _ => rfl, fun _ h _ => h, fun _ _ _ => rfl, fun _ _ _ _ _ => rfl,
    fun _ _ _ _ _ => rfl⟩

theorem mono {T' : Set Nat} (h : Untouched rsv T K K') (hT : T ⊆ T') : Untouched rsv T' K K' :=
  ⟨h.npages, h.rsv, fun pid hl hn => h.live pid hl fun hm => hn (hT hm),
    fun pid hl hn => h.dir pid hl fun hm => hn (hT hm),
    fun pid hl hn => h.row pid hl fun hm => hn (hT hm),
    fun pid hl hn => h.pte pid hl fun hm => hn (hT hm)⟩

theorem trans (h : Untouched rsv T K K') (k : Untouched rsv T K' K'') : Untouched rsv T K K'' := by
  refine ⟨k.npages.trans h.npages, fun p hp i => (k.rsv p hp i).trans (h.rsv p hp i),
    ?_, ?_, ?_, ?_⟩
  · exact fun pid hl hT => k.live pid (h.live pid hl hT) hT
  · exact fun pid hl hT => (k.dir pid (h.live pid hl hT) hT).trans (h.dir pid hl hT)
  · intro pid hl hT i hi
    have hk := k.row pid (h.live pid hl hT) hT i hi
    rw [h.dir pid hl hT] at hk
    exact hk.trans (h.row pid hl hT i hi)
  · intro pid hl hT v hv
    have hk := k.pte pid (h.live pid hl hT) hT v hv
    rw [h.dir pid hl hT] at hk
    exact hk.trans (h.pte pid hl hT v hv)

theorem of_free {p : Nat} (h : Untouched rsv {p} K K') (hp : ¬ K.Live p) :
    Untouched rsv ∅ K K' := by
  have hne : ∀ pid, K.Live pid → pid ∉ ({p} : Set Nat) := fun pid hl e => hp (e ▸ hl)
  exact ⟨h.npages, h.rsv, fun pid hl _ => h.live pid hl (hne pid hl),
    fun pid hl _ => h.dir pid hl (hne pid hl), fun pid hl _ => h.row pid hl (hne pid hl),
    fun pid hl _ => h.pte pid hl (hne pid hl)⟩

theorem of_apart {mem : Mem} (h : Apart K.dirs rsv K.mem mem) :
    Untouched rsv T K { K with mem := mem } :=
  ⟨h.npages, h.rsv, fun _ hl _ => hl, fun _ _ _ => rfl,
    fun pid hl _ => h.row _ (Kernel.mem_dirs.mpr ⟨pid, hl, rfl⟩),
    fun pid hl _ => h.pte _ (Kernel.mem_dirs.mpr ⟨pid, hl, rfl⟩)⟩

theorem kernDir (h : Untouched rsv T K K') {d : Nat} (hd : rsv d)
    (ht : ∀ i < 1024, present (K.mem.ram d i) = true → rsv (pgnum (K.mem.ram d i))) {v : Nat}
    (hv : v < 2 ^ 20) : K'.mem.pteAt d v = K.mem.pteAt d v := by
  have hi : v / 1024 < 1024 := by omega
  simp only [Mem.pteAt, h.rsv d hd]
  split_ifs with hp
  · exact h.rsv _ (ht _ hi hp) _
  · rfl

end Untouched

/-- `sys_kill` marks the slot and calls `task_free`. -/
def Kernel.released (K : Kernel) (pid : Nat) (mem : Mem) : Kernel :=
  { K with mem := mem }.setTask pid { K.tasks pid with state := .free }

section Slots

variable {K : Kernel} {cpu pid : Nat} {pgdir : Word} {mem : Mem}

theorem live_created (hpid : pid < nrTasks) {q : Nat} :
    (K.created cpu pid pgdir mem).Live q ↔ q = pid ∨ K.Live q := by
  by_cases hq : q = pid
  · simp [Kernel.Live, Kernel.created, Kernel.setTask, hq, hpid]
  · simp [Kernel.Live, Kernel.created, Kernel.setTask, hq]

theorem dir_created_self {d : Nat} (hd : d < 2 ^ 20) :
    (K.created cpu pid (kva d) mem).dir pid = d := by
  simp only [Kernel.dir, Kernel.created, Kernel.setTask, Function.update_self, kva_sub_kernbase]
  exact pgnum_page2pa d hd

theorem dir_created_ne {q : Nat} (hq : q ≠ pid) :
    (K.created cpu pid pgdir mem).dir q = K.dir q := by
  simp [Kernel.dir, Kernel.created, Kernel.setTask, hq]

theorem dirs_created {d : Nat} (hpid : pid < nrTasks) (hfree : (K.tasks pid).state = .free)
    (hd : d < 2 ^ 20) : (K.created cpu pid (kva d) mem).dirs = insert d K.dirs := by
  ext e
  rw [Finset.mem_insert, Kernel.mem_dirs, Kernel.mem_dirs]
  constructor
  · rintro ⟨q, hq, rfl⟩
    by_cases hqp : q = pid
    · exact .inl (by rw [hqp, dir_created_self hd])
    · exact .inr ⟨q, ((live_created hpid).mp hq).resolve_left hqp, (dir_created_ne hqp).symm⟩
  · rintro (rfl | ⟨q, hq, rfl⟩)
    · exact ⟨pid, (live_created hpid).mpr (.inl rfl), dir_created_self hd⟩
    · have hqp : q ≠ pid := fun e => hq.2 (e ▸ hfree)
      exact ⟨q, (live_created hpid).mpr (.inr hq), dir_created_ne hqp⟩

theorem live_released {q : Nat} : (K.released pid mem).Live q ↔ q ≠ pid ∧ K.Live q := by
  by_cases hq : q = pid
  · simp [Kernel.Live, Kernel.released, Kernel.setTask, hq]
  · simp [Kernel.Live, Kernel.released, Kernel.setTask, hq]

theorem dir_released (q : Nat) : (K.released pid mem).dir q = K.dir q := by
  by_cases hq : q = pid
  · simp [Kernel.dir, Kernel.released, Kernel.setTask, hq]
  · simp [Kernel.dir, Kernel.released, Kernel.setTask, hq]

theorem dirs_released (hpid : K.Live pid)
    (hinj : ∀ q q', K.Live q → K.Live q' → K.dir q = K.dir q' → q = q') :
    (K.released pid mem).dirs = K.dirs.erase (K.dir pid) := by
  ext e
  rw [Finset.mem_erase, Kernel.mem_dirs, Kernel.mem_dirs]
  constructor
  · rintro ⟨q, hq, rfl⟩
    obtain ⟨hne, hq⟩ := live_released.mp hq
    rw [dir_released]
    exact ⟨fun e => hne (hinj q pid hq hpid e), q, hq, rfl⟩
  · rintro ⟨hne, q, hq, rfl⟩
    exact ⟨q, live_released.mpr ⟨fun e => hne (by rw [e]), hq⟩, dir_released q⟩

end Slots

/-- The user stack of task `pid` is mapped nowhere else. -/
def Kernel.OwnStack (K : Kernel) (rsv : Nat → Prop) (pid : Nat) : Prop :=
  Private (taskSpace K.dirs rsv) K.mem (K.dir pid)

/-- Memory `mem` is that of `K` with the regions `rs` mapped for task `pid`: the rest, the user
stacks and the other tasks are as they were. -/
structure Mapped (rsv : Nat → Prop) (K : Kernel) (fl : List Nat) (pid : Nat) (rs : List Region)
    (mem : Mem) (fl' : List Nat) : Prop where
  untouched : Untouched rsv {pid} K { K with mem := mem }
  frame : Frame (taskSpace K.dirs rsv) K.mem mem
  near : Local (K.dir pid) K.mem fl mem fl'
  stack : ∀ q, K.Live q → ∀ v < 2 ^ 20, stackVpn v = true →
    mem.pteAt (K.dir q) v = K.mem.pteAt (K.dir q) v
  pages : fl.length + tabs K.mem (K.dir pid) = fl'.length + tabs mem (K.dir pid)
  entry : ∀ v < 2 ^ 20, mem.pteAt (K.dir pid) v = regionsEntry rs (K.mem.pteAt (K.dir pid) v) v

theorem Mapped.trans {rsv : Nat → Prop} {K : Kernel} {fl fl' fl'' : List Nat} {pid : Nat}
    {rs rs' : List Region} {m m' : Mem} (h : Mapped rsv K fl pid rs m fl')
    (k : Mapped rsv { K with mem := m } fl' pid rs' m' fl'') :
    Mapped rsv K fl pid (rs ++ rs') m' fl'' := by
  refine ⟨h.untouched.trans k.untouched, h.frame.trans k.frame, h.near.trans k.near,
    fun q hq v hv hs => (k.stack q hq v hv hs).trans (h.stack q hq v hv hs),
    h.pages.trans k.pages, fun v hv => ?_⟩
  have he : m'.pteAt (K.dir pid) v = regionsEntry rs' (m.pteAt (K.dir pid) v) v := k.entry v hv
  rw [he, h.entry v hv, regionsEntry_append]

/-- The pages that `task_free` of a task with a stack of its own gives back. -/
def Kernel.Owned (K : Kernel) (pid p : Nat) : Prop :=
  p = K.dir pid ∨
    (∃ i < 1024, present (K.mem.ram (K.dir pid) i) = true ∧ pgnum (K.mem.ram (K.dir pid) i) = p) ∨
    ∃ v < 2 ^ 20, stackVpn v = true ∧ pgnum (K.mem.pteAt (K.dir pid) v) = p

inductive TaskOp where
  | create (pid : Nat)
  | setupvm (pid : Nat) (start size : Word)
  | free (pid : Nat)
  deriving DecidableEq

/-- The task that a call works on. A new task is none of those that exist already. -/
def TaskOp.touches : TaskOp → Set Nat
  | .create _ => ∅
  | .setupvm pid _ _ => {pid}
  | .free pid => {pid}

/-- Successful calls on the address spaces of the tasks. -/
inductive TaskStep (L : Image) : Kernel → TaskOp → Kernel → Prop
  | create {K K' : Kernel} {cpu pid : Nat} :
      taskCreate L cpu K = some ((pid : Int), K') → TaskStep L K (.create pid) K'
  | setupvm {K : Kernel} {pid : Nat} {start size : Word} {mem : Mem} :
      K.Live pid → kernbase ≤ start → start.toNat + (roundup size pgsize).toNat ≤ 2 ^ 32 →
      setupvm (K.tasks pid).pgdir start size K.mem = some mem →
      TaskStep L K (.setupvm pid start size) { K with mem := mem }
  | free {K : Kernel} {pid : Nat} {mem : Mem} :
      K.Live pid → taskFree L (K.tasks pid).pgdir K.mem = some mem →
      TaskStep L K (.free pid) (K.released pid mem)

namespace TaskInv

variable {L : Image} {rsv : Nat → Prop} {I : Set Nat} {K : Kernel} {fl : List Nat}

theorem dir_mem (_h : TaskInv L rsv I K fl) {pid : Nat} (hl : K.Live pid) : K.dir pid ∈ K.dirs :=
  Kernel.mem_dirs.mpr ⟨pid, hl, rfl⟩

theorem dir_lt (h : TaskInv L rsv I K fl) {pid : Nat} (hl : K.Live pid) : K.dir pid < 65536 :=
  (h.vm.dir _ (h.dir_mem hl)).1.trans_le h.npages

theorem stack_notMem (h : TaskInv L rsv I K fl) {pid v : Nat} (hl : K.Live pid) (hv : v < 2 ^ 20)
    (hc : stackVpn v = true) (ho : K.OwnStack rsv pid) :
    pgnum (K.mem.pteAt (K.dir pid) v) ∉ fl :=
  (h.vm.mapped _ (h.dir_mem hl) v hv hc (ho v hv hc).1).used

theorem kernTbl_of (h : TaskInv L rsv I K fl) {mem : Mem}
    (hr : ∀ p, rsv p → ∀ i, mem.ram p i = K.mem.ram p i) :
    ∀ i < 1024, present (mem.ram L.kernDir i) = true → rsv (pgnum (mem.ram L.kernDir i)) := by
  intro i hi hp
  rw [hr _ h.kernDir] at hp ⊢
  exact h.kernTbl i hi hp

theorem created (h : TaskInv L rsv I K fl) (cpu : Nat) {pid : Nat} {pgdir : Word} {s mem : Mem}
    (hpid : pid < nrTasks) (hfree : (K.tasks pid).state = .free)
    (hkvm : setupkvm L K.mem = some (some pgdir, s))
    (hstack : mapUserStack pgdir userStack s = some (true, mem)) :
    ∃ fl', TaskInv L rsv I (K.created cpu pid pgdir mem) fl' ∧
      Untouched rsv ∅ K (K.created cpu pid pgdir mem) ∧
      (K.created cpu pid pgdir mem).OwnStack rsv pid ∧
      NewSpace L K.dirs rsv I K.mem fl ((K.created cpu pid pgdir mem).dir pid) mem fl' ∧
      ∀ q, K.Live q → K.OwnStack rsv q → (K.created cpu pid pgdir mem).OwnStack rsv q := by
  obtain ⟨d, fl', rfl, hspace⟩ := createdSpace h.vm h.npages K.card_dirs_le h.lapic hkvm hstack
  have hd := hspace.fresh
  have h1 := hspace.inv
  have hap := hspace.apart
  have hd20 : d < 2 ^ 20 := h1.dir_lt (Finset.mem_insert_self d K.dirs)
  have hdirs : (K.created cpu pid (kva d) mem).dirs = insert d K.dirs :=
    dirs_created hpid hfree hd20
  have hself : (K.created cpu pid (kva d) mem).dir pid = d := dir_created_self hd20
  have hne : ∀ q, K.Live q → q ≠ pid := fun q hq e => hq.2 (e ▸ hfree)
  have hold : ∀ q, K.Live q → (K.created cpu pid (kva d) mem).dir q = K.dir q := fun q hq =>
    dir_created_ne (hne q hq)
  have hnew : ∀ q, K.Live q → K.dir q ≠ d := fun q hq e => hd (e ▸ h.dir_mem hq)
  refine ⟨fl', ⟨?_, ?_, h.lapic, h.kern, h.kernDir, h.kernTbl_of hap.rsv, ?_, ?_⟩,
    ⟨hap.npages, hap.rsv, ?_, fun q hq _ => hold q hq, ?_, ?_⟩, ?_, by rw [hself]; exact hspace, ?_⟩
  · rw [hdirs]
    exact h1
  · exact hap.npages.trans_le h.npages
  · intro q hq
    by_cases hqp : q = pid
    · rw [hqp, hself]
      simp [Kernel.created, Kernel.setTask]
    · rw [dir_created_ne hqp, ← h.pgdir q (((live_created hpid).mp hq).resolve_left hqp)]
      simp [Kernel.created, Kernel.setTask, hqp]
  · intro q q' hq hq' he
    rcases (live_created hpid).mp hq with hqp | hl <;>
      rcases (live_created hpid).mp hq' with hqp' | hl'
    · exact hqp.trans hqp'.symm
    · rw [hqp, hself, hold q' hl'] at he
      exact absurd he.symm (hnew q' hl')
    · rw [hqp', hself, hold q hl] at he
      exact absurd he (hnew q hl)
    · rw [hold q hl, hold q' hl'] at he
      exact h.inj q q' hl hl' he
  · exact fun q hq _ => (live_created hpid).mpr (.inr hq)
  · exact fun q hq _ => hap.row _ (h.dir_mem hq)
  · exact fun q hq _ => hap.pte _ (h.dir_mem hq)
  · rw [Kernel.OwnStack, hdirs, hself]
    exact hspace.own
  · intro q hq ho v hv hc
    have hpte : mem.pteAt (K.dir q) v = K.mem.pteAt (K.dir q) v := hap.pte _ (h.dir_mem hq) v hv
    obtain ⟨hp, hs⟩ := ho v hv hc
    rw [hold q hq, hdirs]
    change present (mem.pteAt (K.dir q) v) = true ∧ _ = _
    have hmap := hspace.keep _ (h.stack_notMem hq hv hc ho)
    rw [hpte]
    refine ⟨hp, ?_⟩
    change mapSites _ mem (pgnum (mem.pteAt (K.dir q) v)) = _
    rw [hpte, hmap, hs]

/-- Sections at or above `KERNBASE` are above the user stack. -/
theorem static_above {start size : Word} (hstart : kernbase ≤ start)
    (hend : start.toNat + (roundup size pgsize).toNat ≤ 2 ^ 32) :
    ∀ k < (roundup size pgsize).toNat / 4096, stackVpn (vpnAt start k) = false := by
  intro k hk
  have hb : kernbase.toNat = 4026531840 := by decide
  have hle := BitVec.le_def.mp hstart
  by_contra hc
  rw [Bool.not_eq_false, stackVpn_iff, vpnAt, pgnum_eq] at hc
  omega

theorem remapped (h : TaskInv L rsv I K fl) {pid : Nat} {start size : Word} {mem : Mem}
    (hl : K.Live pid) (hstart : kernbase ≤ start)
    (hend : start.toNat + (roundup size pgsize).toNat ≤ 2 ^ 32)
    (hs : setupvm (K.tasks pid).pgdir start size K.mem = some mem) :
    ∃ fl', TaskInv L rsv I { K with mem := mem } fl' ∧
      Mapped rsv K fl pid [sectionRegion start size] mem fl' ∧ start.toNat % 4096 = 0 ∧
      ∀ q, K.Live q → K.OwnStack rsv q → Kernel.OwnStack { K with mem := mem } rsv q := by
  have hc := static_above hstart hend
  rw [h.pgdir pid hl] at hs
  have hd : K.dir pid ∈ (taskSpace K.dirs rsv).dirs := h.dir_mem hl
  obtain ⟨fl', h1, hg, hal, hout, hin⟩ := h.vm.setupvm_some hd hc hs
  have hap := Apart.of_grows hg
  have hne : ∀ q, K.Live q → q ∉ ({pid} : Set Nat) →
      K.dir q ∈ (taskSpace K.dirs rsv).dirs.erase (K.dir pid) := by
    intro q hq hT
    exact Finset.mem_erase.mpr ⟨fun e => hT (h.inj q pid hq hl e), h.dir_mem hq⟩
  have hstack : ∀ d ∈ K.dirs, ∀ v < 2 ^ 20, stackVpn v = true →
      mem.pteAt d v = K.mem.pteAt d v := by
    intro d hdm v hv hcv
    by_cases he : d = K.dir pid
    · rw [he]
      refine hout v hv fun k hk e => ?_
      rw [e] at hcv
      exact Bool.false_ne_true ((hc k hk).symm.trans hcv)
    · exact hap.pte d (Finset.mem_erase.mpr ⟨he, hdm⟩) v hv
  have hentry : ∀ v < 2 ^ 20, mem.pteAt (K.dir pid) v =
      regionsEntry [sectionRegion start size] (K.mem.pteAt (K.dir pid) v) v := fun v hv => by
    rw [regionsEntry_cons, ← Region.entry_getD (r := sectionRegion start size) hout hin hv]
    rfl
  refine ⟨fl', ⟨h1, hap.npages.trans_le h.npages, h.lapic, h.kern, h.kernDir, h.kernTbl_of hap.rsv,
    h.pgdir, h.inj⟩, ⟨⟨hap.npages, hap.rsv, fun _ hq _ => hq, fun _ _ _ => rfl, ?_, ?_⟩,
    hg.toFrame, hg.toLocal, fun q hq => hstack _ (h.dir_mem hq), hg.pages, hentry⟩, hal, ?_⟩
  · exact fun q hq hT => hap.row _ (hne q hq hT)
  · exact fun q hq hT => hap.pte _ (hne q hq hT)
  · intro q hq ho v hv hcv
    have hpte : mem.pteAt (K.dir q) v = K.mem.pteAt (K.dir q) v := hstack _ (h.dir_mem hq) v hv hcv
    have hsites : ∀ p, mapSites (taskSpace K.dirs rsv) mem p = mapSites
        (taskSpace K.dirs rsv) K.mem p := by
      intro p
      ext y
      rw [mem_mapSites, mem_mapSites]
      refine and_congr_right fun hy => and_congr_right fun hcy => ?_
      rw [hstack y.1 hy.1 y.2 hy.2 hcy]
    obtain ⟨hp, hone⟩ := ho v hv hcv
    change present (mem.pteAt (K.dir q) v) = true ∧
      mapSites (taskSpace K.dirs rsv) mem (pgnum (mem.pteAt (K.dir q) v)) = {(K.dir q, v)}
    rw [hpte, hsites]
    exact ⟨hp, hone⟩

theorem freed (h : TaskInv L rsv I K fl) {pid : Nat} (hl : K.Live pid) :
    ∃ mem l, taskFree L (K.tasks pid).pgdir K.mem = some mem ∧
      TaskInv L rsv I (K.released pid mem) (l ++ fl) ∧
      Untouched rsv {pid} K (K.released pid mem) ∧
      (∀ q, q ≠ pid → K.Live q → K.OwnStack rsv q → (K.released pid mem).OwnStack rsv q) ∧
      (K.OwnStack rsv pid → ∀ p, p ∈ l ↔ K.Owned pid p) := by
  obtain ⟨mem, l, he, h1, hap, hlist⟩ :=
    taskFree_spec h.vm h.npages K.card_dirs_le h.kern (h.dir_mem hl)
  have hdirs : (K.released pid mem).dirs = K.dirs.erase (K.dir pid) := dirs_released hl h.inj
  have hmem : ∀ q, q ≠ pid → K.Live q → K.dir q ∈ K.dirs.erase (K.dir pid) := fun q hne hq =>
    Finset.mem_erase.mpr ⟨fun e => hne (h.inj q pid hq hl e), h.dir_mem hq⟩
  refine ⟨mem, l, by rw [h.pgdir pid hl]; exact he,
    ⟨?_, hap.npages.trans_le h.npages, h.lapic, h.kern,
    h.kernDir, h.kernTbl_of hap.rsv, ?_, ?_⟩, ⟨hap.npages, hap.rsv, ?_, ?_, ?_, ?_⟩, ?_, hlist⟩
  · rw [hdirs]
    exact h1
  · intro q hq
    obtain ⟨hne, hq⟩ := live_released.mp hq
    rw [dir_released, ← h.pgdir q hq]
    simp [Kernel.released, Kernel.setTask, hne]
  · intro q q' hq hq' e
    rw [dir_released, dir_released] at e
    exact h.inj q q' (live_released.mp hq).2 (live_released.mp hq').2 e
  · exact fun q hq hT => live_released.mpr ⟨hT, hq⟩
  · exact fun q _ _ => dir_released q
  · exact fun q hq hT => hap.row _ (hmem q hT hq)
  · exact fun q hq hT => hap.pte _ (hmem q hT hq)
  · intro q hne hq ho v hv hc
    have hpte : mem.pteAt (K.dir q) v = K.mem.pteAt (K.dir q) v := hap.pte _ (hmem q hne hq) v hv
    obtain ⟨hp, hone⟩ := ho v hv hc
    rw [dir_released, hdirs]
    change present (mem.pteAt (K.dir q) v) = true ∧
      mapSites (taskSpace (K.dirs.erase (K.dir pid)) rsv) mem (pgnum (mem.pteAt (K.dir q) v)) =
        {(K.dir q, v)}
    rw [hpte]
    refine ⟨hp, ?_⟩
    ext y
    rw [← hone, mem_mapSites, mem_mapSites]
    constructor
    · rintro ⟨⟨hyd, hv'⟩, hrest⟩
      rw [hap.pte y.1 hyd y.2 hv'] at hrest
      exact ⟨⟨Finset.mem_of_mem_erase hyd, hv'⟩, hrest⟩
    · intro hy
      have hyq : y = (K.dir q, v) := by
        have : y ∈ ({(K.dir q, v)} : Finset (Nat × Nat)) := hone ▸ mem_mapSites.mpr hy
        simpa using this
      subst hyq
      refine ⟨⟨hmem q hne hq, hv⟩, ?_⟩
      rw [hap.pte _ (hmem q hne hq) v hv]
      exact hy.2

theorem step (h : TaskInv L rsv I K fl) {op : TaskOp} {K' : Kernel} (hs : TaskStep L K op K') :
    ∃ fl', TaskInv L rsv I K' fl' ∧ Untouched rsv op.touches K K' ∧
      ∀ q, op ≠ .free q → K.Live q → K'.Live q ∧ (K.OwnStack rsv q → K'.OwnStack rsv q) := by
  cases hs with
  | create hc =>
    obtain ⟨_, ⟨hneg, _⟩ | ⟨pid', pgdir, s, mem, he, hpid, hfree, hkvm, hstack, rfl⟩⟩ :=
      taskCreate_cases hc
    · omega
    obtain ⟨fl', h1, hu, _, _, hown⟩ := h.created _ hpid hfree hkvm hstack
    exact ⟨fl', h1, hu, fun q _ hq => ⟨hu.live q hq (by simp), hown q hq⟩⟩
  | setupvm hl hstart hend hs =>
    obtain ⟨fl', h1, hm, _, hown⟩ := h.remapped hl hstart hend hs
    exact ⟨fl', h1, hm.untouched, fun q _ hq => ⟨hq, hown q hq⟩⟩
  | free hl hf =>
    obtain ⟨mem, l, he, h1, hu, hown, _⟩ := h.freed hl
    obtain rfl := Option.some.inj (he.symm.trans hf)
    refine ⟨l ++ fl, h1, hu, fun q hne hq => ?_⟩
    have hqp : q ≠ _ := fun e => hne (by rw [e])
    exact ⟨live_released.mpr ⟨hqp, hq⟩, hown q hqp hq⟩

theorem run (h : TaskInv L rsv I K fl) {ops : List TaskOp} {K' : Kernel} {T : Set Nat}
    (hrun : Reach (TaskStep L) K ops K') (hT : ∀ op ∈ ops, op.touches ⊆ T) :
    ∃ fl', TaskInv L rsv I K' fl' ∧ Untouched rsv T K K' ∧
      ∀ q, .free q ∉ ops → K.Live q → K'.Live q ∧ (K.OwnStack rsv q → K'.OwnStack rsv q) := by
  induction hrun with
  | init => exact ⟨fl, h, Untouched.refl rsv T K, fun _ _ hq => ⟨hq, id⟩⟩
  | snoc _ hs ih =>
    obtain ⟨fl₁, h1, hu, hk⟩ := ih fun op hop => hT op (by simp [hop])
    obtain ⟨fl₂, h2, hu', hk'⟩ := h1.step hs
    refine ⟨fl₂, h2, hu.trans (hu'.mono (hT _ (by simp))), fun q hq hl => ?_⟩
    simp only [List.mem_append, List.mem_singleton, not_or] at hq
    obtain ⟨hl1, ho1⟩ := hk q hq.1 hl
    obtain ⟨hl2, ho2⟩ := hk' q (Ne.symm hq.2) hl1
    exact ⟨hl2, ho2 ∘ ho1⟩

/-- `task_create` returns a task id when there are enough free pages for the directory, the page
tables and the stack. -/
theorem create_progress (h : TaskInv L rsv I K fl) (cpu pid : Nat) (hlock : K.taskLock = false)
    (hfind : (List.range nrTasks).find? (fun pid => (K.tasks pid).state == .free) = some pid)
    {rs : List Region} (hrs : kvmRegions L K.mem.npages = some rs)
    (hlen : pagesNeeded rs ≤ fl.length) :
    ∃ pgdir s mem, setupkvm L K.mem = some (some pgdir, s) ∧
      mapUserStack pgdir userStack s = some (true, mem) ∧
      taskCreate L cpu K = some ((pid : Int), K.created cpu pid pgdir mem) := by
  rw [pagesNeeded] at hlen
  have hle : (regionsTables rs).card ≤ (insert 954 (regionsTables rs)).card :=
    Finset.card_le_card (Finset.subset_insert _ _)
  rcases setupkvm_spec h.vm h.npages h.lapic with
    ⟨hno, _⟩ | ⟨rs', d, fl₁, t, fl₂, hrs', hfl, hkvm, _, h1, _, _, hent, hset, hlen₂, _, _⟩
  · have := hno rs hrs
    omega
  cases hrs.symm.trans hrs'
  rw [hfl, List.length_cons] at hlen
  have habs : ∀ v < 2 ^ 20, stackVpn v = true → t.pteAt d v = 0#32 := fun v hv hs => by
    rw [hent v hv, regionsEntry_stack h.npages h.lapic hrs _ hv hs]
  rcases createSpace_spec h1 K.card_dirs_le habs with ⟨hlt, _⟩ | ⟨u, _, hstack, _, _⟩
  · rw [hset] at hlt
    omega
  exact ⟨kva d, t, u, hkvm, hstack, taskCreate_some hlock hfind hkvm hstack⟩

/-- `setupvm` succeeds on a page-aligned section when the page tables above `KERNBASE` are there. -/
theorem setupvm_progress (h : TaskInv L rsv I K fl) {pid : Nat} (start size : Word)
    (hl : K.Live pid) (hstart : kernbase ≤ start) (hal : start.toNat % 4096 = 0)
    (hpos : 4096 ≤ (roundup size pgsize).toNat)
    (hend : start.toNat + (roundup size pgsize).toNat ≤ 2 ^ 32)
    (htab : KernTables K.mem (K.dir pid)) :
    ∃ mem, setupvm (K.tasks pid).pgdir start size K.mem = some mem := by
  rw [h.pgdir pid hl]
  have hsub : pageTables start ((roundup size pgsize).toNat / 4096) ⊆ tableSlots K.mem
      (K.dir pid) := by
    intro i hi
    obtain ⟨k, hk, rfl⟩ := mem_pageTables.mp hi
    have hb : kernbase.toNat = 4026531840 := by decide
    have hle := BitVec.le_def.mp hstart
    have hv := vpnAt_lt start k
    have hlow : 983040 ≤ vpnAt start k := by
      rw [vpnAt, pgnum_eq]
      omega
    exact mem_tableSlots.mpr ⟨by omega, htab _ (by omega) (by omega)⟩
  refine h.vm.setupvm_progress (h.dir_mem hl) hstart hal hpos (static_above hstart hend) ?_
  rw [Finset.union_eq_left.mpr hsub, tabs_eq]
  omega

end TaskInv

/-- The free pages are determined by the directories, the references and the idle pages. -/
theorem VmInv.mem_free_iff {G : Space} {I : Set Nat} {s : Mem} {fl : List Nat}
    (h : VmInv G I 0 s fl) (p : Nat) :
    p ∈ fl ↔ p < s.npages ∧ ¬ G.rsv p ∧ p ∉ G.dirs ∧ p ∉ I ∧ refs G s p = 0 := by
  constructor
  · intro hp
    exact ⟨h.free.lt p hp, h.pool p hp, fun hd => (h.dir p hd).2.2 hp, h.notMem_idle hp,
      h.refs_free hp⟩
  · rintro ⟨hlt, hr, hd, hI, hz⟩
    by_contra hp
    have ht : ¬ IsTable G s p := by
      rintro ⟨d, hdm, i, hi, hpr, he⟩
      have hpos : 0 < (tableSites G s p).card :=
        Finset.card_pos.mpr ⟨(d, i), mem_tableSites.mpr ⟨⟨hdm, hi⟩, hpr, he⟩⟩
      rw [refs] at hz
      omega
    exact hI ((h.idle p).mpr ⟨⟨hlt, hr, hp, hd, ht⟩, hz⟩)

/-- Two states with the same directories and translations have the same free pages. -/
theorem VmInv.free_congr {G : Space} {I : Set Nat} {s t : Mem} {fl fl' : List Nat}
    (h : VmInv G I 0 s fl) (h' : VmInv G I 0 t fl') (hap : Apart G.dirs G.rsv s t) :
    (∀ p, p ∈ fl' ↔ p ∈ fl) ∧ t.numFreePages = s.numFreePages := by
  have hmem : ∀ p, p ∈ fl' ↔ p ∈ fl := by
    intro p
    rw [h.mem_free_iff, h'.mem_free_iff, refs, refs, mapSites_congr hap.pte,
      tableSites_congr hap.row, hap.npages]
  have hperm : fl'.Perm fl := (List.perm_ext_iff_of_nodup h'.free.nodup h.free.nodup).mpr hmem
  exact ⟨hmem, by rw [h.free.num, h'.free.num, hperm.length_eq]⟩

theorem tasks_of_setupvm {L : Image} {K K' : Kernel} {ops : List TaskOp} {pid : Nat}
    (hrun : Reach (TaskStep L) K ops K')
    (honly : ∀ op ∈ ops, ∃ start size, op = .setupvm pid start size) : K'.tasks = K.tasks := by
  induction hrun with
  | init => rfl
  | snoc _ hs ih =>
    rw [← ih fun op hop => honly op (by simp [hop])]
    obtain ⟨start, size, rfl⟩ := honly _ (List.mem_append_right _ (List.mem_singleton_self _))
    cases hs
    rfl

theorem taskInv_boot (b : Boot) (ram : Nat → Nat → Word) (L : Image) (ncpu : Nat)
    (hnp : b.npages.toNat ≤ 65536) (hnext : kernbase ≤ b.nextfree)
    (hlapic : L.lapic = 0#32 ∨ mmiobase ≤ L.lapic ∧ L.lapic < mmiolim)
    (hkern : kernbase ≤ L.kernPgdir) (hdir : madeFree b L.kernDir = false)
    (htbl : ∀ i < 1024, present (ram L.kernDir i) = true →
      madeFree b (pgnum (ram L.kernDir i)) = false) :
    ∃ s₀, pageInit b (bootMem b ram) = some s₀ ∧ s₀.npages = b.npages.toNat ∧
      TaskInv L (fun p => madeFree b p = false) ∅ (taskInit s₀ ncpu)
        ((List.range b.npages.toNat).filter (madeFree b)).reverse := by
  obtain ⟨s₀, hs₀, hn, hram, h⟩ := VmInv.boot b ram stackVpn (hnp.trans (by decide)) hnext
  have hlive : ∀ pid, ¬ (taskInit s₀ ncpu).Live pid := fun pid hl => hl.2 rfl
  have hdirs : (taskInit s₀ ncpu).dirs = ∅ :=
    Finset.eq_empty_of_forall_notMem fun d hd => by
      obtain ⟨pid, hl, _⟩ := Kernel.mem_dirs.mp hd
      exact hlive pid hl
  refine ⟨s₀, hs₀, hn, ⟨?_, hn.trans_le hnp, hlapic, hkern, hdir, ?_, ?_, ?_⟩⟩
  · rw [hdirs]
    exact h
  · change ∀ i < 1024, present (s₀.ram L.kernDir i) = true →
      madeFree b (pgnum (s₀.ram L.kernDir i)) = false
    rw [hram]
    exact htbl
  · exact fun pid hl => absurd hl (hlive pid)
  · exact fun pid _ hl => absurd hl (hlive pid)

/-- A machine with 32 MB, the kernel below 4 MB and `kern_pgdir` on page 512. -/
def smallBoot : Boot := ⟨8192#32, 160#32, 0xF0400000#32⟩

def smallImage : Image where
  pages := 0xF0300000#32
  bootstack := 0xF0210000#32
  percpuKstacks := 0xF0220000#32
  kernPgdir := 0xF0200000#32
  lapic := 0#32
  lapicaddr := 0#32
  utext := (0xF0180000#32, 0xF0181000#32)
  udata := (0xF0181000#32, 0xF0182000#32)
  ubss := (0xF0182000#32, 0xF0183000#32)
  urodata := (0xF0183000#32, 0xF0184000#32)
  userEntry := 0xF0180000#32
  idleEntry := 0xF0180100#32
  bootcpu := 0

theorem small_free :
    7000 ≤ ((List.range smallBoot.npages.toNat).filter (madeFree smallBoot)).reverse.length := by
  have hle : 7000 ≤ smallBoot.npages.toNat - 1024 := by decide
  exact hle.trans (length_madeFree smallBoot (by decide) (by decide) (by decide))

theorem taskInv_small (ncpu : Nat) :
    ∃ s₀ fl, pageInit smallBoot (bootMem smallBoot fun _ _ => 0#32) = some s₀ ∧
      s₀.npages = 8192 ∧ 7000 ≤ fl.length ∧
      TaskInv smallImage (fun p => madeFree smallBoot p = false) ∅ (taskInit s₀ ncpu) fl := by
  obtain ⟨s₀, hs₀, hn, h⟩ := taskInv_boot smallBoot (fun _ _ => 0#32) smallImage ncpu (by decide)
    (by decide) (.inl rfl) (by decide) (by decide) (by simp)
  exact ⟨s₀, _, hs₀, hn, small_free, h⟩

/-- Teardown gives back what creation took: the directory, the page tables and the stack pages of
the task, each once and nothing else. -/
theorem taskFree_undoes_taskCreate {L : Image} {rsv : Nat → Prop} {I : Set Nat} {K K₁ K₂ : Kernel}
    {fl : List Nat} {cpu pid : Nat} {ops : List TaskOp} (h : TaskInv L rsv I K fl)
    (hc : taskCreate L cpu K = some ((pid : Int), K₁)) (hrun : Reach (TaskStep L) K₁ ops K₂)
    (hpid : .free pid ∉ ops) :
    ∃ mem l fl₂, taskFree L (K₂.tasks pid).pgdir K₂.mem = some mem ∧
      FreeList K₂.mem fl₂ ∧ FreeList mem (l ++ fl₂) ∧ (l ++ fl₂).Nodup ∧
      (∀ p, p ∈ l ↔ K₂.Owned pid p) ∧ TaskInv L rsv I (K₂.released pid mem) (l ++ fl₂) ∧
      ((∀ op ∈ ops, ∃ start size, op = .setupvm pid start size) →
        (∀ p, p ∈ l ++ fl₂ ↔ p ∈ fl) ∧ mem.numFreePages = K.mem.numFreePages) ∧
      (∀ q, K.Live q → (∀ op ∈ ops, q ∉ op.touches) → ∀ v < 2 ^ 20,
        K₁.mem.pteAt (K.dir q) v = K.mem.pteAt (K.dir q) v ∧
        K₂.mem.pteAt (K.dir q) v = K.mem.pteAt (K.dir q) v ∧
        mem.pteAt (K.dir q) v = K.mem.pteAt (K.dir q) v) ∧
      ∀ v < 2 ^ 20, K₁.mem.pteAt L.kernDir v = K.mem.pteAt L.kernDir v ∧
        K₂.mem.pteAt L.kernDir v = K.mem.pteAt L.kernDir v ∧
        mem.pteAt L.kernDir v = K.mem.pteAt L.kernDir v := by
  obtain ⟨_, ⟨hneg, _⟩ | ⟨pid', pgdir, s, mem₁, he, hlt, hfree, hkvm, hstack, rfl⟩⟩ :=
    taskCreate_cases hc
  · omega
  obtain rfl : pid = pid' := by omega
  obtain ⟨fl₁, h1, hu₁, hown₁, _, _⟩ := h.created cpu hlt hfree hkvm hstack
  have hlive₁ : (K.created cpu pid pgdir mem₁).Live pid := (live_created hlt).mpr (.inl rfl)
  obtain ⟨fl₂, h2, _, hk₂⟩ := h1.run (T := Set.univ) hrun fun _ _ => Set.subset_univ _
  obtain ⟨hlive₂, hown₂⟩ := hk₂ pid hpid hlive₁
  obtain ⟨mem, l, hf, h3, hu₃, _, hl⟩ := h2.freed hlive₂
  have hne : ∀ q, K.Live q → q ≠ pid := fun q hq e => hq.2 (e ▸ hfree)
  -- the calls from the state before the creation on, as far as they concern only tasks in `T`
  have hupto : ∀ T, (∀ op ∈ ops, op.touches ⊆ T) →
      Untouched rsv T K (K.created cpu pid pgdir mem₁) ∧ Untouched rsv T K K₂ := by
    intro T hT
    obtain ⟨_, _, hu₂, _⟩ := h1.run hrun hT
    have hu₁' := hu₁.mono (Set.empty_subset T)
    exact ⟨hu₁', hu₁'.trans hu₂⟩
  have hall : ∀ T, pid ∈ T → (∀ op ∈ ops, op.touches ⊆ T) →
      Untouched rsv T K (K₂.released pid mem) := fun T hp hT =>
    (hupto T hT).2.trans (hu₃.mono (Set.singleton_subset_iff.mpr hp))
  refine ⟨mem, l, fl₂, hf, h2.vm.free, h3.vm.free, h3.vm.free.nodup, hl (hown₂ hown₁),
    h3, ?_, ?_, ?_⟩
  · intro honly
    have hu := hall {pid} rfl fun op hop => by
      obtain ⟨start, size, rfl⟩ := honly op hop
      exact subset_rfl
    have hsame : (K₂.released pid mem).dirs = K.dirs := by
      have htasks := tasks_of_setupvm hrun honly
      have hlive : ∀ q, K₂.Live q ↔ q = pid ∨ K.Live q := fun q => by
        rw [← live_created hlt, Kernel.Live, Kernel.Live, htasks]
      ext e
      rw [Kernel.mem_dirs, Kernel.mem_dirs]
      refine exists_congr fun q => ?_
      rw [live_released, hlive, dir_released]
      have hdir : q ≠ pid → K₂.dir q = K.dir q := fun hq => by
        have hd : K₂.dir q = (K.created cpu pid pgdir mem₁).dir q := by
          rw [Kernel.dir, Kernel.dir, htasks]
        rw [hd, dir_created_ne hq]
      constructor
      · rintro ⟨⟨hq, hl⟩, rfl⟩
        exact ⟨hl.resolve_left hq, (hdir hq).symm⟩
      · rintro ⟨hl, rfl⟩
        exact ⟨⟨hne q hl, .inr hl⟩, hdir (hne q hl)⟩
    have hvm := h3.vm
    rw [hsame] at hvm
    refine h.vm.free_congr hvm ⟨hu.npages, hu.rsv, ?_, ?_⟩
    · intro d hd
      obtain ⟨q, hq, rfl⟩ := Kernel.mem_dirs.mp hd
      exact hu.row q hq (hne q hq)
    · intro d hd
      obtain ⟨q, hq, rfl⟩ := Kernel.mem_dirs.mp hd
      exact hu.pte q hq (hne q hq)
  · intro q hq hT v hv
    have hT' : ∀ op ∈ ops, op.touches ⊆ {q}ᶜ := fun op hop x hx e => hT op hop (e ▸ hx)
    have hqT : q ∉ ({q}ᶜ : Set Nat) := fun hn => hn rfl
    obtain ⟨hk₁, hk₂⟩ := hupto _ hT'
    have hpT : pid ∈ ({q}ᶜ : Set Nat) := (hne q hq).symm
    exact ⟨hk₁.pte q hq hqT v hv, hk₂.pte q hq hqT v hv, (hall _ hpT hT').pte q hq hqT v hv⟩
  · intro v hv
    have hT : ∀ op ∈ ops, op.touches ⊆ Set.univ := fun _ _ => Set.subset_univ _
    obtain ⟨hk₁, hk₂⟩ := hupto _ hT
    exact ⟨hk₁.kernDir h.kernDir h.kernTbl hv, hk₂.kernDir h.kernDir h.kernTbl hv,
      (hall Set.univ trivial hT).kernDir h.kernDir h.kernTbl hv⟩

/-- The first task of a machine: created, given its text section, and freed. -/
theorem taskFree_undoes_taskCreate_first :
    ∃ s₀ K₁ K₂ mem, pageInit smallBoot (bootMem smallBoot fun _ _ => 0#32) = some s₀ ∧
      taskCreate smallImage 0 (taskInit s₀ 1) = some (0, K₁) ∧
      Reach (TaskStep smallImage) K₁ [.setupvm 0 0xF0180000#32 0x1000#32] K₂ ∧
      taskFree smallImage (K₂.tasks 0).pgdir K₂.mem = some mem ∧
      mem.numFreePages = s₀.numFreePages := by
  obtain ⟨s₀, fl, hs₀, hn, hlen, h⟩ := taskInv_small 1
  have hrs : kvmRegions smallImage (taskInit s₀ 1).mem.npages ≠ none := by
    change kvmRegions smallImage s₀.npages ≠ none
    rw [hn]
    decide
  obtain ⟨rs, hrs⟩ := Option.ne_none_iff_exists'.mp hrs
  obtain ⟨pgdir, s, mem₁, hkvm, hstack, hc⟩ :=
    h.create_progress 0 0 rfl rfl hrs ((pagesNeeded_le rs).trans (by omega))
  have hzero : 0 < nrTasks := by decide
  obtain ⟨fl₁, h1, _, _, hspace, _⟩ := h.created 0 hzero rfl hkvm hstack
  have hlive : ((taskInit s₀ 1).created 0 0 pgdir mem₁).Live 0 :=
    (live_created hzero).mpr (.inl rfl)
  obtain ⟨rs', hrs', hslots, _⟩ := hspace.regions
  obtain ⟨mem₂, hvm⟩ := h1.setupvm_progress 0xF0180000#32 0x1000#32 hlive (by decide) (by decide)
    (by decide) (by decide) (kernTables_of_regions hrs' hslots)
  have hrun : Reach (TaskStep smallImage) ((taskInit s₀ 1).created 0 0 pgdir mem₁)
      ([] ++ [.setupvm 0 0xF0180000#32 0x1000#32]) _ :=
    Reach.init.snoc (.setupvm hlive (by decide) (by decide) hvm)
  obtain ⟨mem, l, fl₂, hf, _, _, _, _, _, hback, _⟩ :=
    taskFree_undoes_taskCreate h hc hrun (by simp)
  have hnum := (hback fun op hop => ⟨_, _, by simpa using hop⟩).2
  exact ⟨s₀, _, _, mem, hs₀, hc, hrun, hf, hnum⟩

end NctuCourses.Osdi
