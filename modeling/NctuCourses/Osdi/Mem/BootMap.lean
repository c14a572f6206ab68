import NctuCourses.Osdi.Mem.Mapping

namespace NctuCourses.Osdi

/-- `none` stands for the fault on a null `pte` as well as for a panic in `pgdir_walk`. -/
def bootMapRegion (pgdir va size pa perm : Word) (s : Mem) : Option Mem :=
  if _h : pgsize ≤ size then
    match pgdirWalk pgdir va true s with
    | some (some pte, s) =>
      bootMapRegion pgdir (va + pgsize) (size - pgsize) (pa + pgsize) perm
        (store pte (pa ||| perm ||| pteP) s)
    | _ => none
  else some s
termination_by size.toNat
decreasing_by
  have hs : pgsize.toNat = 4096 := by decide
  rw [BitVec.toNat_sub_of_le _h]
  have hle := BitVec.le_def.mp _h
  omega

def setupvm (pgdir start size : Word) (s : Mem) : Option Mem := do
  let pa ← paddr start
  let s ← bootMapRegion pgdir start (roundup size pgsize) pa (pteW ||| pteU) s
  let r ← checkVa2pa pgdir start s
  if r = pa then some s else none

/-- The loop of `ptable_remove` from slot `i` on, with `n` slots to go. -/
def ptableRemoveFrom (pgdir : Word) : Nat → Nat → Mem → Option Mem
  | 0, _, s => some s
  | n + 1, i, s => do
    let s ← if present (load s (slot pgdir i)) then
        (pa2page s.npages (pteAddr (load s (slot pgdir i)))).bind fun pp => pageDecref pp s
      else some s
    ptableRemoveFrom pgdir n (i + 1) s

def ptableRemove (pgdir : Word) (s : Mem) : Option Mem := ptableRemoveFrom pgdir 1024 0 s

def pgdirRemove (pgdir : Word) (s : Mem) : Option Mem := do
  let pa ← paddr pgdir
  let pp ← pa2page s.npages pa
  pageFree pp s

/-- The linear map at `KERNBASE` has room for 65536 pages. -/
theorem kernbase_le_kva {d : Nat} (hd : d < 65536) : kernbase ≤ kva d := by
  have hkb : kernbase.toNat = 4026531840 := by decide
  rw [BitVec.le_def, kva, BitVec.toNat_add, page2pa_toNat d (by omega), hkb]
  omega

/-- The page number `k` pages after that of `va`. -/
def vpnAt (va : Word) (k : Nat) : Nat := (pgnum va + k) % 2 ^ 20

theorem vpnAt_zero (va : Word) : vpnAt va 0 = pgnum va := by
  have h := pgnum_lt va
  rw [vpnAt]
  omega

theorem pgnum_vpnAt (va : Word) (k : Nat) :
    pgnum (va + BitVec.ofNat 32 (4096 * k)) = vpnAt va k := by
  have h := va.isLt
  simp only [vpnAt, pgnum_eq, BitVec.toNat_add, BitVec.toNat_ofNat]
  omega

theorem pdx_vpnAt (va : Word) (k : Nat) :
    pdx (va + BitVec.ofNat 32 (4096 * k)) = vpnAt va k / 1024 := by
  rw [← pgnum_vpnAt, pgnum_div]

theorem vpnAt_ne {va : Word} {j k : Nat} (hjk : j < k) (hk : k < 2 ^ 20) :
    vpnAt va j ≠ vpnAt va k := by
  rw [vpnAt, vpnAt]
  omega

theorem vpnAt_lt (va : Word) (k : Nat) : vpnAt va k < 2 ^ 20 := Nat.mod_lt _ (by decide)

/-- The directory slots on the way to the `n` pages from `va` on. -/
def pageTables (va : Word) (n : Nat) : Finset Nat :=
  (Finset.range n).image fun k => vpnAt va k / 1024

theorem mem_pageTables {va : Word} {n i : Nat} :
    i ∈ pageTables va n ↔ ∃ k < n, vpnAt va k / 1024 = i := by
  simp [pageTables]

theorem pageTables_succ (va : Word) (n : Nat) :
    pageTables va (n + 1) = insert (vpnAt va n / 1024) (pageTables va n) := by
  rw [pageTables, Finset.range_add_one, Finset.image_insert, pageTables]

theorem pageTables_union (va : Word) (n : Nat) :
    pageTables va (n + 1) = pageTables va n ∪ {pdx (va + BitVec.ofNat 32 (4096 * n))} := by
  rw [pageTables_succ, Finset.insert_eq, Finset.union_comm, pdx_vpnAt]

/-- The slots of `S ∪ T` that lack a page table (`p`), when those of `S` get theirs first and `q` is
what lacks one afterwards. -/
theorem card_filter_union {p q : Nat → Prop} [DecidablePred p] [DecidablePred q] {S : Finset Nat}
    (h : ∀ i, q i ↔ p i ∧ i ∉ S) (T : Finset Nat) :
    ((S ∪ T).filter p).card = (S.filter p).card + (T.filter q).card := by
  have hsplit : (S ∪ T).filter p = S.filter p ∪ T.filter q := by
    ext i
    simp only [Finset.mem_filter, Finset.mem_union, h i]
    tauto
  have hdisj : Disjoint (S.filter p) (T.filter q) := by
    rw [Finset.disjoint_left]
    intro i hi hi'
    simp only [Finset.mem_filter, h i] at hi hi'
    exact hi'.2.2 hi.1
  rw [hsplit, Finset.card_union_of_disjoint hdisj]

theorem pageTables_mono {va : Word} {k n : Nat} (h : k ≤ n) : pageTables va k ⊆ pageTables va n :=
  Finset.image_subset_image (Finset.range_subset_range.mpr h)

theorem pageTables_subset (va : Word) (n : Nat) : pageTables va n ⊆ Finset.range 1024 := by
  intro i hi
  obtain ⟨k, _, rfl⟩ := mem_pageTables.mp hi
  have := vpnAt_lt va k
  rw [Finset.mem_range]
  omega

/-- The entries `e` after `k` rounds of `boot_map_region`, when they were `e₀` before. -/
structure MapsRange (va pa perm : Word) (k : Nat) (e₀ e : Nat → Word) : Prop where
  outside : ∀ v < 2 ^ 20, (∀ j < k, v ≠ vpnAt va j) → e v = e₀ v
  inside : ∀ j < k, e (vpnAt va j) = pa + BitVec.ofNat 32 (4096 * j) ||| perm ||| pteP

namespace MapsRange

variable {va pa perm : Word} {k : Nat} {e₀ e e' : Nat → Word}

theorem zero (e : Nat → Word) : MapsRange va pa perm 0 e e := ⟨fun _ _ _ => rfl, by simp⟩

theorem succ (h : MapsRange va pa perm k e₀ e) (hk : k < 2 ^ 20)
    (he : ∀ v < 2 ^ 20, e' v =
      if v = vpnAt va k then pa + BitVec.ofNat 32 (4096 * k) ||| perm ||| pteP else e v) :
    MapsRange va pa perm (k + 1) e₀ e' where
  outside v hv hne := by
    rw [he v hv, if_neg (hne k (by omega))]
    exact h.outside v hv fun j hj => hne j (by omega)
  inside j hj := by
    rcases Nat.lt_succ_iff_lt_or_eq.mp hj with hj | rfl
    · rw [he _ (vpnAt_lt va j), if_neg (vpnAt_ne hj hk)]
      exact h.inside j hj
    · rw [he _ (vpnAt_lt va j), if_pos rfl]

end MapsRange

/-- The loop of `boot_map_region`: `P k` holds after `k` rounds. A round that gets no
page table is the last one. -/
theorem bootMapRegion_loop (out : Prop) (pgdir va size pa perm : Word) {n : Nat}
    (hn : size.toNat / 4096 = n) (P : Nat → Mem → Prop)
    (hstep : ∀ k < n, ∀ s, P k s →
      (out ∧ ∃ t, pgdirWalk pgdir (va + BitVec.ofNat 32 (4096 * k)) true s = some (none, t)) ∨
      ∃ pte t, pgdirWalk pgdir (va + BitVec.ofNat 32 (4096 * k)) true s = some
      (some pte, t) ∧ P (k + 1) (store pte (pa + BitVec.ofNat 32 (4096 * k) ||| perm ||| pteP) t))
    {s : Mem} (h0 : P 0 s) :
    (out ∧ bootMapRegion pgdir va size pa perm s = none) ∨
      ∃ t, bootMapRegion pgdir va size pa perm s = some t ∧ P n t := by
  have hps : pgsize.toNat = 4096 := by decide
  induction n generalizing va size pa s P with
  | zero =>
    have hlt : ¬ pgsize ≤ size := by
      rw [BitVec.le_def]
      omega
    rw [bootMapRegion, dif_neg hlt]
    exact .inr ⟨s, rfl, h0⟩
  | succ n ih =>
    have hle : pgsize ≤ size := by
      rw [BitVec.le_def]
      omega
    have hsub : (size - pgsize).toNat / 4096 = n := by
      rw [BitVec.toNat_sub_of_le hle]
      omega
    have hadd : ∀ (a : Word) k, a + pgsize + BitVec.ofNat 32 (4096 * k) = a + BitVec.ofNat 32
        (4096 * (k + 1)) := by
      intro a k
      apply BitVec.eq_of_toNat_eq
      simp only [BitVec.toNat_add, BitVec.toNat_ofNat, hps]
      omega
    have hfirst := hstep 0 (by omega) s h0
    rw [Nat.mul_zero, BitVec.add_zero, BitVec.add_zero] at hfirst
    rw [bootMapRegion, dif_pos hle]
    rcases hfirst with ⟨ho, t, hwalk⟩ | ⟨pte, t, hwalk, h1⟩
    · exact .inl ⟨ho, by rw [hwalk]⟩
    · rw [hwalk]
      refine ih (va + pgsize) (size - pgsize) (pa + pgsize) hsub (fun k => P (k + 1))
        (fun k hk u hu => ?_) h1
      rw [hadd, hadd]
      exact hstep (k + 1) (by omega) u hu

/-- What a call that maps static pages in directory `d` leaves alone. -/
structure Grows (G : Space) (d : Nat) (s : Mem) (fl : List Nat) (t : Mem) (fl' : List Nat) : Prop
    extends Frame G s t, Local d s fl t fl' where
  other : ∀ d' ∈ G.dirs, d' ≠ d →
    (∀ i < 1024, t.ram d' i = s.ram d' i) ∧ ∀ v < 2 ^ 20, t.pteAt d' v = s.pteAt d' v
  pages : fl.length + tabs s d = fl'.length + tabs t d
  suffix : fl' <:+ fl

namespace Grows

variable {G : Space} {d : Nat} {s t u : Mem} {fl fl' fl'' : List Nat}

theorem refl (G : Space) (d : Nat) (s : Mem) (fl : List Nat) : Grows G d s fl s fl :=
  ⟨Frame.refl G s, Local.refl d s fl, fun _ _ _ => ⟨fun _ _ => rfl, fun _ _ => rfl⟩, rfl,
    List.suffix_rfl⟩

theorem trans (h : Grows G d s fl t fl') (k : Grows G d t fl' u fl'') : Grows G d s fl u fl'' := by
  refine ⟨h.toFrame.trans k.toFrame, h.toLocal.trans k.toLocal, fun d' hd' hne => ?_,
    h.pages.trans k.pages, k.suffix.trans h.suffix⟩
  obtain ⟨h1, h2⟩ := h.other d' hd' hne
  obtain ⟨k1, k2⟩ := k.other d' hd' hne
  exact ⟨fun i hi => (k1 i hi).trans (h1 i hi), fun v hv => (k2 v hv).trans (h2 v hv)⟩

end Grows

namespace VmInv

variable {G : Space} {I : Set Nat} {x : Nat → Nat} {s : Mem} {fl : List Nat} {d : Nat}

/-- One round of `boot_map_region`. -/
theorem staticEntry (h : VmInv G I x s fl) (hd : d ∈ G.dirs) (va w : Word)
    (hc : G.counted (pgnum va) = false) :
    (fl = [] ∧ pdx va ∉ tableSlots s d ∧ pgdirWalk (kva d) va true s = some (none, s)) ∨
      ∃ pte t fl', pgdirWalk (kva d) va true s = some (some pte, t) ∧
        VmInv G I x (store pte w t) fl' ∧ Grows G d s fl (store pte w t) fl' ∧
        tableSlots (store pte w t) d = insert (pdx va) (tableSlots s d) ∧
        ∀ v < 2 ^ 20, (store pte w t).pteAt d v = if v = pgnum va then w else s.pteAt d v := by
  rcases h.pgdirWalk_create va hd with ⟨rfl, habs, hwalk⟩ | ⟨t, fl', hw, hwalk⟩
  · exact .inl ⟨rfl, by simp [mem_tableSlots, habs], hwalk⟩
  obtain ⟨h1, hpte⟩ := hw.inv h hd (pdx_lt va)
  have hpde := hw.slot_present h hd
  have htl := (h1.tbl_lt hd (pdx_lt va) hpde).trans_le h1.np
  have hst := store_slot t (pgnum (t.ram d (pdx va))) (ptx va) w htl (ptx_lt va)
  have h2 := h1.setStatic hd (pdx_lt va) (ptx_lt va) hpde (by rwa [← pgnum_eq_pdx_ptx]) w
  have hmap : Remap G t (t.setRam (pgnum (t.ram d (pdx va))) (ptx va) w) d (pgnum va) w :=
    h1.remap_of_ram hd hpde rfl rfl
  have hne : pgnum (t.ram d (pdx va)) ≠ d := fun e =>
    (h1.tbl d hd _ (pdx_lt va) hpde).2.2.2 (by rw [e]; exact hd)
  have hslots : tableSlots (t.setRam (pgnum (t.ram d (pdx va))) (ptx va) w) d = tableSlots t d := by
    simp [tableSlots, Mem.setRam, hne.symm]
  refine .inr ⟨_, t, fl', hwalk, hst ▸ h2, ?_, ?_, ?_⟩
  · rw [hst]
    have hloc : Local d t fl' (t.setRam (pgnum (t.ram d (pdx va))) (ptx va) w) fl' :=
      Local.of_table (pdx_lt va) hpde hne fun p hp j => by simp [Mem.setRam, hp]
    refine ⟨(hw.frame h hd).trans hmap.toFrame, (hw.localWrites h hd).trans hloc,
      fun d' hd' hne' => ⟨fun i hi => ?_, fun v hv => ?_⟩, ?_, hw.suffix⟩
    · rw [hmap.slots d' hd' i hi (fun e => hne' e.1)]
      exact hw.slots h hd' (fun e => hne' e.1)
    · rw [hmap.pte d' hd' v hv, if_neg (fun e => hne' e.1), hpte d' hd' v hv]
    · rw [tabs_eq (Mem.setRam _ _ _ _), hslots]
      exact hw.pages_eq h hd (pdx_lt va)
  · rw [hst, hslots, hw.tableSlots_eq h hd (pdx_lt va)]
  · intro v hv
    rw [hst, hmap.pte d hd v hv, hpte d hd v hv]
    simp

/-- `boot_map_region` faults only for want of a page table, changes nothing outside its range, and
maps the pages of the range to consecutive physical pages. -/
theorem bootMapRegion_spec (h : VmInv G I x s fl) (hd : d ∈ G.dirs) (va size pa perm : Word)
    {n : Nat} (hn : size.toNat / 4096 = n) (hc : ∀ k < n, G.counted (vpnAt va k) = false) :
    (fl.length + tabs s d < (tableSlots s d ∪ pageTables va n).card ∧
        bootMapRegion (kva d) va size pa perm s = none) ∨
      ∃ t fl', bootMapRegion (kva d) va size pa perm s = some t ∧ VmInv G I x t fl' ∧
        Grows G d s fl t fl' ∧ tableSlots t d = tableSlots s d ∪ pageTables va n ∧
        (∀ v < 2 ^ 20, (∀ k < n, v ≠ vpnAt va k) → t.pteAt d v = s.pteAt d v) ∧
        ∀ k < n, t.pteAt d (vpnAt va k) = pa + BitVec.ofNat 32 (4096 * k) ||| perm ||| pteP := by
  have hn20 : n ≤ 2 ^ 20 := by
    have := size.isLt
    omega
  -- What has been built so far has its pages and page tables; the rest of the range may need more.
  have hloop := bootMapRegion_loop (fl.length + tabs s d < (tableSlots s d ∪ pageTables va n).card)
    (kva d) va
    size pa perm hn
    (fun k t => ∃ fl', VmInv G I x t fl' ∧ Grows G d s fl t fl' ∧
      tableSlots t d = tableSlots s d ∪ pageTables va k ∧
      MapsRange va pa perm k (s.pteAt d) (t.pteAt d))
    ?_ ⟨fl, h, Grows.refl G d s fl, by simp [pageTables], MapsRange.zero _⟩
  · refine hloop.imp_right fun ⟨t, ht, fl', h1, hg, hset, hent⟩ => ?_
    exact ⟨t, fl', ht, h1, hg, hset, hent.outside, hent.inside⟩
  · rintro k hk t ⟨fl', h1, hg, hset, hent⟩
    have hck : G.counted (pgnum (va + BitVec.ofNat 32 (4096 * k))) = false := by
      rw [pgnum_vpnAt]
      exact hc k hk
    rcases h1.staticEntry hd _ (pa + BitVec.ofNat 32 (4096 * k) ||| perm ||| pteP) hck with
      ⟨hnil, habs, hwalk⟩ | ⟨pte, u, fl₂, hwalk, h2, hg2, hins, he⟩
    · refine .inl ⟨?_, t, hwalk⟩
      rw [pdx_vpnAt, hset] at habs
      have hpages := hg.pages
      rw [hnil, List.length_nil, Nat.zero_add, tabs_eq t, hset] at hpages
      have hsub : insert (vpnAt va k / 1024) (tableSlots s d ∪ pageTables va k) ⊆
          tableSlots s d ∪ pageTables va n := by
        rw [← Finset.union_insert, ← pageTables_succ]
        exact Finset.union_subset_union_right (pageTables_mono hk)
      have hle := Finset.card_le_card hsub
      rw [Finset.card_insert_of_notMem habs] at hle
      omega
    · refine .inr ⟨pte, u, hwalk, fl₂, h2, hg.trans hg2, ?_, hent.succ (by omega) ?_⟩
      · rw [hins, hset, pdx_vpnAt, pageTables_succ, Finset.union_insert]
      · simpa only [pgnum_vpnAt] using he

/-- What a `setupvm` that returns has mapped; its assertion at the end holds for
page-aligned sections only. -/
theorem setupvm_some (h : VmInv G I x s fl) (hd : d ∈ G.dirs) {start size : Word} {t : Mem}
    (hc : ∀ k < (roundup size pgsize).toNat / 4096, G.counted (vpnAt start k) = false)
    (hs : setupvm (kva d) start size s = some t) :
    ∃ fl', VmInv G I x t fl' ∧ Grows G d s fl t fl' ∧ start.toNat % 4096 = 0 ∧
      (∀ v < 2 ^ 20, (∀ k < (roundup size pgsize).toNat / 4096, v ≠ vpnAt start k) →
        t.pteAt d v = s.pteAt d v) ∧
      ∀ k < (roundup size pgsize).toNat / 4096, t.pteAt d (vpnAt start k) =
        start - kernbase + BitVec.ofNat 32 (4096 * k) ||| (pteW ||| pteU) ||| pteP := by
  simp only [setupvm, Option.bind_eq_bind, Option.bind_eq_some_iff] at hs
  obtain ⟨pa, hpa, u, hu, r, hr, hs⟩ := hs
  split_ifs at hs with hrp
  obtain rfl := Option.some.inj hs
  have hstart : kernbase ≤ start := by
    by_contra hn
    simp [paddr, BitVec.not_le.mp hn] at hpa
  rw [paddr_of_le hstart] at hpa
  obtain rfl := Option.some.inj hpa
  rcases h.bootMapRegion_spec hd start (roundup size pgsize) (start - kernbase)
    (pteW ||| pteU) rfl hc
    with ⟨_, he⟩ | ⟨t', fl', he, h1, hg, _, hout, hin⟩
  · simp [he] at hu
  obtain rfl : t' = u := Option.some.inj (he.symm.trans hu)
  refine ⟨fl', h1, hg, ?_, hout, hin⟩
  have hle := BitVec.le_def.mp hstart
  have hbase : kernbase.toNat = 4026531840 := by decide
  have hsub : (start - kernbase).toNat = start.toNat - 4026531840 := by
    rw [BitVec.toNat_sub_of_le hstart, hbase]
  have hlt := start.isLt
  rw [checkVa2pa_eq (h1.dir_lt hd) fun hp => h1.tbl_lt hd (pdx_lt start) hp, hrp] at hr
  have hr := congrArg BitVec.toNat (Option.some.inj hr)
  split_ifs at hr
  · rw [page2pa_toNat _ (pgnum_lt _)] at hr
    omega
  · have hmax : (~~~0#32 : Word).toNat = 4294967295 := by decide
    omega

/-- With enough pages `setupvm` maps a page-aligned section. -/
theorem setupvm_progress (h : VmInv G I x s fl) (hd : d ∈ G.dirs) {start size : Word}
    (hstart : kernbase ≤ start) (hal : start.toNat % 4096 = 0)
    (hpos : 4096 ≤ (roundup size pgsize).toNat)
    (hc : ∀ k < (roundup size pgsize).toNat / 4096, G.counted (vpnAt start k) = false)
    (hlen : (tableSlots s d ∪ pageTables start ((roundup size pgsize).toNat / 4096)).card ≤
      fl.length + tabs s d) : ∃ t, setupvm (kva d) start size s = some t := by
  rcases h.bootMapRegion_spec hd start (roundup size pgsize) (start - kernbase)
    (pteW ||| pteU) rfl hc
    with ⟨hlt, _⟩ | ⟨t, fl', he, h1, _, _, _, hin⟩
  · omega
  have hbase : kernbase.toNat = 4026531840 := by decide
  have hpa : (start - kernbase).toNat % 4096 = 0 := by
    rw [BitVec.toNat_sub_of_le hstart]
    have := BitVec.le_def.mp hstart
    omega
  have hf : (pteW ||| pteU ||| pteP).toNat < 4096 := by decide
  have hpte : t.pteAt d (pgnum start) = (start - kernbase) ||| (pteW ||| pteU ||| pteP) := by
    have h0 := hin 0 (by omega)
    rw [vpnAt_zero] at h0
    rw [h0, Nat.mul_zero, BitVec.add_zero, BitVec.or_assoc]
  have hpr : present (t.pteAt d (pgnum start)) = true := by
    rw [hpte]
    exact present_or_right (by decide)
  have hck := checkVa2pa_eq (h1.dir_lt hd) fun hp => h1.tbl_lt hd (pdx_lt start) hp
  rw [if_pos hpr, hpte, page2pa_pgnum_or hpa hf] at hck
  refine ⟨t, ?_⟩
  simp only [setupvm, paddr_of_le hstart, he, hck, Option.bind_eq_bind, Option.bind_some, if_true]

section SlotsOf

variable {i : Nat}

theorem slotsOf_absent (hp : present (s.ram d i) = false) (p : Nat) :
    slotsOf s d i p = slotsOf s d (i + 1) p := by
  refine Finset.filter_congr fun j _ => ?_
  constructor
  · rintro ⟨hle, hpr, he⟩
    have hne : j ≠ i := fun e => by simp [e, hp] at hpr
    exact ⟨by omega, hpr, he⟩
  · rintro ⟨hle, hrest⟩
    exact ⟨by omega, hrest⟩

theorem slotsOf_present (hi : i < 1024) (hp : present (s.ram d i) = true) (p : Nat) :
    slotsOf s d i p =
    if p = pgnum (s.ram d i) then insert i (slotsOf s d (i + 1) p) else slotsOf s d (i + 1) p := by
  ext j
  by_cases hj : j = i
  · subst hj
    split_ifs with hpe
    · simp [slotsOf, hi, hp, hpe]
    · simp [slotsOf, Ne.symm hpe]
  · have hle : i ≤ j ↔ i + 1 ≤ j := by omega
    split_ifs <;> simp [slotsOf, hj, hle]

theorem card_slotsOf_present (hi : i < 1024) (hp : present (s.ram d i) = true) (p : Nat) :
    (slotsOf s d i p).card = if p = pgnum (s.ram d i) then (slotsOf s d (i + 1) p).card + 1
      else (slotsOf s d (i + 1) p).card := by
  have hnot : i ∉ slotsOf s d (i + 1) p := by simp [slotsOf]
  rw [slotsOf_present hi hp]
  split_ifs
  · rw [Finset.card_insert_of_notMem hnot]
  · rfl

end SlotsOf

/-- A table whose directory is gone has one reference left for each slot that named it. -/
private theorem ptableRemoveFrom_spec {n i : Nat} (hni : i + n = 1024) (hd : d < 2 ^ 20)
    (h : VmInv G I (fun p => (slotsOf s d i p).card) s fl)
    (hinj : ∀ j < 1024, ∀ j' < 1024, present (s.ram d j) = true → present (s.ram d j') = true →
      pgnum (s.ram d j) = pgnum (s.ram d j') → j = j')
    (hmap : ∀ j < 1024, present (s.ram d j) = true → mapSites G s (pgnum (s.ram d j)) = ∅) :
    ∃ t l, ptableRemoveFrom (kva d) n i s = some t ∧ t.npages = s.npages ∧ t.ram = s.ram ∧
      VmInv G I 0 t (l ++ fl) ∧ ∀ p, p ∈ l ↔ (slotsOf s d i p).Nonempty := by
  induction n generalizing i s fl with
  | zero =>
    have hempty : ∀ p, slotsOf s d i p = ∅ := by
      intro p
      refine Finset.filter_eq_empty_iff.mpr fun j hj => ?_
      have := Finset.mem_range.mp hj
      omega
    refine ⟨s, [], rfl, rfl, rfl, ?_, fun p => by simp [hempty]⟩
    have hx : (fun p => (slotsOf s d i p).card) = 0 := by
      funext p
      simp [hempty]
    rwa [hx] at h
  | succ n ih =>
    have hi : i < 1024 := by omega
    have hld : load s (slot (kva d) i) = s.ram d i := load_slot s d i hd hi
    cases hp : present (s.ram d i) with
    | false =>
      simp only [slotsOf_absent hp] at h ⊢
      obtain ⟨t, l, he, hrest⟩ := ih (by omega) h hinj hmap
      refine ⟨t, l, ?_, hrest⟩
      simp [ptableRemoveFrom, hld, hp, he]
    | true =>
      have hx : (fun p => (slotsOf s d i p).card) = fun p =>
          if p = pgnum (s.ram d i) then (slotsOf s d (i + 1) p).card + 1
          else (slotsOf s d (i + 1) p).card := funext (card_slotsOf_present hi hp)
      have hself : slotsOf s d (i + 1) (pgnum (s.ram d i)) = ∅ := by
        refine Finset.filter_eq_empty_iff.mpr fun j hj => ?_
        rintro ⟨hle, hpr, he⟩
        have := hinj j (Finset.mem_range.mp hj) i hi hpr hp he
        omega
      have hheld : IsData G s fl (pgnum (s.ram d i)) := h.held _ (by simp [slotsOf_present hi hp])
      have h0 : refs G s (pgnum (s.ram d i)) + (slotsOf s d (i + 1) (pgnum (s.ram d i))).card =
          0 := by
        rw [refs, hmap i hi hp, tableSites_eq_empty hheld.notTable, hself]
        rfl
      obtain ⟨u, hu, hn, hram, h1⟩ := h.decref hx (by rw [h0]; omega)
      rw [if_pos h0] at h1
      have hsl : ∀ k p, slotsOf u d k p = slotsOf s d k p := fun k p => by simp only [slotsOf, hram]
      have hms : ∀ p, mapSites G u p = mapSites G s p :=
        mapSites_congr fun d' _ v _ => pteAt_of_ram_eq hram d' v
      simp only [← hsl] at h1
      obtain ⟨t, l, he, hn', hram', h2, hl⟩ := ih (by omega) h1 (by rw [hram]; exact hinj)
        (by rw [hram]; simpa only [hms] using hmap)
      refine ⟨t, l ++ [pgnum (s.ram d i)], ?_, hn'.trans hn, hram'.trans hram,
        by simpa using h2, ?_⟩
      · simp only [ptableRemoveFrom, hld, hp, if_true, pa2page_pteAddr hheld.lt, Option.bind_some,
          Option.bind_eq_bind, hu, he]
      · intro p
        rw [List.mem_append, hl, slotsOf_present hi hp, hsl]
        split_ifs with hpe <;> simp [hpe]

/-- `ptable_remove` frees exactly the page tables of a directory without counted mappings. -/
theorem ptableRemove_spec (h : VmInv G I 0 s fl) (hd : d ∈ G.dirs)
    (hnone : ∀ v < 2 ^ 20, G.counted v = true → present (s.pteAt d v) = false) :
    ∃ t l, ptableRemove (kva d) s = some t ∧ t.npages = s.npages ∧ t.ram = s.ram ∧
      VmInv { G with dirs := G.dirs.erase d } (insert d I) 0 t (l ++ fl) ∧
      ∀ p, p ∈ l ↔ ∃ i < 1024, present (s.ram d i) = true ∧ pgnum (s.ram d i) = p := by
  have h1 := h.dropDir hd hnone
  simp only [Pi.zero_apply, Nat.zero_add] at h1
  have hmap : ∀ j < 1024, present (s.ram d j) = true →
      mapSites { G with dirs := G.dirs.erase d } s (pgnum (s.ram d j)) = ∅ := by
    intro j hj hp
    have hempty : mapSites G s (pgnum (s.ram d j)) = ∅ :=
      h.mapSites_eq_empty fun hdat => hdat.notTable ⟨d, hd, j, hj, hp, rfl⟩
    refine Finset.eq_empty_of_forall_notMem fun y hy => ?_
    obtain ⟨⟨hyd, hv⟩, hrest⟩ := mem_mapSites.mp hy
    have hy' : y ∈ mapSites G s (pgnum (s.ram d j)) :=
      mem_mapSites.mpr ⟨⟨Finset.mem_of_mem_erase hyd, hv⟩, hrest⟩
    simp [hempty] at hy'
  obtain ⟨t, l, he, hn, hram, h2, hl⟩ := ptableRemoveFrom_spec (n := 1024) (i := 0) rfl
    (h.dir_lt hd) h1
    (fun j hj j' hj' hp hp' e => (h.tblInj d hd j hj d hd j' hj' hp hp' e).2) hmap
  refine ⟨t, l, he, hn, hram, h2, fun p => (hl p).trans ?_⟩
  simp [Finset.Nonempty, slotsOf]

theorem pgdirRemove_spec (h : VmInv G I x s fl) (hd : d ∈ I) (hn : d < 65536) :
    pgdirRemove (kva d) s = some (s.give d) ∧ VmInv G (I \ {d}) x (s.give d) (d :: fl) := by
  obtain ⟨hfree, h1⟩ := h.freeIdle hd
  have hlt := ((h.idle d).mp hd).1.lt
  refine ⟨?_, h1⟩
  have hpa : pa2page s.npages (page2pa d) = some d := by
    rw [pa2page, pgnum_page2pa d (by omega), if_neg (by omega)]
  simp [pgdirRemove, paddr_of_le (kernbase_le_kva hn), kva_sub_kernbase, hpa, hfree]

end VmInv

end NctuCourses.Osdi
