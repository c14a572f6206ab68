import Mathlib.Data.Finset.Prod
import NctuCourses.Osdi.Mem.PageTable

namespace NctuCourses.Osdi

open Lib

/-- What the page tables are used for: the directories in use, the pages outside the allocator's
pool, and the page numbers whose mappings are counted in `pp_ref`. -/
structure Space where
  dirs : Finset Nat
  rsv : Nat → Prop
  counted : Nat → Bool

/-- The counted entries that map page `p`, as pairs of directory and page number. -/
def mapSites (G : Space) (s : Mem) (p : Nat) : Finset (Nat × Nat) :=
  (G.dirs ×ˢ Finset.range (2 ^ 20)).filter fun x =>
    G.counted x.2 = true ∧ present (s.pteAt x.1 x.2) = true ∧ pgnum (s.pteAt x.1 x.2) = p

/-- The directory slots that name `p` as a page table. -/
def tableSites (G : Space) (s : Mem) (p : Nat) : Finset (Nat × Nat) :=
  (G.dirs ×ˢ Finset.range 1024).filter fun x =>
    present (s.ram x.1 x.2) = true ∧ pgnum (s.ram x.1 x.2) = p

def refs (G : Space) (s : Mem) (p : Nat) : Nat := (mapSites G s p).card + (tableSites G s p).card

def IsTable (G : Space) (s : Mem) (t : Nat) : Prop :=
  ∃ d ∈ G.dirs, ∃ i < 1024, present (s.ram d i) = true ∧ pgnum (s.ram d i) = t

/-- A page of the pool that is in use and serves neither as a directory nor as a page table. -/
structure IsData (G : Space) (s : Mem) (fl : List Nat) (p : Nat) : Prop where
  lt : p < s.npages
  pool : ¬ G.rsv p
  used : p ∉ fl
  notDir : p ∉ G.dirs
  notTable : ¬ IsTable G s p

/-- The invariant of the page tables. `I` are the data pages without any reference, and `x` counts
the references that are in `pp_ref` but not in a table, as between `pp_ref++` and the store of the
entry in `page_insert`. -/
structure VmInv (G : Space) (I : Set Nat) (x : Nat → Nat) (s : Mem) (fl : List Nat) : Prop where
  np : s.npages ≤ 2 ^ 20
  free : FreeList s fl
  pool : ∀ p ∈ fl, ¬ G.rsv p
  dir : ∀ d ∈ G.dirs, d < s.npages ∧ ¬ G.rsv d ∧ d ∉ fl
  tbl : ∀ d ∈ G.dirs, ∀ i < 1024, present (s.ram d i) = true →
    pgnum (s.ram d i) < s.npages ∧ ¬ G.rsv (pgnum (s.ram d i)) ∧ pgnum (s.ram d i) ∉ fl ∧
      pgnum (s.ram d i) ∉ G.dirs
  tblInj : ∀ d ∈ G.dirs, ∀ i < 1024, ∀ d' ∈ G.dirs, ∀ i' < 1024, present (s.ram d i) = true →
    present (s.ram d' i') = true → pgnum (s.ram d i) = pgnum (s.ram d' i') → d = d' ∧ i = i'
  mapped : ∀ d ∈ G.dirs, ∀ v < 2 ^ 20, G.counted v = true → present (s.pteAt d v) = true →
    IsData G s fl (pgnum (s.pteAt d v))
  held : ∀ p, x p ≠ 0 → IsData G s fl p
  ref : ∀ p < s.npages, ¬ G.rsv p → (s.pages p).ppRef = BitVec.ofNat 16 (refs G s p + x p)
  idle : ∀ p, p ∈ I ↔ IsData G s fl p ∧ refs G s p + x p = 0

theorem mem_mapSites {G : Space} {s : Mem} {p : Nat} {y : Nat × Nat} :
    y ∈ mapSites G s p ↔ (y.1 ∈ G.dirs ∧ y.2 < 2 ^ 20) ∧ G.counted y.2 = true ∧
      present (s.pteAt y.1 y.2) = true ∧ pgnum (s.pteAt y.1 y.2) = p := by
  simp only [mapSites, Finset.mem_filter, Finset.mem_product, Finset.mem_range]

theorem mem_tableSites {G : Space} {s : Mem} {p : Nat} {y : Nat × Nat} :
    y ∈ tableSites G s p ↔ (y.1 ∈ G.dirs ∧ y.2 < 1024) ∧
      present (s.ram y.1 y.2) = true ∧ pgnum (s.ram y.1 y.2) = p := by
  simp only [tableSites, Finset.mem_filter, Finset.mem_product, Finset.mem_range]

theorem isTable_iff {G : Space} {s : Mem} {p : Nat} :
    IsTable G s p ↔ (tableSites G s p).Nonempty := by
  constructor
  · rintro ⟨d, hd, i, hi, hp, he⟩
    exact ⟨(d, i), mem_tableSites.mpr ⟨⟨hd, hi⟩, hp, he⟩⟩
  · rintro ⟨y, hy⟩
    obtain ⟨⟨hd, hi⟩, hp, he⟩ := mem_tableSites.mp hy
    exact ⟨y.1, hd, y.2, hi, hp, he⟩

theorem tableSites_eq_empty {G : Space} {s : Mem} {p : Nat} (h : ¬ IsTable G s p) :
    tableSites G s p = ∅ := Finset.not_nonempty_iff_eq_empty.mp (mt isTable_iff.mpr h)

theorem isTable_congr {G : Space} {s t : Mem}
    (hrow : ∀ d ∈ G.dirs, ∀ i < 1024, t.ram d i = s.ram d i) (p : Nat) :
    IsTable G t p ↔ IsTable G s p := by
  unfold IsTable
  constructor
  · rintro ⟨d, hd, i, hi, hp, he⟩
    rw [hrow d hd i hi] at hp he
    exact ⟨d, hd, i, hi, hp, he⟩
  · rintro ⟨d, hd, i, hi, hp, he⟩
    rw [← hrow d hd i hi] at hp he
    exact ⟨d, hd, i, hi, hp, he⟩

theorem isData_congr {G : Space} {s t : Mem} {fl : List Nat} (hn : t.npages = s.npages)
    (hrow : ∀ d ∈ G.dirs, ∀ i < 1024, t.ram d i = s.ram d i) (p : Nat) :
    IsData G t fl p ↔ IsData G s fl p := by
  have ht := isTable_congr hrow p
  exact ⟨fun h => ⟨hn ▸ h.lt, h.pool, h.used, h.notDir, mt ht.mpr h.notTable⟩,
    fun h => ⟨hn ▸ h.lt, h.pool, h.used, h.notDir, mt ht.mp h.notTable⟩⟩

theorem isData_setRef {G : Space} {s : Mem} {fl : List Nat} {q : Nat} {r : BitVec 16} (p : Nat) :
    IsData G (s.setRef q r) fl p ↔ IsData G s fl p :=
  ⟨fun h => ⟨h.lt, h.pool, h.used, h.notDir, h.notTable⟩,
    fun h => ⟨h.lt, h.pool, h.used, h.notDir, h.notTable⟩⟩

theorem tableSites_congr {G : Space} {s t : Mem}
    (hrow : ∀ d ∈ G.dirs, ∀ i < 1024, t.ram d i = s.ram d i) (p : Nat) :
    tableSites G t p = tableSites G s p := by
  ext y
  rw [mem_tableSites, mem_tableSites]
  refine and_congr_right fun hy => ?_
  rw [hrow y.1 hy.1 y.2 hy.2]

theorem mapSites_congr {G : Space} {s t : Mem}
    (hpte : ∀ d ∈ G.dirs, ∀ v < 2 ^ 20, t.pteAt d v = s.pteAt d v) (p : Nat) :
    mapSites G t p = mapSites G s p := by
  ext y
  rw [mem_mapSites, mem_mapSites]
  refine and_congr_right fun hy => ?_
  rw [hpte y.1 hy.1 y.2 hy.2]

/-- One entry changes: its site joins the set of the new page and leaves every other one. -/
theorem mapSites_update {G : Space} {s t : Mem} {d v : Nat} {w : Word} (hd : d ∈ G.dirs)
    (hv : v < 2 ^ 20) (hpte : ∀ d' ∈ G.dirs, ∀ v' < 2 ^ 20,
      t.pteAt d' v' = if d' = d ∧ v' = v then w else s.pteAt d' v') (p : Nat) :
    mapSites G t p = if G.counted v = true ∧ present w = true ∧ pgnum w = p
      then insert (d, v) (mapSites G s p) else (mapSites G s p).erase (d, v) := by
  ext y
  by_cases hy : y = (d, v)
  · subst hy
    rw [mem_mapSites, hpte d hd v hv]
    split_ifs with h <;> simp_all
  · have hne : ¬ (y.1 = d ∧ y.2 = v) := fun e => hy (Prod.ext e.1 e.2)
    have hmem : y ∈ mapSites G t p ↔ y ∈ mapSites G s p := by
      rw [mem_mapSites, mem_mapSites]
      refine and_congr_right fun h => ?_
      rw [hpte y.1 h.1 y.2 h.2, if_neg hne]
    rw [hmem]
    split_ifs <;> simp [hy]

/-- The slots of directory `d` from `i` on that name `p` as a page table. -/
def VmInv.slotsOf (s : Mem) (d i p : Nat) : Finset Nat :=
  (Finset.range 1024).filter fun j =>
    i ≤ j ∧ present (s.ram d j) = true ∧ pgnum (s.ram d j) = p

section WithoutDir

variable {G : Space} {s : Mem} {d q : Nat}

theorem isTable_erase (h : IsTable { G with dirs := G.dirs.erase d } s q) : IsTable G s q := by
  obtain ⟨d', hd', i, hi, hpr, he⟩ := h
  exact ⟨d', Finset.mem_of_mem_erase hd', i, hi, hpr, he⟩

theorem IsData.erase {fl : List Nat} (h : IsData G s fl q) :
    IsData { G with dirs := G.dirs.erase d } s fl q :=
  ⟨h.lt, h.pool, h.used, fun e => h.notDir (Finset.mem_of_mem_erase e), mt isTable_erase h.notTable⟩

theorem mapSites_erase (hnone : ∀ v < 2 ^ 20, G.counted v = true → present (s.pteAt d v) = false) :
    mapSites { G with dirs := G.dirs.erase d } s q = mapSites G s q := by
  ext y
  simp only [mem_mapSites, Finset.mem_erase]
  constructor
  · rintro ⟨⟨⟨_, hy⟩, hv⟩, hrest⟩
    exact ⟨⟨hy, hv⟩, hrest⟩
  · rintro ⟨⟨hy, hv⟩, hc, hpr, he⟩
    refine ⟨⟨⟨fun e => ?_, hy⟩, hv⟩, hc, hpr, he⟩
    rw [e, hnone y.2 hv hc] at hpr
    simp at hpr

theorem tableSites_erase (hd : d ∈ G.dirs) : tableSites G s q =
    tableSites { G with dirs := G.dirs.erase d } s q ∪ (VmInv.slotsOf s d 0 q).image
      (Prod.mk d) := by
  ext y
  simp only [Finset.mem_union, mem_tableSites, Finset.mem_erase, VmInv.slotsOf, Finset.mem_image,
    Finset.mem_filter, Finset.mem_range, Nat.zero_le, true_and]
  constructor
  · rintro ⟨⟨hy, hi⟩, hpr, he⟩
    by_cases hyd : y.1 = d
    · exact .inr ⟨y.2, ⟨hi, hyd ▸ hpr, hyd ▸ he⟩, Prod.ext hyd.symm rfl⟩
    · exact .inl ⟨⟨⟨hyd, hy⟩, hi⟩, hpr, he⟩
  · rintro (⟨⟨⟨_, hy⟩, hi⟩, hrest⟩ | ⟨i, ⟨hi, hpr, he⟩, rfl⟩)
    · exact ⟨⟨hy, hi⟩, hrest⟩
    · exact ⟨⟨hd, hi⟩, hpr, he⟩

theorem card_tableSites_erase (hd : d ∈ G.dirs) : (tableSites G s q).card =
    (tableSites { G with dirs := G.dirs.erase d } s q).card + (VmInv.slotsOf s d 0 q).card := by
  rw [tableSites_erase hd, Finset.card_union_of_disjoint,
    Finset.card_image_of_injective _ (Prod.mk_right_injective d)]
  rw [Finset.disjoint_left]
  intro y hy hy'
  obtain ⟨i, _, rfl⟩ := Finset.mem_image.mp hy'
  simp [mem_tableSites] at hy

theorem sites_insert (hd : d ∉ G.dirs) (habs : ∀ i < 1024, present (s.ram d i) = false) :
    mapSites { G with dirs := insert d G.dirs } s q = mapSites G s q ∧
      tableSites { G with dirs := insert d G.dirs } s q = tableSites G s q := by
  have hback : ({ G with dirs := (insert d G.dirs).erase d } : Space) = G := by
    rw [Finset.erase_insert hd]
  have hnone : ∀ v < 2 ^ 20, G.counted v = true → present (s.pteAt d v) = false := fun v hv _ => by
    simp [Mem.pteAt, habs (v / 1024) (by omega)]
  have hslots : VmInv.slotsOf s d 0 q = ∅ := by
    refine Finset.filter_eq_empty_iff.mpr fun i hi => ?_
    simp [habs i (Finset.mem_range.mp hi)]
  have hms := mapSites_erase (G := { G with dirs := insert d G.dirs }) (q := q) hnone
  have hts := tableSites_erase (G := { G with dirs := insert d G.dirs }) (s := s) (q := q)
    (Finset.mem_insert_self d G.dirs)
  rw [hback] at hms hts
  rw [hslots, Finset.image_empty, Finset.union_empty] at hts
  exact ⟨hms.symm, hts⟩

end WithoutDir

namespace VmInv

variable {G : Space} {I : Set Nat} {x : Nat → Nat} {s : Mem} {fl : List Nat}

/-- The state right after `page_init`, with the pages it reserved outside the pool. -/
theorem boot (b : Boot) (ram : Nat → Nat → Word) (counted : Nat → Bool)
    (hnp : b.npages.toNat ≤ 2 ^ 20) (hnext : kernbase ≤ b.nextfree) :
    ∃ s₀, pageInit b (bootMem b ram) = some s₀ ∧ s₀.npages = b.npages.toNat ∧ s₀.ram = ram ∧
      VmInv ⟨∅, fun p => madeFree b p = false, counted⟩ ∅ 0 s₀
        ((List.range b.npages.toNat).filter (madeFree b)).reverse := by
  obtain ⟨s₀, hs₀, hn, hram, hfl, _⟩ := pageInit_spec b ram hnext
  have hmem : ∀ p, p ∈ ((List.range b.npages.toNat).filter (madeFree b)).reverse ↔
      p < b.npages.toNat ∧ madeFree b p = true := by simp
  refine ⟨s₀, hs₀, hn, hram, hn ▸ hnp, hfl, ?_, by simp, by simp, by simp, by simp, by simp, ?_, ?_⟩
  · intro p hp
    simpa using ((hmem p).mp hp).2
  · intro p hlt hp
    have hpf : p ∈ ((List.range b.npages.toNat).filter (madeFree b)).reverse :=
      (hmem p).mpr ⟨hn ▸ hlt, by simpa using hp⟩
    rw [hfl.ref p hpf]
    rfl
  · intro p
    simp only [Set.mem_empty_iff_false, false_iff, not_and]
    intro hd
    exact absurd ((hmem p).mpr ⟨hn ▸ hd.lt, by simpa using hd.pool⟩) hd.used

theorem dir_lt (h : VmInv G I x s fl) {d : Nat} (hd : d ∈ G.dirs) : d < 2 ^ 20 :=
  (h.dir d hd).1.trans_le h.np

theorem tbl_lt (h : VmInv G I x s fl) {d i : Nat} (hd : d ∈ G.dirs) (hi : i < 1024)
    (hp : present (s.ram d i) = true) : pgnum (s.ram d i) < s.npages := (h.tbl d hd i hi hp).1

theorem not_isTable_free (h : VmInv G I x s fl) {p : Nat} (hp : p ∈ fl) : ¬ IsTable G s p := by
  rintro ⟨d, hd, i, hi, hpr, rfl⟩
  exact (h.tbl d hd i hi hpr).2.2.1 hp

theorem not_isTable_dir (h : VmInv G I x s fl) {d : Nat} (hd : d ∈ G.dirs) : ¬ IsTable G s d := by
  rintro ⟨d', hd', i, hi, hpr, rfl⟩
  exact (h.tbl d' hd' i hi hpr).2.2.2 hd

theorem mapSites_eq_empty (h : VmInv G I x s fl) {p : Nat} (hp : ¬ IsData G s fl p) :
    mapSites G s p = ∅ := by
  refine Finset.eq_empty_of_forall_notMem fun y hy => ?_
  obtain ⟨⟨hd, hv⟩, hc, hpr, rfl⟩ := mem_mapSites.mp hy
  exact hp (h.mapped y.1 hd y.2 hv hc hpr)

theorem refs_free (h : VmInv G I x s fl) {p : Nat} (hp : p ∈ fl) : refs G s p = 0 := by
  rw [refs, h.mapSites_eq_empty (fun hd => hd.used hp),
    tableSites_eq_empty (h.not_isTable_free hp)]
  rfl

theorem held_free (h : VmInv G I x s fl) {p : Nat} (hp : p ∈ fl) : x p = 0 := by
  by_contra hx
  exact (h.held p hx).used hp

theorem notMem_idle (h : VmInv G I x s fl) {p : Nat} (hp : p ∈ fl) : p ∉ I :=
  fun hi => ((h.idle p).mp hi).1.used hp

theorem tableSites_card_le (h : VmInv G I x s fl) (p : Nat) : (tableSites G s p).card ≤ 1 := by
  refine Finset.card_le_one.mpr fun y hy z hz => ?_
  obtain ⟨⟨hyd, hyi⟩, hyp, hye⟩ := mem_tableSites.mp hy
  obtain ⟨⟨hzd, hzi⟩, hzp, hze⟩ := mem_tableSites.mp hz
  obtain ⟨h1, h2⟩ := h.tblInj y.1 hyd y.2 hyi z.1 hzd z.2 hzi hyp hzp (hye.trans hze.symm)
  exact Prod.ext h1 h2

theorem pteAt_setRam (h : VmInv G I x s fl) {d i j : Nat} (hd : d ∈ G.dirs) (hi : i < 1024)
    (hj : j < 1024) (hp : present (s.ram d i) = true) (w : Word) :
    (∀ d' ∈ G.dirs, ∀ i' < 1024,
      (s.setRam (pgnum (s.ram d i)) j w).ram d' i' = s.ram d' i') ∧
    ∀ d' ∈ G.dirs, ∀ v < 2 ^ 20, (s.setRam (pgnum (s.ram d i)) j w).pteAt d' v =
      if d' = d ∧ v = 1024 * i + j then w else s.pteAt d' v := by
  have hrow : ∀ d' ∈ G.dirs, ∀ i' < 1024,
      (s.setRam (pgnum (s.ram d i)) j w).ram d' i' = s.ram d' i' := by
    intro d' hd' i' _
    have hne : d' ≠ pgnum (s.ram d i) := fun e => (h.tbl d hd i hi hp).2.2.2 (e ▸ hd')
    simp [Mem.setRam, hne]
  refine ⟨hrow, fun d' hd' v hv => ?_⟩
  have hlt : v / 1024 < 1024 := by omega
  simp only [Mem.pteAt, hrow d' hd' _ hlt]
  cases hp' : present (s.ram d' (v / 1024)) with
  | false =>
    have hne : ¬ (d' = d ∧ v = 1024 * i + j) := by
      rintro ⟨rfl, rfl⟩
      rw [show (1024 * i + j) / 1024 = i by omega, hp] at hp'
      simp at hp'
    simp [hne]
  | true =>
    by_cases hsame : d' = d ∧ v / 1024 = i
    · obtain ⟨rfl, rfl⟩ := hsame
      by_cases hjv : v % 1024 = j
      · have hvj : v = 1024 * (v / 1024) + j := by omega
        simp [Mem.setRam, hjv, ← hvj]
      · have hvj : ¬ v = 1024 * (v / 1024) + j := by omega
        simp [Mem.setRam, hjv, hvj]
    · have hne : pgnum (s.ram d' (v / 1024)) ≠ pgnum (s.ram d i) :=
        fun e => hsame (h.tblInj d' hd' _ hlt d hd i hi hp' hp e)
      have hne' : ¬ (d' = d ∧ v = 1024 * i + j) := by
        rintro ⟨rfl, rfl⟩
        exact hsame ⟨rfl, by omega⟩
      simp [Mem.setRam, hne, hne']

/-- The invariant after a write to a page table, from the two facts that depend on the entry. -/
private theorem of_entry (h : VmInv G I x s fl) {d i j : Nat} (hd : d ∈ G.dirs) (hi : i < 1024)
    (hj : j < 1024) (hp : present (s.ram d i) = true) {w : Word} {x' : Nat → Nat}
    (hx : ∀ p, x' p ≠ 0 → IsData G s fl p)
    (hw : G.counted (1024 * i + j) = true → present w = true → IsData G s fl (pgnum w))
    (hc : ∀ p, (mapSites G (s.setRam (pgnum (s.ram d i)) j w) p).card + x' p =
      (mapSites G s p).card + x p) :
    VmInv G I x' (s.setRam (pgnum (s.ram d i)) j w) fl := by
  obtain ⟨hrow, hpte⟩ := h.pteAt_setRam hd hi hj hp w
  have hiff : ∀ p, IsData G (s.setRam (pgnum (s.ram d i)) j w) fl p ↔ IsData G s fl p :=
    isData_congr rfl hrow
  have hdata := fun p => (hiff p).mpr
  refine ⟨h.np, h.free.setRam _ _ _, h.pool, h.dir,
    ?_, ?_, ?_, fun p hq => hdata p (hx p hq), ?_, ?_⟩
  · intro d' hd' i' hi' hp'
    rw [hrow d' hd' i' hi'] at hp' ⊢
    exact h.tbl d' hd' i' hi' hp'
  · intro d₁ h₁ i₁ hi₁ d₂ h₂ i₂ hi₂ hp₁ hp₂ he
    rw [hrow d₁ h₁ i₁ hi₁] at hp₁ he
    rw [hrow d₂ h₂ i₂ hi₂] at hp₂ he
    exact h.tblInj d₁ h₁ i₁ hi₁ d₂ h₂ i₂ hi₂ hp₁ hp₂ he
  · intro d' hd' v hv hcv hpv
    rw [hpte d' hd' v hv] at hpv ⊢
    split_ifs at hpv ⊢ with he
    · exact hdata _ (hw (he.2 ▸ hcv) hpv)
    · exact hdata _ (h.mapped d' hd' v hv hcv hpv)
  · intro p hlt hr
    have he := h.ref p hlt hr
    have hcp := hc p
    rw [refs, tableSites_congr hrow p]
    rw [refs] at he
    rw [show (s.setRam (pgnum (s.ram d i)) j w).pages p = s.pages p from rfl, he]
    congr 1
    omega
  · intro p
    have hcp := hc p
    rw [h.idle p, hiff p, refs, refs, tableSites_congr hrow p]
    exact and_congr_right fun _ => by omega

/-- A static mapping may be written anywhere outside the counted page numbers. -/
theorem setStatic (h : VmInv G I x s fl) {d i j : Nat} (hd : d ∈ G.dirs) (hi : i < 1024)
    (hj : j < 1024) (hp : present (s.ram d i) = true) (hc : G.counted (1024 * i + j) = false)
    (w : Word) : VmInv G I x (s.setRam (pgnum (s.ram d i)) j w) fl := by
  refine h.of_entry hd hi hj hp h.held (by simp [hc]) fun p => ?_
  have hn : (d, 1024 * i + j) ∉ mapSites G s p := by simp [mem_mapSites, hc]
  rw [mapSites_update hd (by omega) (h.pteAt_setRam hd hi hj hp w).2 p]
  simp [hc, Finset.erase_eq_of_notMem hn]

/-- Storing an entry turns one held reference into a mapping. -/
theorem setEntry (h : VmInv G I x s fl) {d i j : Nat} (hd : d ∈ G.dirs) (hi : i < 1024)
    (hj : j < 1024) (hp : present (s.ram d i) = true)
    (hold : present (s.pteAt d (1024 * i + j)) = false) (hc : G.counted (1024 * i + j) = true)
    {w : Word} (hw : present w = true) {x' : Nat → Nat}
    (hx : x = fun p => if p = pgnum w then x' p + 1 else x' p) :
    VmInv G I x' (s.setRam (pgnum (s.ram d i)) j w) fl := by
  refine h.of_entry hd hi hj hp (fun p hxp => h.held p ?_) (fun _ _ => h.held _ ?_) fun p => ?_
  · rw [hx]
    dsimp only
    split_ifs <;> omega
  · simp [hx]
  have hn : (d, 1024 * i + j) ∉ mapSites G s p := by simp [mem_mapSites, hold]
  rw [mapSites_update hd (by omega) (h.pteAt_setRam hd hi hj hp w).2 p, hx]
  by_cases hpw : p = pgnum w
  · subst hpw
    simp only [hc, hw, and_self, if_true, Finset.card_insert_of_notMem hn]
    omega
  · have hpw' : pgnum w ≠ p := Ne.symm hpw
    simp [hpw, hpw', Finset.erase_eq_of_notMem hn]

theorem clearEntry (h : VmInv G I x s fl) {d i j : Nat} (hd : d ∈ G.dirs) (hi : i < 1024)
    (hj : j < 1024) (hp : present (s.ram d i) = true)
    (hold : present (s.pteAt d (1024 * i + j)) = true) (hc : G.counted (1024 * i + j) = true) :
    VmInv G I (fun p => if p = pgnum (s.pteAt d (1024 * i + j)) then x p + 1 else x p)
      (s.setRam (pgnum (s.ram d i)) j 0#32) fl := by
  have hv : 1024 * i + j < 2 ^ 20 := by omega
  refine h.of_entry hd hi hj hp (fun p hxp => ?_) (by simp) fun p => ?_
  · by_cases he : p = pgnum (s.pteAt d (1024 * i + j))
    · rw [he]
      exact h.mapped d hd _ hv hc hold
    · simp only [he, if_false] at hxp
      exact h.held p hxp
  rw [mapSites_update hd hv (h.pteAt_setRam hd hi hj hp 0#32).2 p]
  simp only [present_zero, Bool.false_eq_true, false_and, and_false, if_false]
  by_cases he : p = pgnum (s.pteAt d (1024 * i + j))
  · have hm : (d, 1024 * i + j) ∈ mapSites G s p := by
      simp only [mem_mapSites]
      exact ⟨⟨hd, hv⟩, hc, hold, he.symm⟩
    have hpos := Finset.card_pos.mpr ⟨_, hm⟩
    rw [Finset.card_erase_of_mem hm, if_pos he]
    omega
  · have hm : (d, 1024 * i + j) ∉ mapSites G s p := by
      simp only [mem_mapSites]
      exact fun hh => he hh.2.2.2.symm
    rw [Finset.erase_eq_of_notMem hm, if_neg he]

/-- `pp_ref++` on a data page. -/
theorem incref (h : VmInv G I x s fl) {q : Nat} (hq : IsData G s fl q) :
    VmInv G (I \ {q}) (fun p => if p = q then x p + 1 else x p)
      (s.setRef q ((s.pages q).ppRef + 1)) fl := by
  refine ⟨h.np, h.free.setRef hq.used _, h.pool, h.dir, h.tbl, h.tblInj, ?_, ?_, ?_, ?_⟩
  · intro d hd v hv hc hpr
    have hm := h.mapped d hd v hv hc hpr
    exact ⟨hm.lt, hm.pool, hm.used, hm.notDir, hm.notTable⟩
  · intro p hp
    by_cases he : p = q
    · subst he
      exact ⟨hq.lt, hq.pool, hq.used, hq.notDir, hq.notTable⟩
    · simp only [he, if_false] at hp
      have hm := h.held p hp
      exact ⟨hm.lt, hm.pool, hm.used, hm.notDir, hm.notTable⟩
  · intro p hlt hr
    have he := h.ref p hlt hr
    have hrefs : refs G (s.setRef q ((s.pages q).ppRef + 1)) p = refs G s p := rfl
    rw [hrefs]
    by_cases hpq : p = q
    · subst hpq
      simp only [Mem.setRef_ppRef, if_true, he, ← Nat.add_assoc]
      rw [BitVec.ofNat_add _ 1]
      rfl
    · rw [s.setRef_pages_ne _ hpq, if_neg hpq, he]
  · intro p
    rw [isData_setRef, Set.mem_sdiff, Set.mem_singleton_iff, h.idle p,
      show refs G (s.setRef q ((s.pages q).ppRef + 1)) p = refs G s p from rfl]
    by_cases hpq : p = q <;> simp [hpq]

/-- `--pp_ref` drops a held reference. -/
theorem unref (h : VmInv G I x s fl) {q : Nat} {x' : Nat → Nat}
    (hx : x = fun p => if p = q then x' p + 1 else x' p) :
    (s.pages q).ppRef - 1 = BitVec.ofNat 16 (refs G s q + x' q) ∧
      VmInv G (if refs G s q + x' q = 0 then insert q I else I) x'
        (s.setRef q ((s.pages q).ppRef - 1)) fl := by
  have hq : IsData G s fl q := h.held q (by simp [hx])
  have hxne : ∀ p, p ≠ q → x p = x' p := fun p hp => by simp [hx, hp]
  have hr : (s.pages q).ppRef - 1 = BitVec.ofNat 16 (refs G s q + x' q) := by
    rw [h.ref q hq.lt hq.pool, hx]
    simp only [if_true, ← Nat.add_assoc]
    rw [BitVec.ofNat_add _ 1]
    exact add_sub_cancel_right _ _
  refine ⟨hr, h.np, h.free.setRef hq.used _, h.pool, h.dir, h.tbl, h.tblInj, ?_, ?_, ?_, ?_⟩
  · intro d hd v hv hc hpr
    exact (isData_setRef _).mpr (h.mapped d hd v hv hc hpr)
  · intro p hp
    refine (isData_setRef p).mpr (h.held p ?_)
    rw [hx]
    dsimp only
    split_ifs <;> omega
  · intro p hlt hrs
    rw [show refs G (s.setRef q ((s.pages q).ppRef - 1)) p = refs G s p from rfl]
    by_cases hp : p = q
    · subst hp
      rw [Mem.setRef_ppRef, hr]
    · rw [s.setRef_pages_ne _ hp, h.ref p hlt hrs, hxne p hp]
  · intro p
    rw [isData_setRef, show refs G (s.setRef q ((s.pages q).ppRef - 1)) p = refs G s p from rfl]
    by_cases hp : p = q
    · subst hp
      have hn : p ∉ I := fun hi => by
        have h0 := ((h.idle p).mp hi).2
        rw [hx] at h0
        simp at h0
      by_cases h0 : refs G s p + x' p = 0
      · simp [hq, h0]
      · rw [if_neg h0]
        exact iff_of_false hn fun e => h0 e.2
    · have hiff := h.idle p
      rw [hxne p hp] at hiff
      split_ifs <;> simp [hp, hiff]

/-- `page_free` of a page without references. -/
theorem freeIdle (h : VmInv G I x s fl) {q : Nat} (hq : q ∈ I) :
    pageFree q s = some (s.give q) ∧ VmInv G (I \ {q}) x (s.give q) (q :: fl) := by
  obtain ⟨hdat, h0⟩ := (h.idle q).mp hq
  have hz : (s.pages q).ppRef = 0 := by
    rw [h.ref q hdat.lt hdat.pool, h0]
    rfl
  have hdata : ∀ p, p ≠ q → IsData G s fl p → IsData G (s.give q) (q :: fl) p :=
    fun p hp hd => ⟨hd.lt, hd.pool, by simp [hp, hd.used], hd.notDir, hd.notTable⟩
  refine ⟨pageFree_eq h.free hdat.used hz, h.np, h.free.give hdat.used hdat.lt hz, ?_, ?_, ?_,
    h.tblInj, ?_, ?_, ?_, ?_⟩
  · intro p hp
    rcases List.mem_cons.mp hp with rfl | hp
    · exact hdat.pool
    · exact h.pool p hp
  · intro d hd
    obtain ⟨hlt, hrs, hnf⟩ := h.dir d hd
    have hne : d ≠ q := fun e => hdat.notDir (e ▸ hd)
    exact ⟨hlt, hrs, by simp [hne, hnf]⟩
  · intro d hd i hi hpr
    obtain ⟨hlt, hrs, hnf, hnd⟩ := h.tbl d hd i hi hpr
    have hne : pgnum (s.ram d i) ≠ q := fun e => hdat.notTable ⟨d, hd, i, hi, hpr, e⟩
    have hnf' : pgnum (s.ram d i) ∉ q :: fl := by simp [hne, hnf]
    exact ⟨hlt, hrs, hnf', hnd⟩
  · intro d hd v hv hc hpr
    refine hdata _ (fun e => ?_) (h.mapped d hd v hv hc hpr)
    have hm : (d, v) ∈ mapSites G s q := mem_mapSites.mpr ⟨⟨hd, hv⟩, hc, hpr, e⟩
    have hpos := Finset.card_pos.mpr ⟨_, hm⟩
    rw [refs] at h0
    omega
  · intro p hp
    exact hdata p (fun e => hp (by rw [e]; omega)) (h.held p hp)
  · intro p hlt hrs
    have hpr : ((s.give q).pages p).ppRef = (s.pages p).ppRef := by
      by_cases hp : p = q
      · simp [Mem.give, hp]
      · simp [Mem.give, Function.update_of_ne hp]
    rw [hpr]
    exact h.ref p hlt hrs
  · intro p
    rw [Set.mem_sdiff, Set.mem_singleton_iff, h.idle p,
      show refs G (s.give q) p = refs G s p from rfl]
    constructor
    · rintro ⟨⟨hd, hr⟩, hne⟩
      exact ⟨hdata p hne hd, hr⟩
    · rintro ⟨hd, hr⟩
      have hu : p ≠ q ∧ p ∉ fl := by simpa using hd.used
      exact ⟨⟨⟨hd.lt, hd.pool, hu.2, hd.notDir, hd.notTable⟩, hr⟩, hu.1⟩

/-- `page_decref` drops a held reference; the page is freed exactly when it was the last one. -/
theorem decref (h : VmInv G I x s fl) {q : Nat} {x' : Nat → Nat}
    (hx : x = fun p => if p = q then x' p + 1 else x' p) (hb : refs G s q + x' q < 65536) :
    ∃ t, pageDecref q s = some t ∧ t.npages = s.npages ∧ t.ram = s.ram ∧
      VmInv G I x' t (if refs G s q + x' q = 0 then q :: fl else fl) := by
  obtain ⟨hr, h1⟩ := h.unref hx
  by_cases h0 : refs G s q + x' q = 0
  · have hnot : q ∉ I := fun hi => by
      have hz := ((h.idle q).mp hi).2
      rw [hx] at hz
      simp at hz
    rw [if_pos h0] at h1
    obtain ⟨hfree, h2⟩ := h1.freeIdle (Set.mem_insert q I)
    rw [Set.insert_sdiff_self_of_notMem hnot] at h2
    refine ⟨(s.setRef q ((s.pages q).ppRef - 1)).give q, ?_, rfl, rfl, by rwa [if_pos h0]⟩
    rw [pageDecref]
    exact (if_pos (by rw [hr, h0]; rfl)).trans hfree
  · have hne : (s.pages q).ppRef - 1 ≠ 0 := by
      rw [hr]
      intro e
      have he := congrArg BitVec.toNat e
      rw [BitVec.toNat_ofNat] at he
      simp at he
      omega
    rw [if_neg h0] at h1
    refine ⟨s.setRef q ((s.pages q).ppRef - 1), ?_, rfl, rfl, by rwa [if_neg h0]⟩
    rw [pageDecref]
    exact if_neg hne

/-- Pages that are neither directories nor tables may change without a trace in the tables. -/
theorem pteAt_frame {t : Mem} (hram : ∀ p, p ∈ G.dirs ∨ IsTable G s p → ∀ i, t.ram p i = s.ram p i)
    {d v : Nat} (hd : d ∈ G.dirs) (hv : v < 2 ^ 20) : t.pteAt d v = s.pteAt d v := by
  have hlt : v / 1024 < 1024 := by omega
  simp only [Mem.pteAt, hram d (.inl hd)]
  cases hp : present (s.ram d (v / 1024)) with
  | false => rfl
  | true => simp only [if_true, hram _ (.inr ⟨d, hd, _, hlt, hp, rfl⟩)]

theorem take {p : Nat} (h : VmInv G I x s (p :: fl)) (f : Word) :
    VmInv G (insert p I) x (s.take f p) fl ∧ IsData G (s.take f p) fl p ∧
    refs G (s.take f p) p = 0 ∧
      ∀ d ∈ G.dirs, ∀ v < 2 ^ 20, (s.take f p).pteAt d v = s.pteAt d v := by
  have hp : p < 2 ^ 20 := (h.free.lt p (by simp)).trans_le h.np
  have hram : ∀ q, q ∈ G.dirs ∨ IsTable G s q → ∀ i, (s.take f p).ram q i = s.ram q i := by
    rintro q hq i
    refine take_ram_ne hp (fun e => ?_) i
    subst e
    rcases hq with hq | hq
    · exact (h.dir q hq).2.2 (by simp)
    · exact h.not_isTable_free (by simp) hq
  have hrow : ∀ d ∈ G.dirs, ∀ i < 1024, (s.take f p).ram d i = s.ram d i :=
    fun d hd i _ => hram d (.inl hd) i
  have hpte : ∀ d ∈ G.dirs, ∀ v < 2 ^ 20, (s.take f p).pteAt d v = s.pteAt d v :=
    fun d hd v hv => pteAt_frame hram hd hv
  have hdata : ∀ q, IsData G s (p :: fl) q → IsData G (s.take f p) fl q := fun q hq =>
    ⟨hq.lt, hq.pool, fun e => hq.used (by simp [e]), hq.notDir,
      mt (isTable_congr hrow q).mp hq.notTable⟩
  have hrefs : ∀ q, refs G (s.take f p) q = refs G s q := fun q => by
    rw [refs, refs, mapSites_congr hpte, tableSites_congr hrow]
  have hself : IsData G (s.take f p) fl p := by
    refine ⟨h.free.lt p (by simp), h.pool p (by simp), (List.nodup_cons.mp h.free.nodup).1,
      fun hd => (h.dir p hd).2.2 (by simp), ?_⟩
    exact mt (isTable_congr hrow p).mp (h.not_isTable_free (by simp))
  refine ⟨⟨h.np, h.free.take f, fun q hq => h.pool q (by simp [hq]), ?_, ?_, ?_, ?_,
    fun q hq => hdata q (h.held q hq), ?_, ?_⟩, hself, (hrefs p).trans
      (h.refs_free (by simp)), hpte⟩
  · intro d hd
    obtain ⟨hlt, hrs, hnf⟩ := h.dir d hd
    exact ⟨hlt, hrs, fun e => hnf (by simp [e])⟩
  · intro d hd i hi hpr
    rw [hrow d hd i hi] at hpr ⊢
    obtain ⟨hlt, hrs, hnf, hnd⟩ := h.tbl d hd i hi hpr
    exact ⟨hlt, hrs, fun e => hnf (by simp [e]), hnd⟩
  · intro d₁ h₁ i₁ hi₁ d₂ h₂ i₂ hi₂ hp₁ hp₂ he
    rw [hrow d₁ h₁ i₁ hi₁] at hp₁ he
    rw [hrow d₂ h₂ i₂ hi₂] at hp₂ he
    exact h.tblInj d₁ h₁ i₁ hi₁ d₂ h₂ i₂ hi₂ hp₁ hp₂ he
  · intro d hd v hv hc hpr
    rw [hpte d hd v hv] at hpr ⊢
    exact hdata _ (h.mapped d hd v hv hc hpr)
  · intro q hlt hrs
    have hpq : ((s.take f p).pages q).ppRef = (s.pages q).ppRef := by
      by_cases hq : q = p
      · simp [Mem.take, hq]
      · simp [Mem.take, Function.update_of_ne hq]
    rw [hpq, hrefs]
    exact h.ref q hlt hrs
  · intro q
    rw [Set.mem_insert_iff, h.idle q, hrefs]
    constructor
    · rintro (rfl | ⟨hd, hr⟩)
      · exact ⟨hself, by rw [h.refs_free (by simp), h.held_free (by simp)]⟩
      · exact ⟨hdata q hd, hr⟩
    · rintro ⟨hd, hr⟩
      by_cases hq : q = p
      · exact .inl hq
      · exact .inr ⟨⟨hd.lt, hd.pool, by simp [hq, hd.used], hd.notDir,
          mt (isTable_congr hrow q).mpr hd.notTable⟩, hr⟩

theorem addDir (h : VmInv G I x s fl) {p : Nat} (hp : IsData G s fl p) (hr : refs G s p = 0)
    (hx : x p = 0) (hz : ∀ i < 1024, s.ram p i = 0#32) :
    VmInv { G with dirs := insert p G.dirs } (I \ {p}) x s fl := by
  have habs : ∀ i < 1024, present (s.ram p i) = false := fun i hi => by rw [hz i hi]; rfl
  have hpte : ∀ v < 2 ^ 20, s.pteAt p v = 0#32 := fun v hv => by
    simp [Mem.pteAt, habs (v / 1024) (by omega)]
  have hms : ∀ q, mapSites { G with dirs := insert p G.dirs } s q = mapSites G s q := fun q =>
    (sites_insert hp.notDir habs).1
  have hts : ∀ q, tableSites { G with dirs := insert p G.dirs } s q = tableSites G s q := fun q =>
    (sites_insert hp.notDir habs).2
  have htbl : ∀ q, IsTable { G with dirs := insert p G.dirs } s q ↔ IsTable G s q := fun q => by
    rw [isTable_iff, isTable_iff, hts]
  have hdata : ∀ q, q ≠ p → IsData G s fl q →
      IsData { G with dirs := insert p G.dirs } s fl q := fun q hq hd =>
    ⟨hd.lt, hd.pool, hd.used, by simp [hq, hd.notDir], mt (htbl q).mp hd.notTable⟩
  refine ⟨h.np, h.free, h.pool, ?_, ?_, ?_, ?_, ?_, ?_, ?_⟩
  · intro d hd
    rcases Finset.mem_insert.mp hd with rfl | hd
    · exact ⟨hp.lt, hp.pool, hp.used⟩
    · exact h.dir d hd
  · intro d hd i hi hpr
    rcases Finset.mem_insert.mp hd with rfl | hd
    · simp [habs i hi] at hpr
    · obtain ⟨hlt, hrs, hnf, hnd⟩ := h.tbl d hd i hi hpr
      refine ⟨hlt, hrs, hnf, ?_⟩
      have hne : pgnum (s.ram d i) ≠ p := fun e => hp.notTable ⟨d, hd, i, hi, hpr, e⟩
      simp [hne, hnd]
  · intro d₁ h₁ i₁ hi₁ d₂ h₂ i₂ hi₂ hp₁ hp₂ he
    rcases Finset.mem_insert.mp h₁ with rfl | h₁
    · simp [habs i₁ hi₁] at hp₁
    rcases Finset.mem_insert.mp h₂ with rfl | h₂
    · simp [habs i₂ hi₂] at hp₂
    exact h.tblInj d₁ h₁ i₁ hi₁ d₂ h₂ i₂ hi₂ hp₁ hp₂ he
  · intro d hd v hv hc hpr
    rcases Finset.mem_insert.mp hd with rfl | hd
    · simp [hpte v hv] at hpr
    · refine hdata _ (fun e => ?_) (h.mapped d hd v hv hc hpr)
      have hm : (d, v) ∈ mapSites G s p := mem_mapSites.mpr ⟨⟨hd, hv⟩, hc, hpr, e⟩
      have hpos := Finset.card_pos.mpr ⟨_, hm⟩
      rw [refs] at hr
      omega
  · intro q hq
    exact hdata q (fun e => hq (e ▸ hx)) (h.held q hq)
  · intro q hlt hrs
    rw [refs, hms, hts]
    exact h.ref q hlt hrs
  · intro q
    rw [Set.mem_sdiff, Set.mem_singleton_iff, h.idle q, refs, refs, hms, hts]
    constructor
    · rintro ⟨⟨hd, h0⟩, hq⟩
      exact ⟨hdata q hq hd, h0⟩
    · rintro ⟨hd, h0⟩
      have hq : q ≠ p ∧ q ∉ G.dirs := by simpa using hd.notDir
      exact ⟨⟨⟨hd.lt, hd.pool, hd.used, hq.2, mt (htbl q).mpr hd.notTable⟩, h0⟩, hq.1⟩

theorem takeDir {p : Nat} (h : VmInv G I x s (p :: fl)) :
    VmInv { G with dirs := insert p G.dirs } I x (s.take allocZero p) fl := by
  obtain ⟨h1, hdat, hr, _⟩ := h.take allocZero
  have hp : p < 2 ^ 20 := (h.free.lt p (by simp)).trans_le h.np
  have h2 := h1.addDir hdat hr (h.held_free (by simp)) fun i _ => take_ram_self hp i
  rwa [Set.insert_sdiff_self_of_notMem (h.notMem_idle (by simp))] at h2

section SetTable

variable {d i : Nat} {w : Word}

/-- The entries when a zeroed page becomes the page table of an empty slot. -/
theorem setTable_pteAt (h : VmInv G I x s fl) (hd : d ∈ G.dirs) (habs : present (s.ram d i) = false)
    (hp : pgnum w ∉ G.dirs) (hz : ∀ j < 1024, s.ram (pgnum w) j = 0#32) (hw : present w = true)
    {d' v : Nat} (hd' : d' ∈ G.dirs) (hv : v < 2 ^ 20) :
    (s.setRam d i w).pteAt d' v = s.pteAt d' v := by
  have hne : pgnum w ≠ d := fun e => hp (e ▸ hd)
  have hlt : v / 1024 < 1024 := by omega
  simp only [Mem.pteAt, Mem.setRam]
  by_cases hs : d' = d ∧ v / 1024 = i
  · obtain ⟨rfl, rfl⟩ := hs
    simp [hw, habs, hne, hz (v % 1024) (by omega)]
  · simp only [hs, if_false]
    cases hpr : present (s.ram d' (v / 1024)) with
    | false => rfl
    | true =>
      have hnd : pgnum (s.ram d' (v / 1024)) ≠ d := fun e => (h.tbl d' hd' _ hlt hpr).2.2.2 (e ▸ hd)
      simp [hnd]

theorem setTable_tableSites (hd : d ∈ G.dirs) (hi : i < 1024) (habs : present (s.ram d i) = false)
    (hw : present w = true) (q : Nat) : tableSites G (s.setRam d i w) q =
      if q = pgnum w then insert (d, i) (tableSites G s q) else tableSites G s q := by
  have hrow : ∀ d' i', (s.setRam d i w).ram d' i' = if d' = d ∧ i' = i then w else s.ram d' i' :=
    fun _ _ => rfl
  ext y
  by_cases hy : y = (d, i)
  · subst hy
    rw [mem_tableSites, hrow, if_pos ⟨rfl, rfl⟩]
    split_ifs with hq
    · simp [hd, hi, hw, hq]
    · simp [mem_tableSites, Ne.symm hq, habs]
  · have hy' : ¬ (y.1 = d ∧ y.2 = i) := fun e => hy (Prod.ext e.1 e.2)
    rw [mem_tableSites, hrow, if_neg hy', ← mem_tableSites]
    split_ifs <;> simp [hy]

theorem setTable_isTable (hd : d ∈ G.dirs) (hi : i < 1024) (habs : present (s.ram d i) = false)
    (hw : present w = true) (q : Nat) :
    IsTable G (s.setRam d i w) q ↔ q = pgnum w ∨ IsTable G s q := by
  rw [isTable_iff, isTable_iff, setTable_tableSites hd hi habs hw]
  split_ifs with hq
  · simp [hq]
  · simp [hq]

end SetTable

/-- A zeroed data page with one held reference becomes the page table of an empty slot. -/
theorem setTable (h : VmInv G I x s fl) {d i p : Nat} (hd : d ∈ G.dirs) (hi : i < 1024)
    (habs : present (s.ram d i) = false) (hp : IsData G s fl p) (hr : refs G s p = 0)
    (hz : ∀ j < 1024, s.ram p j = 0#32) {w : Word} (hw : present w = true) (hwp : pgnum w = p)
    {x' : Nat → Nat} (hx : x = fun q => if q = p then x' q + 1 else x' q) (hx' : x' p = 0) :
    VmInv G I x' (s.setRam d i w) fl ∧
      (∀ q, IsTable G (s.setRam d i w) q ↔ q = p ∨ IsTable G s q) ∧
      ∀ d' ∈ G.dirs, ∀ v < 2 ^ 20, (s.setRam d i w).pteAt d' v = s.pteAt d' v := by
  subst hwp
  have hrow : ∀ d' i', (s.setRam d i w).ram d' i' =
      if d' = d ∧ i' = i then w else s.ram d' i' := fun _ _ => rfl
  have hpte : ∀ d' ∈ G.dirs, ∀ v < 2 ^ 20, (s.setRam d i w).pteAt d' v = s.pteAt d' v :=
    fun d' hd' v hv =>
    h.setTable_pteAt hd habs hp.notDir hz hw hd' hv
  have htbl := setTable_isTable hd hi habs hw
  have hms : ∀ q, mapSites G (s.setRam d i w) q = mapSites G s q := mapSites_congr hpte
  have hts := setTable_tableSites hd hi habs hw
  have hmap0 : mapSites G s (pgnum w) = ∅ := Finset.card_eq_zero.mp (by rw [refs] at hr; omega)
  have hdata : ∀ q, q ≠ pgnum w → IsData G s fl q → IsData G (s.setRam d i w) fl q :=
    fun q hq hdq =>
    ⟨hdq.lt, hdq.pool, hdq.used, hdq.notDir,
      fun ht => ((htbl q).mp ht).elim hq hdq.notTable⟩
  refine ⟨⟨h.np, h.free.setRam _ _ _, h.pool, h.dir,
    ?_, ?_, ?_, ?_, ?_, ?_⟩, htbl, hpte⟩
  · intro d' hd' i' hi' hpr
    rw [hrow] at hpr ⊢
    split_ifs at hpr ⊢ with hs
    · exact ⟨hp.lt, hp.pool, hp.used, hp.notDir⟩
    · exact h.tbl d' hd' i' hi' hpr
  · intro d₁ h₁ i₁ hi₁ d₂ h₂ i₂ hi₂ hp₁ hp₂ he
    rw [hrow] at hp₁ hp₂
    rw [hrow, hrow] at he
    split_ifs at hp₁ hp₂ he with e₁ e₂ e₂
    · exact ⟨e₁.1.trans e₂.1.symm, e₁.2.trans e₂.2.symm⟩
    · exact absurd ⟨d₂, h₂, i₂, hi₂, hp₂, he.symm⟩ hp.notTable
    · exact absurd ⟨d₁, h₁, i₁, hi₁, hp₁, he⟩ hp.notTable
    · exact h.tblInj d₁ h₁ i₁ hi₁ d₂ h₂ i₂ hi₂ hp₁ hp₂ he
  · intro d' hd' v hv hc hpr
    rw [hpte d' hd' v hv] at hpr ⊢
    refine hdata _ (fun e => ?_) (h.mapped d' hd' v hv hc hpr)
    have hm : (d', v) ∈ mapSites G s (pgnum w) := mem_mapSites.mpr ⟨⟨hd', hv⟩, hc, hpr, e⟩
    simp [hmap0] at hm
  · intro q hq
    have hqp : q ≠ pgnum w := fun e => hq (e ▸ hx')
    exact hdata q hqp (h.held q (by simpa [hx, hqp] using hq))
  · intro q hlt hrs
    have he := h.ref q hlt hrs
    rw [show (s.setRam d i w).pages q = s.pages q from rfl, he, refs, refs, hms, hts, hx]
    by_cases hq : q = pgnum w
    · subst hq
      have h0 := tableSites_eq_empty hp.notTable
      simp [h0]
      congr 1
      omega
    · simp [hq]
  · intro q
    rw [h.idle q, refs, refs, hms, hts, hx]
    by_cases hq : q = pgnum w
    · have hn : ¬ IsData G (s.setRam d i w) fl (pgnum w) :=
        fun hd => hd.notTable ((htbl (pgnum w)).mpr (.inl rfl))
      simp [hq, hn]
    · simp only [hq, if_false]
      exact and_congr_left fun _ => ⟨hdata q hq, fun hd =>
        ⟨hd.lt, hd.pool, hd.used, hd.notDir, fun ht => hd.notTable ((htbl q).mpr (.inr ht))⟩⟩

/-- `pgdir_walk` with `create` adds a page table; no entry of any directory changes. -/
theorem newTable {p : Nat} (h : VmInv G I x s (p :: fl)) {d i : Nat} (hd : d ∈ G.dirs)
    (hi : i < 1024) (habs : present (s.ram d i) = false) :
    VmInv G I x (s.newTable d i p) fl ∧
      (∀ q, IsTable G (s.newTable d i p) q ↔ q = p ∨ IsTable G s q) ∧
      ∀ d' ∈ G.dirs, ∀ v < 2 ^ 20, (s.newTable d i p).pteAt d' v = s.pteAt d' v := by
  have hp : p < 2 ^ 20 := (h.free.lt p (by simp)).trans_le h.np
  have hx0 : x p = 0 := h.held_free (by simp)
  have hI : insert p I \ {p} = I := Set.insert_sdiff_self_of_notMem (h.notMem_idle (by simp))
  obtain ⟨h1, hdat, hr, hpte1⟩ := h.take allocZero
  have hreq : ((s.take allocZero p).pages p).ppRef = (s.pages p).ppRef := by simp [Mem.take]
  have h2 := h1.incref hdat
  rw [hreq, hI] at h2
  have hdne : d ≠ p := fun e => (h.dir d hd).2.2 (by simp [e])
  have hf : (pteP ||| pteU ||| pteW).toNat < 4096 := by decide
  have hzero : ∀ j < 1024,
      ((s.take allocZero p).setRef p ((s.pages p).ppRef + 1)).ram p j = 0#32 :=
      fun j _ => take_ram_self hp j
  have habs' : present (((s.take allocZero p).setRef p ((s.pages p).ppRef + 1)).ram d i) =
      false := by
    have hrd : ((s.take allocZero p).setRef p ((s.pages p).ppRef + 1)).ram d i = s.ram d i :=
      take_ram_ne (s := s) (f := allocZero) hp hdne i
    rw [hrd, habs]
  obtain ⟨h3, htbl3, hpte3⟩ := h2.setTable hd hi habs'
    ⟨hdat.lt, hdat.pool, hdat.used, hdat.notDir, hdat.notTable⟩ hr hzero
    (w := page2pa p ||| (pteP ||| pteU ||| pteW)) (present_or_right (by decide))
    (pgnum_entry p _ hp hf) rfl hx0
  refine ⟨h3, fun q => ?_, fun d' hd' v hv => ?_⟩
  · have hrow : ∀ d' ∈ G.dirs, ∀ j < 1024,
        ((s.take allocZero p).setRef p ((s.pages p).ppRef + 1)).ram d' j = s.ram d' j :=
      fun d' hd' j _ => take_ram_ne (s := s) (f := allocZero) hp
        (fun e => (h.dir d' hd').2.2 (by simp [e])) j
    rw [Mem.newTable, htbl3, isTable_congr hrow]
  · rw [Mem.newTable, hpte3 d' hd' v hv]
    exact hpte1 d' hd' v hv

/-- A directory without counted mappings leaves; the references to its tables stay held. -/
theorem dropDir (h : VmInv G I x s fl) {d : Nat} (hd : d ∈ G.dirs)
    (hnone : ∀ v < 2 ^ 20, G.counted v = true → present (s.pteAt d v) = false) :
    VmInv { G with dirs := G.dirs.erase d } (insert d I)
      (fun p => x p + (slotsOf s d 0 p).card) s fl := by
  -- The references to each page: those that leave the sites of tables are the ones held.
  have hrefs : ∀ q, refs { G with dirs := G.dirs.erase d } s q + (x q + (slotsOf s d 0 q).card) =
      refs G s q + x q := by
    intro q
    have hc := card_tableSites_erase (s := s) (q := q) hd
    rw [refs, refs, mapSites_erase hnone, hc]
    omega
  refine ⟨h.np, h.free, h.pool, fun d' hd' => h.dir d' (Finset.mem_of_mem_erase hd'), ?_, ?_, ?_,
    ?_, ?_, ?_⟩
  · intro d' hd' i hi hpr
    obtain ⟨hlt, hrs, hnf, hnd⟩ := h.tbl d' (Finset.mem_of_mem_erase hd') i hi hpr
    exact ⟨hlt, hrs, hnf, fun e => hnd (Finset.mem_of_mem_erase e)⟩
  · intro d₁ h₁ i₁ hi₁ d₂ h₂ i₂ hi₂ hp₁ hp₂ he
    exact h.tblInj d₁ (Finset.mem_of_mem_erase h₁) i₁ hi₁ d₂ (Finset.mem_of_mem_erase h₂) i₂ hi₂
      hp₁ hp₂ he
  · intro d' hd' v hv hc hpr
    exact (h.mapped d' (Finset.mem_of_mem_erase hd') v hv hc hpr).erase
  · intro q hq
    by_cases hxq : x q = 0
    · -- a table of `d`: distinct from all other tables, so free of uses once `d` is gone
      have hpos : 0 < (slotsOf s d 0 q).card := by omega
      obtain ⟨i, hi⟩ := Finset.card_pos.mp hpos
      obtain ⟨hi, hpr, he⟩ : i < 1024 ∧ present (s.ram d i) = true ∧ pgnum (s.ram d i) = q := by
        simpa [slotsOf] using hi
      obtain ⟨hlt, hrs, hnf, hnd⟩ := h.tbl d hd i hi hpr
      rw [he] at hlt hrs hnf hnd
      refine ⟨hlt, hrs, hnf, fun e => hnd (Finset.mem_of_mem_erase e), ?_⟩
      rintro ⟨d', hd', i', hi', hpr', he'⟩
      have hdd := (h.tblInj d' (Finset.mem_of_mem_erase hd') i' hi' d hd i hi hpr' hpr
        (he'.trans he.symm)).1
      exact Finset.ne_of_mem_erase hd' hdd
    · exact (h.held q hxq).erase
  · intro q hlt hrs
    rw [hrefs]
    exact h.ref q hlt hrs
  · intro q
    rw [Set.mem_insert_iff, h.idle q, hrefs]
    constructor
    · rintro (rfl | ⟨hq, h0⟩)
      · obtain ⟨hlt, hrs, hnf⟩ := h.dir q hd
        have hnt := h.not_isTable_dir hd
        have hnd : ¬ IsData G s fl q := fun e => e.notDir hd
        refine ⟨⟨hlt, hrs, hnf, by simp, mt isTable_erase hnt⟩, ?_⟩
        rw [refs, h.mapSites_eq_empty hnd, tableSites_eq_empty hnt]
        have hx0 : x q = 0 := by
          by_contra hx0
          exact hnd (h.held q hx0)
        simp [hx0]
      · exact ⟨hq.erase, h0⟩
    · rintro ⟨hq, h0⟩
      by_cases hqd : q = d
      · exact .inl hqd
      · refine .inr ⟨⟨hq.lt, hq.pool, hq.used, fun e => hq.notDir (by simp [hqd, e]), ?_⟩, h0⟩
        intro ht
        have hpos := Finset.card_pos.mpr (isTable_iff.mp ht)
        rw [refs] at h0
        omega

end VmInv

end NctuCourses.Osdi
