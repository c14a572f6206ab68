import NctuCourses.Osdi.Boot.Installed

namespace NctuCourses.Osdi

namespace Platform

variable (M : Platform)

def npages : Nat := (i386DetectMemory M.cmos).1.toNat

/-- The page of `kern_pgdir`, the first one after the kernel. -/
def kernPage : Nat := (M.kernEnd.toNat - kernbase.toNat + 4095) / 4096

/-- The page after `pages`. -/
def firstFree : Nat := M.kernPage + 1 + (8 * M.npages + 4095) / 4096

def boot : Boot where
  npages := (i386DetectMemory M.cmos).1
  npagesBasemem := (i386DetectMemory M.cmos).2
  nextfree := kva M.firstFree

/-- The free list that `page_init` makes. -/
def freed : List Nat := ((List.range M.npages).filter (madeFree M.boot)).reverse

/-- The kernel is linked above the I/O hole, and there is memory where it is loaded. -/
structure Loaded : Prop where
  above : kernbase.toNat + extphysmem.toNat ≤ M.kernEnd.toNat
  inside : M.kernEnd.toNat ≤ kernbase.toNat + 4096 * M.npages

/-- Memory when `page_init` is called: the directory is cleared, but
for the slot that maps itself. -/
def start : Mem :=
  store (slot (kva M.kernPage) (pdx uvpt)) (kva M.kernPage - kernbase ||| pteU ||| pteP)
    (memsetPage (kva M.kernPage) (bootMem M.boot M.ram))

theorem mem_freed {p : Nat} : p ∈ M.freed ↔ p < M.npages ∧ madeFree M.boot p = true := by
  simp [freed]

theorem npages_le : M.npages ≤ 16639 := i386DetectMemory_le M.cmos

end Platform

theorem kva_add {p q : Nat} (h : p + q < 65536) :
    kva p + BitVec.ofNat 32 (4096 * q) = kva (p + q) := by
  apply BitVec.eq_of_toNat_eq
  rw [BitVec.toNat_add, kva_toNat (by omega), kva_toNat h, BitVec.toNat_ofNat]
  omega

theorem le_of_paddr {w pa : Word} (h : paddr w = some pa) : kernbase ≤ w := by
  by_contra hlt
  rw [paddr, if_pos (BitVec.not_le.mp hlt)] at h
  cases h

namespace Platform.Loaded

variable {M : Platform} (hM : M.Loaded)

include hM

theorem kernPage_bounds : 256 ≤ M.kernPage ∧ M.kernPage ≤ M.npages := by
  have habove := hM.above
  have hinside := hM.inside
  have hext : extphysmem.toNat = 1048576 := by decide
  rw [kernPage]
  omega

theorem firstFree_bounds : M.kernPage + 2 ≤ M.firstFree ∧ M.firstFree < 65536 := by
  have hnp := M.npages_le
  have hbound := hM.kernPage_bounds
  rw [firstFree]
  omega

theorem kernPgdir_eq : roundup M.kernEnd pgsize = kva M.kernPage := by
  have hnp := M.npages_le
  have habove := hM.above
  have hinside := hM.inside
  have hkb : kernbase.toNat = 4026531840 := by decide
  apply BitVec.eq_of_toNat_eq
  rw [kva_toNat (by have hbound := hM.kernPage_bounds; omega), kernPage, hkb]
  rw [hkb] at habove hinside
  rw [roundup_toNat (by omega)]
  omega

theorem pages_ne_zero : kva (M.kernPage + 1) ≠ 0#32 := by
  have hfirst := hM.firstFree_bounds
  intro he
  have htn := congrArg BitVec.toNat he
  rw [kva_toNat (by omega), BitVec.toNat_ofNat] at htn
  omega

theorem bootAlloc_pgdir :
    bootAlloc M.kernEnd pgsize 0#32 = (kva M.kernPage, kva (M.kernPage + 1)) := by
  have hfirst := hM.firstFree_bounds
  have hone : roundup pgsize pgsize = BitVec.ofNat 32 (4096 * 1) := by decide
  rw [bootAlloc, if_pos rfl, if_neg (by decide), hM.kernPgdir_eq, hone, kva_add (by omega)]

theorem bootAlloc_pages :
    bootAlloc M.kernEnd (sizeofPageInfo * (i386DetectMemory M.cmos).1) (kva (M.kernPage + 1)) =
    (kva (M.kernPage + 1), kva M.firstFree) := by
  have hnp := M.npages_le
  have hbound := hM.kernPage_bounds
  have hfirst := hM.firstFree_bounds
  have hsz : (sizeofPageInfo * (i386DetectMemory M.cmos).1).toNat = 8 * M.npages := by
    rw [BitVec.toNat_mul, show sizeofPageInfo.toNat = 8 from rfl, ← npages]
    omega
  have hne : sizeofPageInfo * (i386DetectMemory M.cmos).1 ≠ 0#32 := by
    intro he
    have htn := congrArg BitVec.toNat he
    rw [hsz, BitVec.toNat_ofNat] at htn
    omega
  have hround : roundup (sizeofPageInfo * (i386DetectMemory M.cmos).1) pgsize =
      BitVec.ofNat 32 (4096 * ((8 * M.npages + 4095) / 4096)) := by
    apply BitVec.eq_of_toNat_eq
    rw [roundup_toNat (by omega), hsz, BitVec.toNat_ofNat]
    omega
  rw [bootAlloc, if_neg hM.pages_ne_zero, if_neg hne, hround, firstFree,
    kva_add (by rw [firstFree] at hfirst; omega)]

theorem pgnum_nextfree : pgnum (M.boot.nextfree - kernbase) = M.firstFree := by
  have hfirst := hM.firstFree_bounds
  rw [boot, kva_sub_kernbase, pgnum_page2pa _ (by omega)]

theorem pageInit :
    ∃ s, pageInit M.boot M.start = some s ∧ s.npages = M.npages ∧ s.ram = M.start.ram ∧
    FreeList s M.freed := by
  obtain ⟨s, hs, hn, hram, hfree, _⟩ :=
    pageInit_spec M.boot M.start.ram (kernbase_le_kva hM.firstFree_bounds.2)
  exact ⟨s, hs, hn, hram, hfree⟩

theorem memInit_eq : memInit M = (do
    let s ← Osdi.pageInit M.boot M.start
    let s ← checkPageFreeList true (kva M.firstFree) s
    let s ← checkPageAlloc (kva (M.kernPage + 1)) s
    let (mmioBase, s) ← checkPage (kva M.kernPage) mmiobase s
    let bootPa ← paddr M.bootstack
    let s ← (staticRegions (kva (M.kernPage + 1) - kernbase) bootPa s.npages).foldlM
      (fun s r => bootMapRegion (kva M.kernPage) r.va r.size r.pa r.perm s) s
    let s ← memInitMp (kva M.kernPage) M.percpuKstacks s
    checkKernPgdir (kva M.kernPage) (kva (M.kernPage + 1)) M.percpuKstacks s
    let s ← checkPageFreeList false (kva M.firstFree) s
    let s ← checkPageInstalledPgdir (kva M.kernPage) s
    some ⟨s, kva M.kernPage, kva (M.kernPage + 1), mmioBase, 0#32⟩) := by
  have hfirst := hM.firstFree_bounds
  have hpg := kernbase_le_kva (d := M.kernPage) (by omega)
  have hpages := kernbase_le_kva (d := M.kernPage + 1) (by omega)
  rw [memInit, hM.bootAlloc_pgdir]
  dsimp only
  rw [hM.bootAlloc_pages]
  dsimp only
  rw [bind_eq (paddr_of_le hpg)]
  simp only [paddr_of_le hpages]
  rfl

end Platform.Loaded

/-- A machine on which the mappings of `mem_init` can be made. -/
structure Platform.Boots (M : Platform) : Prop extends M.Loaded where
  basemem : M.boot.npagesBasemem.toNat ≤ pgnum iophysmem
  extmem : M.firstFree < M.npages
  bootstack : kernbase ≤ M.bootstack
  kstacks : ∀ i < maxCpu, kernbase ≤ M.percpuKstacks + BitVec.ofNat 32 i * kstksize

section Returned

variable {M : Platform} {s t : Mem} {B : Booted}

theorem of_foldlM_some {σ α : Type} {f : σ → α → Option σ} {l : List α} {s t : σ}
    (h : l.foldlM f s = some t) :
    ∀ x ∈ l, ∃ u v, f u x = some v := by
  induction l generalizing s with
  | nil => simp
  | cons y l ih =>
    rw [List.foldlM_cons] at h
    obtain ⟨u, hu, h⟩ := of_bind_eq_some h
    intro x hx
    cases List.mem_cons.mp hx with
    | inl he => exact ⟨s, u, he ▸ hu⟩
    | inr hx => exact ih h x hx

theorem kstacks_of_memInitMp {pgdir percpuKstacks : Word}
    (h : memInitMp pgdir percpuKstacks s = some t) :
    ∀ i < maxCpu, kernbase ≤ percpuKstacks + BitVec.ofNat 32 i * kstksize := by
  intro i hi
  rw [memInitMp] at h
  obtain ⟨u, v, hstep⟩ := of_foldlM_some h i (List.mem_range.mpr hi)
  obtain ⟨pa, hpa, _⟩ := of_bind_eq_some hstep
  exact le_of_paddr hpa

/-- The self-test of the free list fails when base memory reaches into the I/O hole. -/
theorem basemem_of_passes (h160 : 160 < M.npages)
    (hall : ∀ p ∈ M.freed, checkFreePage M.npages (kva M.firstFree) p = some ()) :
    M.boot.npagesBasemem.toNat ≤ pgnum iophysmem := by
  have hio : pgnum iophysmem = 160 := by decide
  have hmp : pgnum mpentryPaddr = 7 := by decide
  rw [hio]
  by_contra hgt
  have hfree : madeFree M.boot 160 = true := by
    simp [madeFree, hmp, show 160 < M.boot.npagesBasemem.toNat by omega]
  have hpass := hall 160 (M.mem_freed.mpr ⟨h160, hfree⟩)
  rw [checkFreePage] at hpass
  obtain ⟨_, hpass⟩ := of_assert_bind hpass
  obtain ⟨_, hpass⟩ := of_assert_bind hpass
  obtain ⟨hne, _⟩ := of_assert_bind hpass
  exact hne (by decide)

/-- When `mem_init` returns, it has been able to make its mappings. -/
theorem Platform.Loaded.boots (hM : M.Loaded) (h : memInit M = some B) : M.Boots := by
  have hnp := M.npages_le
  have hbound := hM.kernPage_bounds
  obtain ⟨s₁, hs₁, hn₁, _, hfree⟩ := hM.pageInit
  rw [hM.memInit_eq, bind_eq hs₁] at h
  obtain ⟨s₂, hs₂, h⟩ := of_bind_eq_some h
  obtain ⟨s₃, _, h⟩ := of_bind_eq_some h
  obtain ⟨⟨base, s₄⟩, _, h⟩ := of_bind_eq_some h
  obtain ⟨bootPa, hboot, h⟩ := of_bind_eq_some h
  obtain ⟨s₅, _, h⟩ := of_bind_eq_some h
  obtain ⟨s₆, hs₆, _⟩ := of_bind_eq_some h
  obtain ⟨hall, _, p, hp, hhigh⟩ := hfree.passes hs₂
  rw [hn₁] at hall
  obtain ⟨hp, hmade⟩ := M.mem_freed.mp hp
  rw [page2pa_lt_extphysmem (by omega)] at hhigh
  have hbase := basemem_of_passes (by omega) hall
  obtain ⟨_, _, _, hkern⟩ := madeFree_ranges M.boot hbase hmade
  have hext : pgnum extphysmem = 256 := by decide
  rw [hM.pgnum_nextfree, hext] at hkern
  exact ⟨hM, hbase, by omega, le_of_paddr hboot, kstacks_of_memInitMp hs₆⟩

end Returned

/-- The regions of `mem_init`. -/
def Platform.regions (M : Platform) : List Region :=
  kernRegions (kva (M.kernPage + 1) - kernbase) (M.bootstack - kernbase) M.percpuKstacks M.npages

/-- The kernel's directory maps the regions `rs` and nothing else, and there are
free pages for another one. -/
structure KernMapped (M : Platform) (rs : List Region) (a : KernState) (s : Mem) : Prop where
  describes : Describes M.kernPage none [] a s
  npages : s.npages = M.npages
  entry : ∀ v < 2 ^ 20, a.entry v = regionsEntry rs 0#32 v
  tables : ∀ i, a.tables i = none ↔ ¬(i = 956 ∨ 958 ≤ i ∧ i < 1024 ∨ i = 0)
  free : 69 ≤ a.free.length

theorem countP_suffix {l m : List Nat} (h : m <:+ l) (q : Nat → Bool) :
    l.countP q + m.length ≤ m.countP q + l.length := by
  obtain ⟨t, rfl⟩ := h
  have hle := List.countP_le_length (p := q) (l := t)
  rw [List.countP_append, List.length_append]
  omega

theorem exists_three {l : List Nat} (h : 3 ≤ l.length) :
    ∃ p0 p1 p2 l', l = p0 :: p1 :: p2 :: l' := by
  match l, h with
  | p0 :: p1 :: p2 :: l', _ => exact ⟨p0, p1, p2, l', rfl⟩

namespace Platform.Boots

variable {M : Platform} (hM : M.Boots)

include hM

/-- The free list of `page_init` passes the self-test. -/
theorem allowed {p : Nat} (hp : madeFree M.boot p = true) : Allowed M.firstFree p := by
  have hmp : pgnum mpentryPaddr = 7 := by decide
  have hio : pgnum iophysmem = 160 := by decide
  have hext : pgnum extphysmem = 256 := by decide
  obtain ⟨h0, h7, hhole, hkern⟩ := madeFree_ranges M.boot hM.basemem hp
  rw [hM.pgnum_nextfree] at hkern
  rw [hmp] at h7
  rw [hio, hext] at hhole
  rw [hext] at hkern
  exact ⟨h0, h7, by omega⟩

theorem kernPage_not_free : M.kernPage ∉ M.freed := by
  have hbound := hM.kernPage_bounds
  have hfirst := hM.firstFree_bounds
  intro hmem
  obtain ⟨_, _, h⟩ := hM.allowed (M.mem_freed.mp hmem).2
  omega

theorem describes : ∃ s a, Osdi.pageInit M.boot M.start = some s ∧ s.npages = M.npages ∧
    Describes M.kernPage none [] a s ∧ (∀ i, a.tables i = none) ∧ a.free = M.freed := by
  have hnp := M.npages_le
  have hfirst := hM.firstFree_bounds
  have hext := hM.extmem
  have h20 : M.kernPage < 2 ^ 20 := by omega
  have hself : pdx uvpt < 1024 := by decide
  obtain ⟨s, hs, hn, hram, hfree⟩ := hM.pageInit
  have hrow : ∀ i < 1024, s.ram M.kernPage i =
      if i = selfSlot then page2pa M.kernPage ||| pteU ||| pteP else 0#32 := by
    intro i hi
    rw [hram, start, store_slot _ _ _ _ h20 hself, kva_sub_kernbase]
    by_cases hi' : i = selfSlot
    · simp [Mem.setRam, hi', selfSlot]
    · have hi'' : i ≠ pdx uvpt := hi'
      simp [Mem.setRam, hi', hi'', memsetPage, Mem.zeroPage, kva_sub_kernbase, pgnum_page2pa _ h20]
  refine ⟨s, ⟨fun _ => none, fun _ => 0#32, fun p => (s.pages p).ppRef, M.freed, s.ram⟩,
    hs, hn, ?_, fun _ => rfl, rfl⟩
  refine ⟨by rw [hn]; exact hnp.trans (by decide), ⟨hn ▸ by omega, hM.kernPage_not_free, by simp⟩,
    hfree.freeBut, fun _ => rfl, ?_, ?_, by simp, by simp, by simp, by
    simp, fun _ _ => rfl, fun _ _ _ _ _ => rfl⟩
  · rw [hrow _ (by decide), if_pos rfl]
  · intro i hi hne
    rw [hrow i hi, if_neg hne]
    rfl

/-- The self-tests of the allocator and of the mappings; the page table for
memory-mapped devices is left. -/
theorem tests {s : Mem} {a : KernState} (hd : Describes M.kernPage none [] a s)
    (ht : ∀ i, a.tables i = none) (hlen : 3 ≤ a.free.length) :
    ∃ t u a', checkPageAlloc (kva (M.kernPage + 1)) s = some t ∧
      checkPage (kva M.kernPage) mmiobase t = some (mmiobase + 0x3000#32, u) ∧ u.npages = s.npages ∧
      Describes M.kernPage none [] a' u ∧ (∀ i, a'.tables i = none ↔ i ≠ 958) ∧
      (∀ v < 2 ^ 20, a'.entry v = 0#32) ∧
      ∃ l, l.Perm a.free ∧ a'.free <:+ l ∧ l.length = a'.free.length + 1 := by
  obtain ⟨p0, p1, p2, l, hf⟩ := exists_three hlen
  obtain ⟨t, g, hs, hn, hd1⟩ := hd.checkPageAlloc hf hM.pages_ne_zero
  obtain ⟨u, a', g', hu, hn', hd', hg, hent⟩ := hd1.checkPage hf (ht 0) (ht 1) (ht 958)
  have hmissing : KernState.missing { a with free := p2 :: p1 :: p0 :: l, data := g' }
      {958} = {958} := by
    simp [KernState.missing, Finset.filter_singleton, ht]
  have hpages := hg.pages
  rw [hmissing, Finset.card_singleton] at hpages
  refine ⟨t, u, a', hs, hu, hn'.trans hn, hd', ?_, ?_, p2 :: p1 :: p0 :: l, ?_, hg.suffix, hpages⟩
  · intro i
    rw [hg.tables i, Finset.mem_singleton]
    exact ⟨And.right, fun h => ⟨ht i, h⟩⟩
  · intro v hv
    rw [hent v hv]
    exact hd.absent v (ht _)
  · rw [hf]
    exact (List.reverse_perm [p0, p1, p2]).append_right l

theorem mem_regionsTables_regions (i : Nat) :
    i ∈ regionsTables M.regions ↔ i = 956 ∨ 959 ≤ i ∧ i < 1024 ∨ i = 0 := by
  have hnp := M.npages_le
  have hbound := hM.kernPage_bounds
  exact kernRegions_tables (by omega) (by omega) i

theorem regions_not_self :
    ∀ r ∈ M.regions, ∀ i < r.size.toNat / 4096, vpnAt r.va i / 1024 ≠ selfSlot := by
  intro r hr i hi he
  have hmem : selfSlot ∈ regionsTables M.regions :=
    mem_regionsTables.mpr ⟨r, hr, mem_pageTables.mpr ⟨i, hi, he⟩⟩
  rw [hM.mem_regionsTables_regions, selfSlot_eq] at hmem
  omega

theorem regionsTables_card : (regionsTables M.regions).card = 67 := by
  have hset : regionsTables M.regions = insert 956 (insert 0 (Finset.Ico 959 1024)) := by
    ext i
    simp only [hM.mem_regionsTables_regions, Finset.mem_insert, Finset.mem_Ico]
    omega
  rw [hset, Finset.card_insert_of_notMem (by simp), Finset.card_insert_of_notMem (by simp),
    Nat.card_Ico]

theorem mapKernel {s : Mem} {a : KernState} (hd : Describes M.kernPage none [] a s)
    (hn : s.npages = M.npages) (ht : ∀ i, a.tables i = none ↔ i ≠ 958)
    (he : ∀ v < 2 ^ 20, a.entry v = 0#32) (hlen : 67 ≤ a.free.length) :
    ∃ t u a', (staticRegions (kva (M.kernPage + 1) - kernbase) (M.bootstack - kernbase)
      s.npages).foldlM
        (fun s r => bootMapRegion (kva M.kernPage) r.va r.size r.pa r.perm s) s = some t ∧
      memInitMp (kva M.kernPage) M.percpuKstacks t = some u ∧ u.npages = M.npages ∧
      Describes M.kernPage none [] a' u ∧
      (∀ v < 2 ^ 20, a'.entry v = regionsEntry M.regions 0#32 v) ∧
      (∀ i, a'.tables i = none ↔ ¬(i = 956 ∨ 958 ≤ i ∧ i < 1024 ∨ i = 0)) ∧ a'.free <:+ a.free ∧
      a.free.length = a'.free.length + 67 := by
  have hmissing : a.missing (regionsTables M.regions) = regionsTables M.regions := by
    apply Finset.filter_true_of_mem
    intro i hi
    rw [hM.mem_regionsTables_regions] at hi
    exact (ht i).mpr (by omega)
  obtain ⟨u, a', hu, hnu, hd', hg, he'⟩ := hd.mapRegions M.regions hM.regions_not_self (by
    rw [hmissing, hM.regionsTables_card]
    exact hlen)
  have hpages := hg.pages
  rw [hmissing, hM.regionsTables_card] at hpages
  rw [regions, kernRegions, List.foldlM_append] at hu
  obtain ⟨t, hstatic, hu⟩ := of_bind_eq_some hu
  rw [← memInitMp_eq hM.kstacks] at hu
  rw [hn]
  refine ⟨t, u, a', hstatic, hu, hnu.trans hn, hd', ?_, ?_, hg.suffix, hpages⟩
  · intro v hv
    rw [he' v hv, he v hv]
  · intro i
    rw [hg.tables, ht, hM.mem_regionsTables_regions]
    omega

omit hM in
/-- Address `EXTPHYSMEM`, which the last self-test uses, has a page table and is not mapped. -/
theorem installed {s : Mem} {a : KernState} (hd : Describes M.kernPage none [] a s)
    (hn : s.npages = M.npages) (he : ∀ v < 2 ^ 20, a.entry v = regionsEntry M.regions 0#32 v)
    (ht : ∀ i, a.tables i = none ↔ ¬(i = 956 ∨ 958 ≤ i ∧ i < 1024 ∨ i = 0))
    (hlen : 69 ≤ a.free.length) :
    ∃ t a', checkPageInstalledPgdir (kva M.kernPage) s = some t ∧ KernMapped M M.regions a' t := by
  have hnp := M.npages_le
  obtain ⟨p0, p1, p2, l, hf⟩ := exists_three (l := a.free) (by omega)
  obtain ⟨t0, ht0⟩ := Option.ne_none_iff_exists'.mp (show a.tables 0 ≠ none by rw [ne_eq, ht]; simp)
  have hfree : a.entry 256 = 0#32 :=
    (he 256 (by decide)).trans (kernEntry_none (by omega) _ (by decide) (.inr (.inl (by decide))))
  obtain ⟨t, a', hs, hn', hd', ht', he', hf'⟩ := hd.checkPageInstalledPgdir hf ht0 hfree
  refine ⟨t, a', hs, hd', hn'.trans hn, ?_, ?_, ?_⟩
  · rw [he']
    exact he
  · rw [ht']
    exact ht
  · rw [hf] at hlen
    rw [hf']
    exact hlen

theorem memInit_state {B : Booted} (hfree : 137 ≤ M.freed.length) (h : memInit M = some B) : ∃ s a,
    B = ⟨s, kva M.kernPage, kva (M.kernPage + 1), mmiobase + 0x3000#32, 0#32⟩ ∧
    KernMapped M M.regions a s := by
  obtain ⟨s₁, a₁, hs₁, hn₁, hd1, ht1, hf1⟩ := hM.describes
  rw [hM.memInit_eq, bind_eq hs₁] at h
  obtain ⟨s₂, hs₂, h⟩ := of_bind_eq_some h
  obtain ⟨fl, g, hn₂, hperm, hd2⟩ := hd1.of_checkPageFreeList hs₂
  have hlen := hperm.length_eq
  rw [hf1] at hlen
  have h137 : 137 ≤ fl.length := by omega
  obtain ⟨s₃, s₄, a₄, hs₃, hs₄, hn₄, hd4, ht4, he4, l, hl, _, hlen4⟩ :=
    hM.tests hd2 ht1 (le_trans (by decide) h137)
  have hlen' : l.length = fl.length := hl.length_eq
  obtain ⟨s₅, s₆, a₆, hs₅, hs₆, hn₆, hd6, he6, ht6, _, hlen6⟩ :=
    hM.mapKernel hd4 (hn₄.trans (hn₂.trans hn₁)) ht4 he4 (by omega)
  rw [bind_eq hs₃, bind_eq hs₄] at h
  dsimp only at h
  rw [bind_eq (paddr_of_le hM.bootstack), bind_eq hs₅, bind_eq hs₆] at h
  obtain ⟨_, _, h⟩ := of_bind_eq_some h
  obtain ⟨s₇, hs₇, h⟩ := of_bind_eq_some h
  obtain ⟨fl', g', hn₇, hperm', hd7⟩ := hd6.of_checkPageFreeList hs₇
  have h69 : 69 ≤ fl'.length := by
    rw [hperm'.length_eq]
    omega
  obtain ⟨s₈, a₈, hs₈, hmapped⟩ := installed hd7 (hn₇.trans hn₆) he6 ht6 h69
  rw [bind_eq hs₈] at h
  exact ⟨s₈, a₈, (Option.some.inj h).symm, hmapped⟩

section Returns

variable (hlow : 71 ≤ M.boot.npagesBasemem.toNat) (hhigh : M.firstFree + 69 ≤ M.npages)

omit hM in
theorem length_le_countP {l m : List Nat} {q : Nat → Bool} (hm : m.Nodup)
    (h : ∀ p ∈ m, p ∈ l ∧ q p = true) :
    m.length ≤ l.countP q := by
  rw [List.countP_eq_length_filter]
  apply (hm.subperm _).length_le
  intro p hp
  exact List.mem_filter.mpr (h p hp)

include hlow in
theorem low_count : 69 ≤ M.freed.countP (· < 160) := by
  have hmp : pgnum mpentryPaddr = 7 := by decide
  have hbound := hM.kernPage_bounds
  have hm : (List.range' 1 6 ++ List.range' 8 63).Nodup := by decide
  apply length_le_countP hm
  intro p hp
  have hp : (1 ≤ p ∧ p < 7) ∨ (8 ≤ p ∧ p < 71) := by
    simpa [List.mem_range'_1] using hp
  have hfree : madeFree M.boot p = true := by
    have hbase : p < M.boot.npagesBasemem.toNat := by omega
    have h0 : p ≠ 0 := by omega
    have h7 : p ≠ 7 := by omega
    simp [madeFree, hmp, hbase, h0, h7]
  refine ⟨M.mem_freed.mpr ⟨by omega, hfree⟩, ?_⟩
  rw [decide_eq_true_iff]
  omega

include hhigh in
theorem high_count : 69 ≤ M.freed.countP (M.firstFree ≤ ·) := by
  have hio : pgnum iophysmem = 160 := by decide
  have hext : pgnum extphysmem = 256 := by decide
  have hbound := hM.kernPage_bounds
  have hfirst := hM.firstFree_bounds
  have hbase := hM.basemem
  have hm : (List.range' M.firstFree 69).Nodup := List.nodup_range'
  have hlen := length_le_countP (l := M.freed) (q := (M.firstFree ≤ ·)) hm
  rw [List.length_range'] at hlen
  apply hlen
  intro p hp
  have hp := List.mem_range'_1.mp hp
  have hfree : madeFree M.boot p = true := by
    have hnot : ¬p < M.boot.npagesBasemem.toNat := by omega
    have h0 : p ≠ 0 := by omega
    have h256 : 256 ≤ p := by omega
    simp [madeFree, hext, hnot, h0, h256, hM.pgnum_nextfree, hp.1]
  exact ⟨M.mem_freed.mpr ⟨by omega, hfree⟩, by simpa using hp.1⟩

include hlow hhigh in
theorem left_over {l m : List Nat} {n : Nat} (hperm : l.Perm M.freed) (hsuf : m <:+ l)
    (hlen : l.length = m.length + n) (hn : n ≤ 68) :
    (∀ p ∈ m, Allowed M.firstFree p) ∧ (∃ p ∈ m, p < 160) ∧ ∃ p ∈ m, M.firstFree ≤ p := by
  have hlow := hM.low_count hlow
  have hhigh := hM.high_count hhigh
  rw [← hperm.countP_eq] at hlow hhigh
  have hl := countP_suffix hsuf (· < 160)
  have hh := countP_suffix hsuf (M.firstFree ≤ ·)
  refine ⟨?_, ?_, ?_⟩
  · intro p hp
    exact hM.allowed (M.mem_freed.mp (hperm.mem_iff.mp (hsuf.subset hp))).2
  · obtain ⟨p, hp, hq⟩ := List.countP_pos_iff.mp (show 0 < m.countP (· < 160) by omega)
    exact ⟨p, hp, of_decide_eq_true hq⟩
  · obtain ⟨p, hp, hq⟩ := List.countP_pos_iff.mp (show 0 < m.countP (M.firstFree ≤ ·) by omega)
    exact ⟨p, hp, of_decide_eq_true hq⟩

include hlow hhigh in
/-- The free list is long enough for the kernel's page tables and a task's. -/
theorem freed_length : 138 ≤ M.freed.length := by
  have hlow := hM.low_count hlow
  have hhigh := hM.high_count hhigh
  have hbound := hM.kernPage_bounds
  have hfirst := hM.firstFree_bounds
  have hsplit := List.length_eq_countP_add_countP (l := M.freed) (· < 160)
  have hmono := List.countP_mono_left (l := M.freed) (p := (M.firstFree ≤ ·))
    (q := fun p => ¬ decide (p < 160) = true) (fun p _ hp => by
      have hp := of_decide_eq_true hp
      simp only [decide_eq_true_eq]
      omega)
  omega

include hlow hhigh in
/-- `mem_init` gets through all its self-tests when there are 69 pages of each kind. -/
theorem memInit_returns (halign : M.percpuKstacks % pgsize = 0#32) : ∃ B, memInit M = some B := by
  have hfirst := hM.firstFree_bounds
  have hbound := hM.kernPage_bounds
  obtain ⟨s₁, a₁, hs₁, hn₁, hd1, ht1, hf1⟩ := hM.describes
  obtain ⟨hallow, hbase, hext⟩ :=
    hM.left_over hlow hhigh (List.Perm.refl _) List.suffix_rfl (n := 0) rfl (by decide)
  rw [← hf1] at hallow hbase hext
  obtain ⟨s₂, hs₂⟩ := hd1.checkPageFreeList (by omega) hfirst.2 hallow hbase hext true
  obtain ⟨fl, g, hn₂, hperm, hd2⟩ := hd1.of_checkPageFreeList hs₂
  rw [hf1] at hperm
  have h138 : 138 ≤ fl.length := hperm.length_eq ▸ hM.freed_length hlow hhigh
  obtain ⟨s₃, s₄, a₄, hs₃, hs₄, hn₄, hd4, ht4, he4, l, hl, hsuf, hlen4⟩ :=
    hM.tests hd2 ht1 (le_trans (by decide) h138)
  have hlen' : l.length = fl.length := hl.length_eq
  obtain ⟨s₅, s₆, a₆, hs₅, hs₆, hn₆, hd6, he6, ht6, hsuf6, hlen6⟩ :=
    hM.mapKernel hd4 (hn₄.trans (hn₂.trans hn₁)) ht4 he4 (by omega)
  have hcheck : checkKernPgdir (kva M.kernPage) (kva (M.kernPage + 1)) M.percpuKstacks s₆ =
      some () := by
    have hent : ∀ v < 2 ^ 20, a₆.entry v = regionsEntry
        (kernRegions (kva (M.kernPage + 1) - kernbase)
        (M.bootstack - kernbase) M.percpuKstacks s₆.npages) 0#32 v := by
      rw [hn₆]
      exact he6
    refine hd6.checkKernPgdir (kernbase_le_kva (by omega)) ?_ hM.kstacks
      (congrArg BitVec.toNat halign) hent ht6
    rw [kva_toNat (by omega)]
    omega
  obtain ⟨hallow', hbase', hext'⟩ :=
    hM.left_over hlow hhigh (hl.trans hperm) (hsuf6.trans hsuf) (n := 68) (by omega) le_rfl
  obtain ⟨s₇, hs₇⟩ := hd6.checkPageFreeList (by omega) hfirst.2 hallow' hbase' hext' false
  obtain ⟨fl', g', hn₇, hperm', hd7⟩ := hd6.of_checkPageFreeList hs₇
  have h69 : 69 ≤ fl'.length := by
    rw [hperm'.length_eq]
    omega
  obtain ⟨s₈, a₈, hs₈, _⟩ := installed hd7 (hn₇.trans hn₆) he6 ht6 h69
  refine ⟨⟨s₈, kva M.kernPage, kva (M.kernPage + 1), mmiobase + 0x3000#32, 0#32⟩, ?_⟩
  rw [hM.memInit_eq, bind_eq hs₁, bind_eq hs₂, bind_eq hs₃, bind_eq hs₄]
  dsimp only
  rw [bind_eq (paddr_of_le hM.bootstack), bind_eq hs₅, bind_eq hs₆, bind_eq hcheck,
    bind_eq hs₇, bind_eq hs₈]

end Returns

end Platform.Boots

end NctuCourses.Osdi
