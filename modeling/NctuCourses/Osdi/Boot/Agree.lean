import NctuCourses.Osdi.Boot.Booted

namespace NctuCourses.Osdi

/-- The page of the local APIC. -/
def lapicRegion (lapic lapicaddr : Word) : Region :=
  ⟨lapic, pgsize, lapicaddr, ptePcd ||| ptePwt ||| pteW⟩

/-- What the kernel maps when it has booted; `lapic_init` maps nothing without a local APIC. -/
def Platform.bootedRegions (M : Platform) (lapicaddr : Word) : List Region :=
  if lapicaddr = 0#32 then M.regions else M.regions ++
    [lapicRegion (mmiobase + 0x3000#32) lapicaddr]

/-- The variables that `setupkvm` reads are those that booting has set. -/
structure Image.BootedWith (L : Image) (M : Platform) (B : Booted) (lapicaddr : Word) : Prop where
  pages : L.pages = B.pages
  bootstack : L.bootstack = M.bootstack
  percpuKstacks : L.percpuKstacks = M.percpuKstacks
  lapic : L.lapic = B.lapic
  lapicaddr : L.lapicaddr = lapicaddr

/-- Two directories have the same entry for every page outside `[UVPT, UVPT+PTSIZE)`. -/
def Mem.SameMappings (s : Mem) (d k : Nat) : Prop :=
  ∀ v < 2 ^ 20, v / 1024 ≠ pdx uvpt → s.pteAt d v = s.pteAt k v

section Lapic

variable {M : Platform} {a : KernState} {s : Mem}

/-- `lapic_init` adds the page of the local APIC to the kernel's mappings, if there is one. -/
theorem KernMapped.lapicInit (hk : KernMapped M M.regions a s) (lapicaddr : Word) :
    ∃ B a', lapicInit lapicaddr ⟨s, kva M.kernPage, kva (M.kernPage + 1), mmiobase + 0x3000#32,
      0#32⟩ = some B ∧
      B.kernPgdir = kva M.kernPage ∧ B.pages = kva (M.kernPage + 1) ∧
      B.lapic = (if lapicaddr = 0#32 then 0#32 else mmiobase + 0x3000#32) ∧
      KernMapped M (M.bootedRegions lapicaddr) a' B.mem := by
  by_cases hz : lapicaddr = 0#32
  · refine ⟨_, a, if_pos hz, rfl, rfl, (if_pos hz).symm, ?_⟩
    rw [Platform.bootedRegions, if_pos hz]
    exact hk
  · have htab : a.tables 958 ≠ none := by
      rw [ne_eq, hk.tables]
      decide
    have hnone : a.missing {958} = ∅ := by
      simp [KernState.missing, Finset.filter_singleton, htab]
    have hone : (roundup 4096#32 pgsize).toNat / 4096 = 1 := by decide
    have hslot : pageTables (mmiobase + 0x3000#32) 1 = {958} := by decide
    obtain ⟨t, a', ht, hn, hd, hg, hent⟩ :=
      hk.describes.mmioMapRegion (mmiobase + 0x3000#32) 4096#32 lapicaddr hone
      hslot (by decide) (hnone ▸ Nat.zero_le _) (by decide)
    have hround : roundup 4096#32 pgsize = pgsize := by decide
    rw [hround] at ht hent
    refine ⟨⟨t, kva M.kernPage, kva (M.kernPage + 1), mmiobase + 0x3000#32 + pgsize,
      mmiobase + 0x3000#32⟩, a', ?_, rfl, rfl, (if_neg hz).symm, hd, hn.trans hk.npages, ?_, ?_, ?_⟩
    · rw [Osdi.lapicInit, if_neg hz, if_pos rfl, bind_eq ht]
    · intro v hv
      rw [Platform.bootedRegions, if_neg hz, regionsEntry_append, regionsEntry_cons,
        regionsEntry_nil, lapicRegion, hent v hv, hk.entry v hv]
    · intro i
      rw [hg.tables, hk.tables, Finset.mem_singleton]
      omega
    · have hpages := hg.pages
      rw [hnone, Finset.card_empty] at hpages
      have hfree := hk.free
      omega

end Lapic

section Setupkvm

variable {M : Platform} {L : Image}

/-- The invariant of the task directories before there is any. -/
theorem FreeList.vmInv {s : Mem} {fl : List Nat} (hf : FreeList s fl) (hn : s.npages ≤ 2 ^ 20) :
    VmInv (taskSpace ∅ fun p => p ∉ fl) ∅ 0 s fl where
  np := hn
  free := hf
  pool p hp hnot := hnot hp
  dir := by simp [taskSpace]
  tbl := by simp [taskSpace]
  tblInj := by simp [taskSpace]
  mapped := by simp [taskSpace]
  held p hp := absurd rfl hp
  ref p _ hp := by
    have hmaps : mapSites (taskSpace ∅ fun p => p ∉ fl) s p = ∅ :=
      Finset.eq_empty_of_forall_notMem fun y hy => Finset.notMem_empty y.1 (mem_mapSites.mp hy).1.1
    have htables : tableSites (taskSpace ∅ fun p => p ∉ fl) s p = ∅ :=
      Finset.eq_empty_of_forall_notMem fun y hy => Finset.notMem_empty y.1
        (mem_tableSites.mp hy).1.1
    rw [hf.ref p (not_not.mp hp), refs, hmaps, htables]
    rfl
  idle p := by
    refine ⟨fun h => absurd h (Set.notMem_empty p), fun h => ?_⟩
    exact absurd h.1.used h.1.pool

/-- `setupkvm` makes the entries of `mem_init`, and maps the local APIC in any case. -/
theorem kvmEntry (hM : M.Boots) (hp : L.pages = kva (M.kernPage + 1))
    (hb : L.bootstack = M.bootstack) (hk : L.percpuKstacks = M.percpuKstacks) {rs : List Region}
    (hrs : kvmRegions L M.npages = some rs) (v : Nat) :
    regionsEntry rs 0#32 v = regionsEntry (M.regions ++ [lapicRegion L.lapic L.lapicaddr])
      0#32 v := by
  have hfirst := hM.firstFree_bounds
  have hpages : kernbase ≤ L.pages := hp ▸ kernbase_le_kva (by omega)
  rw [kvmRegions_eq hM.kstacks hk hpages (hb ▸ hM.bootstack)] at hrs
  have hperm : ∀ va size pa perm, (⟨va, size, pa, perm ||| pteP⟩ : Region).entry v =
      (⟨va, size, pa, perm⟩ : Region).entry v := by
    intro va size pa perm
    simp only [Region.entry, BitVec.or_assoc, BitVec.or_self]
  have hround : roundup kstksize pgsize = kstksize := by decide
  rw [← Option.some.inj hrs, Platform.regions, kernRegions, staticRegions, hp, hb, hround]
  simp only [List.cons_append, List.nil_append, regionsEntry_cons, regionsEntry_append,
    hperm, lapicRegion]

theorem kvmTables_card {n : Nat} {rs : List Region} (h0 : 0 < n) (hn : n ≤ 65536)
    (hrs : kvmRegions L n = some rs) :
    (regionsTables rs).card ≤ 68 := by
  have hset : regionsTables rs ⊆ insert (pdx L.lapic)
      (insert 956 (insert 0 (Finset.Ico 959 1024))) := by
    intro i hi
    rw [kvmRegions_tables h0 hn hrs] at hi
    simp only [Finset.mem_insert, Finset.mem_Ico]
    omega
  have hcard : (insert 956 (insert 0 (Finset.Ico 959 1024))).card = 67 := by
    rw [Finset.card_insert_of_notMem (by simp), Finset.card_insert_of_notMem (by simp),
      Nat.card_Ico]
  calc (regionsTables rs).card ≤ _ := Finset.card_le_card hset
    _ ≤ 67 + 1 := hcard ▸ Finset.card_insert_le _ _

/-- `setupkvm` after booting makes a directory with its regions, and
leaves the kernel's as it was. -/
theorem KernMapped.setupkvm {rs : List Region} {a : KernState} {s : Mem} (hM : M.Boots)
    (hk : KernMapped M rs a s) (hp : L.pages = kva (M.kernPage + 1))
    (hb : L.bootstack = M.bootstack) (hks : L.percpuKstacks = M.percpuKstacks)
    (hl : L.lapic = 0#32 ∨ mmiobase ≤ L.lapic ∧ L.lapic < mmiolim) :
    ∃ d t, setupkvm L s = some (some (kva d), t) ∧
      (∀ v < 2 ^ 20, t.pteAt d v = regionsEntry (M.regions ++ [lapicRegion L.lapic L.lapicaddr])
        0#32 v) ∧
      ∀ v < 2 ^ 20, v / 1024 ≠ selfSlot → t.pteAt M.kernPage v = regionsEntry rs 0#32 v := by
  have hnp := M.npages_le
  have hbound := hM.kernPage_bounds
  have hd := hk.describes
  have h65536 := hd.np
  have hlen := hk.free
  have hinv := hd.free.freeList.vmInv (h65536.trans (by decide))
  obtain ⟨hfail, _⟩ | ⟨rs', d, fl₁, t, fl', hrs, _, hrun, _, _, _, _, hent, _, _, _, hram⟩ :=
    setupkvm_spec hinv h65536 hl
  · -- there are enough free pages
    have hpages : kernbase ≤ L.pages := hp ▸ kernbase_le_kva (by have := hM.firstFree_bounds; omega)
    have hrs := kvmRegions_eq (n := s.npages) hM.kstacks hks hpages (hb ▸ hM.bootstack)
    have hcard := kvmTables_card (by rw [hk.npages]; omega) h65536 hrs
    have hshort := hfail _ hrs
    omega
  · refine ⟨d, t, hrun, ?_, ?_⟩
    · intro v hv
      rw [hent v hv]
      rw [hk.npages] at hrs
      exact kvmEntry hM hp hb hks hrs v
    · intro v hv hne
      rw [← hk.entry v hv, ← hd.pteAt hv hne, Mem.pteAt, Mem.pteAt, hram _ hd.kern.2.1]
      cases ht : a.tables (v / 1024) with
      | none =>
        rw [hd.row_none (by omega) hne ht]
        rfl
      | some p =>
        rw [hd.row_some ht, tableEntry_toNat (hd.lt_of_table ht), hram _ (hd.table _ _ ht).2.2.1]

/-- Without a local APIC, `lapic` is null and `setupkvm` maps page 0,
which the kernel does not map. -/
theorem page_zero (M : Platform) :
    present (regionsEntry (M.regions ++ [lapicRegion 0#32 0#32]) 0#32 0) = true ∧
    regionsEntry M.regions 0#32 0 = 0#32 := by
  have hnone : regionsEntry M.regions 0#32 0 = 0#32 :=
    kernEntry_none (M.npages_le.trans (by decide)) 0#32 (by decide) (.inl (by decide))
  refine ⟨?_, hnone⟩
  rw [regionsEntry_append, hnone]
  decide

/-- After booting, a new task directory has the kernel's own entries
exactly if there is a local APIC. -/
theorem setupkvm_agrees_iff {B : Booted} (hM : M.Loaded) (hboot : memInit M = some B)
    (hfree : 137 ≤ M.freed.length) (lapicaddr : Word) :
    ∃ B', lapicInit lapicaddr B = some B' ∧ ∀ L : Image, L.BootedWith M B' lapicaddr →
      ∃ d t, setupkvm L B'.mem = some (some (kva d), t) ∧
        (t.SameMappings d (pgnum (B'.kernPgdir - kernbase)) ↔ lapicaddr ≠ 0#32) := by
  have hM := hM.boots hboot
  have hnp := M.npages_le
  have hfirst := hM.firstFree_bounds
  obtain ⟨s, a, rfl, hk⟩ := hM.memInit_state hfree hboot
  obtain ⟨B', a', hB', hkern, hpages, hlapic, hk'⟩ := hk.lapicInit lapicaddr
  have hpg : pgnum (B'.kernPgdir - kernbase) = M.kernPage := by
    rw [hkern, kva_sub_kernbase, pgnum_page2pa _ (by omega)]
  refine ⟨B', hB', ?_⟩
  intro L hL
  have hl : L.lapic = if lapicaddr = 0#32 then 0#32 else mmiobase + 0x3000#32 :=
    hL.lapic.trans hlapic
  have hrange : L.lapic = 0#32 ∨ mmiobase ≤ L.lapic ∧ L.lapic < mmiolim := by
    rw [hl]
    split_ifs
    · exact .inl rfl
    · exact .inr (by decide)
  obtain ⟨d, t, hrun, hd, hkd⟩ :=
    hk'.setupkvm hM (hL.pages.trans hpages) hL.bootstack hL.percpuKstacks hrange
  refine ⟨d, t, hrun, ?_⟩
  rw [hpg]
  by_cases hz : lapicaddr = 0#32
  · -- page 0 is present in one of the directories only
    obtain ⟨hpresent, hnone⟩ := page_zero M
    have h0 := hd 0 (by decide)
    have hk0 := hkd 0 (by decide) (by decide)
    rw [hl, hL.lapicaddr, hz, if_pos rfl] at h0
    rw [Platform.bootedRegions, if_pos hz] at hk0
    refine ⟨fun hsame => ?_, fun hne => absurd hz hne⟩
    have he := hsame 0 (by decide) (by decide)
    rw [h0, hk0, hnone] at he
    rw [he] at hpresent
    exact absurd hpresent (by decide)
  · refine ⟨fun _ => hz, fun _ v hv hne => ?_⟩
    rw [hd v hv, hkd v hv hne, Platform.bootedRegions, if_neg hz, hl, if_neg hz, hL.lapicaddr]

end Setupkvm

/-- A machine with 640 KB of base and 1 MB of extended memory, and a kernel of 64 KB. -/
def smallPc : Platform where
  cmos r := if r = 0x15 then 0x80#8 else if r = 0x16 then 0x02#8 else if r = 0x18
    then 0x04#8 else 0#8
  kernEnd := kernbase + 0x110000#32
  bootstack := kernbase + 0x108000#32
  percpuKstacks := kernbase + 0x100000#32
  ram _ _ := 0#32

theorem smallPc_boots : smallPc.Boots where
  above := by decide
  inside := by decide
  basemem := by decide
  extmem := by decide
  bootstack := by decide
  kstacks := by decide

theorem smallPc_returns : ∃ B, memInit smallPc = some B :=
  smallPc_boots.memInit_returns (by decide) (by decide) (by decide)

theorem smallPc_freed : 137 ≤ smallPc.freed.length :=
  le_trans (by decide) (smallPc_boots.freed_length (by decide) (by decide))

/-- The variables as booting `smallPc` leaves them, with a user program of one page. -/
def smallPcImage (B : Booted) (lapicaddr : Word) : Image where
  pages := B.pages
  bootstack := smallPc.bootstack
  percpuKstacks := smallPc.percpuKstacks
  kernPgdir := B.kernPgdir
  lapic := B.lapic
  lapicaddr := lapicaddr
  utext := (kernbase + 0x10E000#32, kernbase + 0x10F000#32)
  udata := (kernbase + 0x10F000#32, kernbase + 0x10F000#32)
  ubss := (kernbase + 0x10F000#32, kernbase + 0x10F000#32)
  urodata := (kernbase + 0x10F000#32, kernbase + 0x10F000#32)
  userEntry := kernbase + 0x10E000#32
  idleEntry := kernbase + 0x10E000#32
  bootcpu := 0

/-- The agreement on `smallPc` with a local APIC at its usual address. -/
theorem setupkvm_agrees_smallPc : ∃ B, memInit smallPc = some B ∧
    ∃ B', lapicInit 0xFEE00000#32 B = some B' ∧
      ∃ d t, setupkvm (smallPcImage B' 0xFEE00000#32) B'.mem = some (some (kva d), t) ∧
        t.SameMappings d (pgnum (B'.kernPgdir - kernbase)) := by
  obtain ⟨B, hB⟩ := smallPc_returns
  obtain ⟨B', hB', h⟩ := setupkvm_agrees_iff smallPc_boots.toLoaded hB smallPc_freed 0xFEE00000#32
  obtain ⟨d, t, hrun, hiff⟩ := h (smallPcImage B' 0xFEE00000#32) ⟨rfl, rfl, rfl, rfl, rfl⟩
  exact ⟨B, hB, B', hB', d, t, hrun, hiff.mpr (by decide)⟩

/-- Without a local APIC page 0 is present in the task's directory, and not in the kernel's. -/
theorem setupkvm_maps_page_zero : ∃ B, memInit smallPc = some B ∧ lapicInit 0#32 B = some B ∧
    ∀ L : Image, L.BootedWith smallPc B 0#32 → ∃ d t, setupkvm L B.mem = some (some (kva d), t) ∧
      present (t.pteAt d 0) = true ∧ present (t.pteAt (pgnum (B.kernPgdir - kernbase)) 0) =
        false := by
  obtain ⟨B, hB⟩ := smallPc_returns
  obtain ⟨s, a, rfl, hk⟩ := smallPc_boots.memInit_state smallPc_freed hB
  refine ⟨_, hB, if_pos rfl, ?_⟩
  intro L hL
  obtain ⟨d, t, hrun, hd, hkd⟩ :=
    hk.setupkvm smallPc_boots hL.pages hL.bootstack hL.percpuKstacks (.inl hL.lapic)
  obtain ⟨hpresent, hnone⟩ := page_zero smallPc
  have hl : L.lapic = 0#32 := hL.lapic
  have hpg : pgnum (kva smallPc.kernPage - kernbase) = smallPc.kernPage := by
    rw [kva_sub_kernbase, pgnum_page2pa _ (by decide)]
  refine ⟨d, t, hrun, ?_, ?_⟩
  · rw [hd 0 (by decide), hl, hL.lapicaddr]
    exact hpresent
  · rw [hpg, hkd 0 (by decide) (by decide), hnone]
    rfl

end NctuCourses.Osdi
