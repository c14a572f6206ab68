import NctuCourses.Osdi.Boot.PageTest
import NctuCourses.Osdi.Task.Create

namespace NctuCourses.Osdi

/-- The stack of CPU `i`. -/
def kstackRegion (percpuKstacks : Word) (i : Nat) : Region where
  va := kstacktop - BitVec.ofNat 32 i * (kstksize + kstkgap) - kstksize
  size := roundup kstksize pgsize
  pa := percpuKstacks + BitVec.ofNat 32 i * kstksize - kernbase
  perm := pteW

/-- All that `mem_init` maps. -/
def kernRegions (pagesPa bootPa percpuKstacks : Word) (npages : Nat) : List Region :=
  staticRegions pagesPa bootPa npages ++ (List.range maxCpu).map (kstackRegion percpuKstacks)

section Regions

theorem foldlM_congr {α β : Type} {f g : β → α → Option β} {l : List α}
    (h : ∀ b, ∀ x ∈ l, f b x = g b x) (b : β) :
    l.foldlM f b = l.foldlM g b := by
  induction l generalizing b with
  | nil => rfl
  | cons x l ih =>
    rw [List.foldlM_cons, List.foldlM_cons, h b x (by simp)]
    congr 1
    funext c
    exact ih (fun b y hy => h b y (by simp [hy])) c

theorem mapM_some {α β : Type} {f : α → Option β} {g : α → β} {l : List α}
    (h : ∀ x ∈ l, f x = some (g x)) :
    l.mapM f = some (l.map g) := by
  induction l with
  | nil => rfl
  | cons x l ih =>
    rw [List.mapM_cons, h x (by simp), ih fun y hy => h y (by simp [hy])]
    rfl

variable {percpuKstacks : Word}
  (h : ∀ i < maxCpu, kernbase ≤ percpuKstacks + BitVec.ofNat 32 i * kstksize)

include h in
theorem memInitMp_eq (pgdir : Word) (s : Mem) :
    memInitMp pgdir percpuKstacks s = ((List.range maxCpu).map (kstackRegion percpuKstacks)).foldlM
      (fun s r => bootMapRegion pgdir r.va r.size r.pa r.perm s) s := by
  rw [memInitMp, List.foldlM_map]
  apply foldlM_congr
  intro s i hi
  rw [bind_eq (paddr_of_le (h i (List.mem_range.mp hi)))]
  rfl

include h in
theorem kvmRegions_eq {L : Image} {n : Nat} (hk : L.percpuKstacks = percpuKstacks)
    (hp : kernbase ≤ L.pages) (hb : kernbase ≤ L.bootstack) : kvmRegions L n = some
      ([⟨upages, roundup (sizeofPageInfo * BitVec.ofNat 32 n) pgsize, L.pages - kernbase, pteU⟩,
        ⟨kstacktop - kstksize, kstksize, L.bootstack - kernbase, pteW⟩,
        ⟨kernbase, roundup (0xffffffff#32 - kernbase) pgsize, 0#32, pteW⟩,
        ⟨iophysmem, roundup (extphysmem - iophysmem) pgsize, iophysmem, pteW⟩] ++
        (List.range maxCpu).map (kstackRegion percpuKstacks) ++
        [⟨L.lapic, pgsize, L.lapicaddr, ptePcd ||| ptePwt ||| pteW⟩]) := by
  have hstacks : ((List.range maxCpu).mapM fun i => do
      let pa ← paddr (L.percpuKstacks + BitVec.ofNat 32 i * kstksize)
      some (⟨kstacktop - BitVec.ofNat 32 i * (kstksize + kstkgap) - kstksize,
        roundup kstksize pgsize, pa, pteW⟩ : Region)) = some
          ((List.range maxCpu).map (kstackRegion percpuKstacks)) := by
    apply mapM_some
    intro i hi
    rw [hk, bind_eq (paddr_of_le (h i (List.mem_range.mp hi)))]
    rfl
  rw [kvmRegions, bind_eq (paddr_of_le hp), bind_eq (paddr_of_le hb), bind_eq hstacks]

/-- A region that is `m` pages from page `b` on. -/
structure Region.Spans (r : Region) (b m : Nat) : Prop where
  base : pgnum r.va = b
  pages : r.size.toNat / 4096 = m
  le : b + m ≤ 2 ^ 20

theorem Region.Spans.entry_at {r : Region} {b m j : Nat} (hr : r.Spans b m) (hj : j < m) :
    r.entry (b + j) = some (r.pa + BitVec.ofNat 32 (4096 * j) ||| r.perm ||| pteP) := by
  have hle := hr.le
  have hv : vpnAt r.va j = b + j := by
    rw [vpnAt, hr.base]
    omega
  rw [← hv]
  exact Region.entry_vpnAt (by rwa [hr.pages])

theorem Region.Spans.entry_outside {r : Region} {b m v : Nat} (hr : r.Spans b m) (hv : v < 2 ^ 20)
    (hout : v < b ∨ b + m ≤ v) : r.entry v = none := by
  have hle := hr.le
  apply Region.entry_none hv
  intro j hj
  rw [hr.pages] at hj
  rw [vpnAt, hr.base]
  omega

theorem regionsEntry_of_unique {rs : List Region} {r : Region} {v : Nat} {e : Word} (hr : r ∈ rs)
    (he : r.entry v = some e) (huniq : ∀ r' ∈ rs, r' = r ∨ r'.entry v = none) (w : Word) :
    regionsEntry rs w v = e := by
  induction rs generalizing w with
  | nil => simp at hr
  | cons r₀ rs ih =>
    rw [regionsEntry_cons]
    by_cases hmem : r ∈ rs
    · exact ih hmem (fun r' hr' => huniq r' (by simp [hr'])) _
    · have hr₀ : r₀ = r := by
        cases hr with
        | head => rfl
        | tail _ hr => exact absurd hr hmem
      rw [hr₀, he, regionsEntry_of_none, Option.getD_some]
      intro r' hr'
      cases huniq r' (by simp [hr']) with
      | inl heq => exact absurd (heq ▸ hr') hmem
      | inr hnone => exact hnone

end Regions

section Layout

variable {pagesPa bootPa percpuKstacks : Word} {n : Nat} (hn : n ≤ 65536)

include hn in
theorem upages_spans (pa perm : Word) :
    (⟨upages, roundup (sizeofPageInfo * BitVec.ofNat 32 n) pgsize, pa, perm⟩ : Region).Spans 978944
      ((8 * n + 4095) / 4096) := by
  have hsz : (sizeofPageInfo * BitVec.ofNat 32 n).toNat = 8 * n := by
    rw [BitVec.toNat_mul, BitVec.toNat_ofNat, show sizeofPageInfo.toNat = 8 from rfl]
    omega
  refine ⟨show pgnum upages = 978944 by decide, ?_, by omega⟩
  change (roundup (sizeofPageInfo * BitVec.ofNat 32 n) pgsize).toNat / 4096 = _
  rw [roundup_toNat (by omega), hsz]
  omega

theorem bootstack_spans (pa perm : Word) :
    (⟨kstacktop - kstksize, roundup kstksize pgsize, pa, perm⟩ : Region).Spans 983032 8 where
  base := show pgnum (kstacktop - kstksize) = 983032 by decide
  pages := show (roundup kstksize pgsize).toNat / 4096 = 8 by decide
  le := by decide

theorem kernbase_spans (pa perm : Word) :
    (⟨kernbase, roundup (0xffffffff#32 - kernbase) pgsize, pa, perm⟩ : Region).Spans
      983040 65536 where
  base := show pgnum kernbase = 983040 by decide
  pages := show (roundup (0xffffffff#32 - kernbase) pgsize).toNat / 4096 = 65536 by decide
  le := by decide

theorem iophysmem_spans (pa perm : Word) :
    (⟨iophysmem, roundup (extphysmem - iophysmem) pgsize, pa, perm⟩ : Region).Spans 160 96 where
  base := show pgnum iophysmem = 160 by decide
  pages := show (roundup (extphysmem - iophysmem) pgsize).toNat / 4096 = 96 by decide
  le := by decide

theorem kstackRegion_spans {i : Nat} (hi : i < maxCpu) :
    (kstackRegion percpuKstacks i).Spans (983032 - 16 * i) 8 := by
  have hbase : ∀ i < maxCpu, pgnum (kstacktop - BitVec.ofNat 32 i * (kstksize + kstkgap) -
      kstksize) = 983032 - 16 * i := by
    decide
  refine ⟨hbase i hi, ?_, by omega⟩
  change (roundup kstksize pgsize).toNat / 4096 = 8
  decide

include hn in
/-- The page numbers of what `mem_init` maps. -/
theorem kernRegions_cases {r : Region} (hr : r ∈ kernRegions pagesPa bootPa percpuKstacks n) :
    ∃ b m, r.Spans b m ∧
    (r = ⟨upages, roundup (sizeofPageInfo * BitVec.ofNat 32 n) pgsize, pagesPa, pteU ||| pteP⟩ ∧
      b = 978944 ∧
        m = (8 * n + 4095) / 4096 ∨
      r = ⟨kstacktop - kstksize, roundup kstksize pgsize, bootPa, pteW⟩ ∧ b = 983032 ∧ m = 8 ∨
      r = ⟨kernbase, roundup (0xffffffff#32 - kernbase) pgsize, 0#32, pteW⟩ ∧
      b = 983040 ∧ m = 65536 ∨
      r = ⟨iophysmem, roundup (extphysmem - iophysmem) pgsize, iophysmem, pteW ||| pteP⟩ ∧
      b = 160 ∧ m = 96 ∨
      ∃ i < 8, r = kstackRegion percpuKstacks i ∧ b = 983032 - 16 * i ∧ m = 8) := by
  simp only [kernRegions, staticRegions, List.mem_append, List.mem_cons, List.not_mem_nil,
    or_false, List.mem_map, List.mem_range] at hr
  rcases hr with (hr | hr | hr | hr) | ⟨i, hi, hr⟩
  · exact ⟨_, _, hr ▸ upages_spans hn _ _, .inl ⟨hr, rfl, rfl⟩⟩
  · exact ⟨_, _, hr ▸ bootstack_spans _ _, .inr (.inl ⟨hr, rfl, rfl⟩)⟩
  · exact ⟨_, _, hr ▸ kernbase_spans _ _, .inr (.inr (.inl ⟨hr, rfl, rfl⟩))⟩
  · exact ⟨_, _, hr ▸ iophysmem_spans _ _, .inr (.inr (.inr (.inl ⟨hr, rfl, rfl⟩)))⟩
  · exact ⟨_, _, hr ▸ kstackRegion_spans hi, .inr (.inr (.inr (.inr ⟨i, hi, hr.symm, rfl, rfl⟩)))⟩

variable (w : Word)

include hn in
theorem kernEntry_region {r : Region} {b m j : Nat}
    (hr : r ∈ kernRegions pagesPa bootPa percpuKstacks n) (hs : r.Spans b m)
    (hb : b + m ≤ 982920 ∨ 983040 ≤ b) (hj : j < m) :
    regionsEntry (kernRegions pagesPa bootPa percpuKstacks n) w (b + j) =
      r.pa + BitVec.ofNat 32 (4096 * j) ||| r.perm ||| pteP := by
  refine regionsEntry_of_unique hr (hs.entry_at hj) ?_ w
  intro r' hr'
  have hle := hs.le
  obtain ⟨b₁, m₁, hs₁, hc⟩ := kernRegions_cases hn hr
  obtain ⟨b', m', hs', hc'⟩ := kernRegions_cases hn hr'
  have hbase := hs.base.symm.trans hs₁.base
  have hpages := hs.pages.symm.trans hs₁.pages
  rcases hc with hc | hc | hc | hc | ⟨i, hi, hc⟩
  any_goals omega
  all_goals
    rcases hc' with hc' | hc' | hc' | hc' | ⟨i, hi, hc'⟩
    all_goals
      first
      | exact .inr (hs'.entry_outside (by omega) (by omega))
      | exact .inl (hc'.1.trans hc.1.symm)

include hn in
theorem kernEntry_io {j : Nat} (hj : j < 96) :
    regionsEntry (kernRegions pagesPa bootPa percpuKstacks n) w (160 + j) =
    iophysmem + BitVec.ofNat 32 (4096 * j) ||| (pteW ||| pteP) ||| pteP := by
  exact kernEntry_region (r := ⟨iophysmem, roundup (extphysmem - iophysmem) pgsize,
    iophysmem, pteW ||| pteP⟩) hn w
    (by simp [kernRegions, staticRegions]) (iophysmem_spans _ _) (by decide) hj

include hn in
theorem kernEntry_pages {j : Nat} (hj : j < (8 * n + 4095) / 4096) :
    regionsEntry (kernRegions pagesPa bootPa percpuKstacks n) w (978944 + j) =
      pagesPa + BitVec.ofNat 32 (4096 * j) ||| (pteU ||| pteP) ||| pteP := by
  exact kernEntry_region
    (r := ⟨upages, roundup (sizeofPageInfo * BitVec.ofNat 32 n) pgsize, pagesPa,
      pteU ||| pteP⟩) hn w
    (by simp [kernRegions, staticRegions]) (upages_spans hn _ _) (by omega) hj

include hn in
theorem kernEntry_kernbase {j : Nat} (hj : j < 65536) :
    regionsEntry (kernRegions pagesPa bootPa percpuKstacks n) w (983040 + j) =
      0#32 + BitVec.ofNat 32 (4096 * j) ||| pteW ||| pteP := by
  exact kernEntry_region (r := ⟨kernbase, roundup (0xffffffff#32 - kernbase) pgsize,
    0#32, pteW⟩) hn w
    (by simp [kernRegions, staticRegions]) (kernbase_spans _ _) (by decide) hj

/-- The stack of a CPU comes after `bootstack`, which is mapped at the same addresses. -/
theorem kernEntry_kstack {i j : Nat} (hi : i < maxCpu) (hj : j < 8) :
    regionsEntry (kernRegions pagesPa bootPa percpuKstacks n) w (983032 - 16 * i + j) =
      percpuKstacks + BitVec.ofNat 32 i * kstksize - kernbase + BitVec.ofNat 32
        (4096 * j) ||| pteW ||| pteP := by
  have hi' : i < 8 := hi
  rw [kernRegions, regionsEntry_append]
  refine regionsEntry_of_unique (r := kstackRegion percpuKstacks i)
    (List.mem_map.mpr ⟨i, List.mem_range.mpr hi, rfl⟩) ((kstackRegion_spans hi).entry_at hj) ?_ _
  intro r hr
  obtain ⟨i', hr', he⟩ := List.mem_map.mp hr
  have hlt := List.mem_range.mp hr'
  have hlt' : i' < 8 := hlt
  by_cases hii : i' = i
  · exact .inl (by rw [← he, hii])
  · rw [← he]
    exact .inr ((kstackRegion_spans hlt).entry_outside (by omega) (by omega))

include hn in
theorem kernEntry_none {v : Nat} (hv : v < 2 ^ 20)
    (hout : v < 160 ∨ 256 ≤ v ∧ v < 978944 ∨ 979968 ≤ v ∧ v < 982912 ∨
      ∃ i < 8, 983024 - 16 * i ≤ v ∧ v < 983032 - 16 * i) :
    regionsEntry (kernRegions pagesPa bootPa percpuKstacks n) w v = w := by
  apply regionsEntry_of_none
  intro r hr
  obtain ⟨b, m, hs, hc⟩ := kernRegions_cases hn hr
  apply hs.entry_outside hv
  rcases hout with hout | hout | hout | ⟨i', hi', hout⟩
  all_goals
    rcases hc with hc | hc | hc | hc | ⟨i, hi, hc⟩
    all_goals omega

end Layout

theorem kernRegions_tables {pagesPa bootPa percpuKstacks : Word} {n : Nat} (h0 : 0 < n)
    (hn : n ≤ 65536) (i : Nat) :
    i ∈ regionsTables (kernRegions pagesPa bootPa percpuKstacks n) ↔ i = 956 ∨
    959 ≤ i ∧ i < 1024 ∨ i = 0 := by
  have hstacks : ∀ r ∈ (List.range maxCpu).map (kstackRegion percpuKstacks),
      pageTables r.va (r.size.toNat / 4096) = {959} := by
    intro r hr
    obtain ⟨j, hj, rfl⟩ := List.mem_map.mp hr
    exact kstack_tables j hj
  exact kernel_tables h0 hn hstacks (by decide) i

theorem ofNat_mul_pgsize (j : Nat) : BitVec.ofNat 32 j * pgsize = BitVec.ofNat 32 (4096 * j) := by
  rw [show pgsize = BitVec.ofNat 32 4096 from rfl, ← BitVec.ofNat_mul, Nat.mul_comm]

theorem pgnum_add_pages {va : Word} {j : Nat} (hva : va.toNat % 4096 = 0)
    (hj : pgnum va + j < 2 ^ 20) :
    pgnum (va + BitVec.ofNat 32 j * pgsize) = pgnum va + j := by
  rw [pgnum_eq] at hj
  rw [ofNat_mul_pgsize, pgnum_eq, pgnum_eq, BitVec.toNat_add, BitVec.toNat_ofNat]
  omega

namespace Describes

variable {k : Nat} {h : Option Nat} {X : List Nat} {a : KernState} {s : Mem}

theorem va2pa_entry (hd : Describes k h X a s) {va pa f : Word} {v : Nat} (hs : pdx va ≠ selfSlot)
    (hv : pgnum va = v) (he : a.entry v = pa ||| f) (hpa : pa.toNat % 4096 = 0)
    (hf : f.toNat < 4096) (hp : present f = true) :
    Osdi.checkVa2pa (kva k) va s = some pa := by
  rw [hd.va2pa_present hs hv (by rw [he]; exact present_or_right hp) rfl, he,
    page2pa_pgnum_or hpa hf]

/-- The pages of a region that starts at page `b`. -/
theorem va2pa_region (hd : Describes k h X a s) {va pa f : Word} {b j : Nat}
    (hva : va.toNat % 4096 = 0) (hb : pgnum va = b) (hj : b + j < 2 ^ 20)
    (hs : (b + j) / 1024 ≠ selfSlot) (he : a.entry (b + j) = pa + BitVec.ofNat 32 (4096 * j) ||| f)
    (hpa : pa.toNat % 4096 = 0) (hf : f.toNat < 4096) (hp : present f = true) :
    Osdi.checkVa2pa (kva k) (va + BitVec.ofNat 32 j * pgsize) s = some
      (pa + BitVec.ofNat 32 j * pgsize) := by
  have hpg : pgnum (va + BitVec.ofNat 32 j * pgsize) = b + j := by
    rw [pgnum_add_pages hva (by rwa [hb]), hb]
  have hpd : pdx (va + BitVec.ofNat 32 j * pgsize) ≠ selfSlot := by
    rwa [← pgnum_div, hpg]
  rw [hd.va2pa_entry hpd hpg he _ hf hp, ofNat_mul_pgsize]
  rw [BitVec.toNat_add, BitVec.toNat_ofNat]
  omega

section CheckKern

variable {pages bootPa percpuKstacks : Word} (hpages : kernbase ≤ pages)
  (halign : pages.toNat % 4096 = 0)
  (hstacks : ∀ i < maxCpu, kernbase ≤ percpuKstacks + BitVec.ofNat 32 i * kstksize)
  (hsalign : percpuKstacks.toNat % 4096 = 0)
  (hent : ∀ v < 2 ^ 20, a.entry v = regionsEntry
    (kernRegions (pages - kernbase) bootPa percpuKstacks s.npages) 0#32 v)
  (htab : ∀ i, a.tables i = none ↔ ¬(i = 956 ∨ 958 ≤ i ∧ i < 1024 ∨ i = 0))

include hent in
theorem check_io (hd : Describes k h X a s) :
    ∀ j < ((roundup extphysmem pgsize - iophysmem) / pgsize).toNat,
    Osdi.checkVa2pa (kva k) (iophysmem + BitVec.ofNat 32 j * pgsize) s =
      some (iophysmem + BitVec.ofNat 32 j * pgsize) := by
  intro j hj
  have hj : j < 96 := by
    rwa [show ((roundup extphysmem pgsize - iophysmem) / pgsize).toNat = 96 by decide] at hj
  refine hd.va2pa_region (b := 160) (f := (pteW ||| pteP) ||| pteP) (by decide)
    (by decide) (by omega) (by rw [selfSlot_eq]; omega) ?_ (by decide) (by decide) (by decide)
  rw [hent _ (by omega), kernEntry_io hd.np 0#32 hj, BitVec.or_assoc]

include hent halign hpages in
theorem check_pages (hd : Describes k h X a s) :
    ∀ j < (roundup (BitVec.ofNat 32 s.npages * sizeofPageInfo) pgsize / pgsize).toNat,
      Osdi.checkVa2pa (kva k) (upages + BitVec.ofNat 32 j * pgsize) s =
        some (pages - kernbase + BitVec.ofNat 32 j * pgsize) := by
  intro j hj
  have hnp := hd.np
  have hlen := (upages_spans hd.np 0#32 0#32).pages
  have hj : j < (8 * s.npages + 4095) / 4096 := by
    rw [BitVec.toNat_udiv, show pgsize.toNat = 4096 by decide, BitVec.mul_comm] at hj
    rwa [← hlen]
  have hkb : kernbase.toNat = 4026531840 := by decide
  refine hd.va2pa_region (b := 978944) (f := (pteU ||| pteP) ||| pteP) (by decide)
    (by decide) (by omega) (by rw [selfSlot_eq]; omega) ?_ ?_ (by decide) (by decide)
  · rw [hent _ (by omega), kernEntry_pages hd.np 0#32 hj, BitVec.or_assoc]
  · rw [BitVec.toNat_sub_of_le hpages, hkb]
    omega

include hent in
theorem check_kernbase (hd : Describes k h X a s) :
    ∀ j < (BitVec.ofNat 32 s.npages * pgsize / pgsize).toNat,
    Osdi.checkVa2pa (kva k) (kernbase + BitVec.ofNat 32 j * pgsize) s = some
      (BitVec.ofNat 32 j * pgsize) := by
  intro j hj
  have hnp := hd.np
  have hj : j < 65536 := by
    rw [BitVec.toNat_udiv, show pgsize.toNat = 4096 by decide, ofNat_mul_pgsize, BitVec.toNat_ofNat]
      at hj
    omega
  have hpa : Osdi.checkVa2pa (kva k) (kernbase + BitVec.ofNat 32 j * pgsize) s =
      some (0#32 + BitVec.ofNat 32 j * pgsize) :=
        hd.va2pa_region (b := 983040) (f := pteW ||| pteP) (by decide)
    (by decide) (by omega) (by rw [selfSlot_eq]; omega)
    (by rw [hent _ (by omega), kernEntry_kernbase hd.np 0#32 hj, BitVec.or_assoc])
      (by decide) (by decide) (by decide)
  rwa [BitVec.zero_add] at hpa

include hent hstacks hsalign in
theorem check_kstacks (hd : Describes k h X a s) : ∀ n < maxCpu,
    (∀ j < (kstksize / pgsize).toNat, Osdi.checkVa2pa (kva k)
      (kstacktop - (kstksize + kstkgap) * (BitVec.ofNat 32 n + 1#32) +
      kstkgap + BitVec.ofNat 32 j * pgsize) s =
        (paddr (percpuKstacks + BitVec.ofNat 32 n * kstksize)).map
          (· + BitVec.ofNat 32 j * pgsize)) ∧
    ∀ j < (kstkgap / pgsize).toNat, Osdi.checkVa2pa (kva k)
      (kstacktop - (kstksize + kstkgap) * (BitVec.ofNat 32 n + 1#32) +
      BitVec.ofNat 32 j * pgsize) s = some (~~~0#32) := by
  intro n hn
  have hn' : n < 8 := hn
  have hbase : ∀ n < maxCpu, pgnum (kstacktop - (kstksize + kstkgap) * (BitVec.ofNat 32 n + 1#32)) =
      983024 - 16 * n ∧
      (kstacktop - (kstksize + kstkgap) * (BitVec.ofNat 32 n + 1#32)).toNat % 4096 = 0 ∧
      pgnum (kstacktop - (kstksize + kstkgap) * (BitVec.ofNat 32 n + 1#32) + kstkgap) =
        983032 - 16 * n ∧
      (kstacktop - (kstksize + kstkgap) * (BitVec.ofNat 32 n + 1#32) + kstkgap).toNat % 4096 =
        0 := by decide
  obtain ⟨hgap, hgapal, htop, htopal⟩ := hbase n hn
  constructor
  · intro j hj
    have hj : j < 8 := by rwa [show (kstksize / pgsize).toNat = 8 by decide] at hj
    rw [paddr_of_le (hstacks n hn), Option.map_some]
    refine hd.va2pa_region (f := pteW ||| pteP) htopal htop (by omega)
      (by rw [selfSlot_eq]; omega) ?_ ?_ (by decide) (by decide)
    · rw [hent _ (by omega), kernEntry_kstack 0#32 hn hj, BitVec.or_assoc]
    · have hkb : kernbase.toNat = 4026531840 := by decide
      have hks : kstksize.toNat = 32768 := by decide
      rw [BitVec.toNat_sub_of_le (hstacks n hn), BitVec.toNat_add, BitVec.toNat_mul,
        BitVec.toNat_ofNat, hkb, hks]
      omega
  · intro j hj
    have hj : j < 8 := by rwa [show (kstkgap / pgsize).toNat = 8 by decide] at hj
    have hpg : pgnum (kstacktop - (kstksize + kstkgap) * (BitVec.ofNat 32 n + 1#32) +
        BitVec.ofNat 32 j * pgsize) =
        983024 - 16 * n + j := by
      rw [pgnum_add_pages hgapal (by omega), hgap]
    apply hd.va2pa_absent (v := 983024 - 16 * n + j) _ hpg
    · rw [hent _ (by omega)]
      exact kernEntry_none hd.np 0#32 (by omega) (.inr (.inr (.inr ⟨n, hn', by omega, by omega⟩)))
    · rw [← pgnum_div, hpg, selfSlot_eq]
      omega

include htab in
theorem check_pdes (hd : Describes k h X a s) : ∀ i < npdentries,
    if i ∈ [pdx iophysmem, pdx uvpt, pdx (kstacktop - 1#32), pdx upages, pdx mmiobase] then
      present (load s (slot (kva k) i)) = true
    else if i ≥ pdx kernbase then present (load s (slot (kva k) i)) = true ∧
    load s (slot (kva k) i) &&& pteW ≠ 0#32
    else load s (slot (kva k) i) = 0#32 := by
  intro i hi
  have hi : i < 1024 := hi
  have hslots : [pdx iophysmem, pdx uvpt, pdx (kstacktop - 1#32), pdx upages, pdx mmiobase] =
      [0, 957, 959, 956, 958] := by
    decide
  have hkern : pdx kernbase = 960 := by decide
  have htable : ∀ {i : Nat}, i < 1024 → (i = 956 ∨ 958 ≤ i ∨ i = 0) →
      ∃ t, load s (slot (kva k) i) = tableEntry t := by
    intro i hi hc
    have hsome : a.tables i ≠ none := by
      rw [Ne, htab i]
      omega
    obtain ⟨t, ht⟩ := Option.ne_none_iff_exists'.mp hsome
    exact ⟨t, hd.load_row ht⟩
  rw [hslots, hkern]
  by_cases hmem : i ∈ [0, 957, 959, 956, 958]
  · rw [if_pos hmem]
    by_cases hself : i = 957
    · rw [load_slot s k i hd.kern_lt hi, hself, ← selfSlot_eq, hd.self]
      exact present_or_right (by decide)
    · obtain ⟨t, ht⟩ := htable hi (by simp at hmem; omega)
      rw [ht]
      exact present_tableEntry t
  · rw [if_neg hmem]
    simp only [List.mem_cons, List.not_mem_nil, or_false, not_or] at hmem
    by_cases hge : i ≥ 960
    · obtain ⟨t, ht⟩ := htable hi (by omega)
      rw [if_pos hge, ht]
      refine ⟨present_tableEntry t, ?_⟩
      rw [tableEntry, entry_and _ _ (by decide)]
      decide
    · have hnone : a.tables i = none := (htab i).mpr (by omega)
      rw [if_neg hge, load_slot s k i hd.kern_lt hi,
        hd.row_none hi (by rw [selfSlot_eq]; omega) hnone]

include hpages halign hstacks hsalign hent htab in
theorem checkKernPgdir (hd : Describes k h X a s) :
    checkKernPgdir (kva k) pages percpuKstacks s = some () := by
  rw [Osdi.checkKernPgdir, assert_bind (hd.check_io hent), bind_eq (paddr_of_le hpages),
    assert_bind (hd.check_pages hpages halign hent), assert_bind (hd.check_kernbase hent),
    assert_bind (hd.check_kstacks hstacks hsalign hent), assert_true (hd.check_pdes htab)]

end CheckKern

end Describes

end NctuCourses.Osdi
