import Mathlib.Order.Interval.Finset.Nat
import NctuCourses.Osdi.Task.Task

namespace NctuCourses.Osdi

/-- The page numbers of a user stack, the only ones whose mappings are counted: every other mapping
of a task is a static one. -/
def stackVpn (v : Nat) : Bool := decide (pgnum (ustacktop - usrStackSize) ≤ v ∧ v < pgnum ustacktop)

/-- The page directories of the tasks. -/
def taskSpace (dirs : Finset Nat) (rsv : Nat → Prop) : Space := ⟨dirs, rsv, stackVpn⟩

theorem stackVpn_iff (v : Nat) : stackVpn v = true ↔ 977908 ≤ v ∧ v < 977918 := by
  have h1 : pgnum (ustacktop - usrStackSize) = 977908 := by decide
  have h2 : pgnum ustacktop = 977918 := by decide
  rw [stackVpn, h1, h2, decide_eq_true_iff]

theorem stackVpn_userStack (v : Nat) : stackVpn v = true ↔ ∃ va ∈ userStack, pgnum va = v := by
  have hmem : ∀ v, v ∈ userStack.map pgnum ↔ 977908 ≤ v ∧ v < 977918 := by
    intro v
    have he : userStack.map pgnum = (List.range 10).map (977908 + ·) := by decide
    rw [he]
    simp only [List.mem_map, List.mem_range]
    constructor
    · rintro ⟨k, hk, rfl⟩
      omega
    · rintro ⟨h1, h2⟩
      exact ⟨v - 977908, by omega, by omega⟩
  rw [stackVpn_iff, ← hmem, List.mem_map]

/-- A stack spans one page table, so a page is mapped at most ten times by each directory. -/
theorem taskSpace_refs_lt {dirs : Finset Nat} {rsv : Nat → Prop} {I : Set Nat} {x : Nat → Nat}
    {s : Mem} {fl : List Nat} (h : VmInv (taskSpace dirs rsv) I x s fl) (hcard : dirs.card ≤ 33)
    (p : Nat) : refs (taskSpace dirs rsv) s p < 400 := by
  have hsub : mapSites (taskSpace dirs rsv) s p ⊆ dirs ×ˢ Finset.Ico 977908 977918 := by
    intro y hy
    obtain ⟨⟨hd, _⟩, hc, _⟩ := mem_mapSites.mp hy
    have hv := (stackVpn_iff y.2).mp hc
    exact Finset.mem_product.mpr ⟨hd, Finset.mem_Ico.mpr hv⟩
  have hle := Finset.card_le_card hsub
  have ht := h.tableSites_card_le p
  rw [Finset.card_product, Nat.card_Ico] at hle
  rw [refs]
  omega

theorem roundup_toNat {a : Word} (h : a.toNat + 4095 < 2 ^ 32) :
    (roundup a pgsize).toNat = (a.toNat + 4095) / 4096 * 4096 := by
  have hps : pgsize.toNat = 4096 := by decide
  have h1 : (1#32).toNat = 1 := rfl
  have hx : (a + pgsize - 1#32).toNat = a.toNat + 4095 := by
    rw [BitVec.toNat_sub, BitVec.toNat_add, hps, h1]
    omega
  have hle : (a + pgsize - 1#32) % pgsize ≤ a + pgsize - 1#32 := by
    rw [BitVec.le_def, BitVec.toNat_umod]
    exact Nat.mod_le _ _
  rw [roundup, rounddown, BitVec.toNat_sub_of_le hle, BitVec.toNat_umod, hx, hps]
  omega

private theorem static_of_range {va size : Word} {a m k : Nat} (ha : pgnum va = a)
    (hm : size.toNat / 4096 ≤ m) (hcase : a + m ≤ 977908 ∨ 977918 ≤ a ∧ a + m ≤ 2 ^ 20)
    (hk : k < size.toNat / 4096) : stackVpn (vpnAt va k) = false := by
  by_contra hc
  rw [Bool.not_eq_false, stackVpn_iff, vpnAt, ha] at hc
  omega

theorem exists_of_mem_mapM {α β : Type} {f : α → Option β} {l : List α} {l' : List β}
    (h : l.mapM f = some l') {b : β} (hb : b ∈ l') : ∃ a ∈ l, f a = some b := by
  induction l generalizing l' with
  | nil =>
    obtain rfl : [] = l' := by simpa using h
    simp at hb
  | cons a l ih =>
    simp only [List.mapM_cons, Option.bind_eq_bind, Option.bind_eq_some_iff] at h
    obtain ⟨c, hc, l₁, hl₁, he⟩ := h
    obtain rfl := Option.some.inj he
    rcases List.mem_cons.mp hb with rfl | hb
    · exact ⟨a, by simp, hc⟩
    · obtain ⟨a', ha', he'⟩ := ih hl₁ hb
      exact ⟨a', by simp [ha'], he'⟩

theorem kvmRegions_static {L : Image} {n : Nat} (hn : n ≤ 65536)
    (hL : L.lapic = 0#32 ∨ mmiobase ≤ L.lapic ∧ L.lapic < mmiolim) {rs : List Region}
    (hrs : kvmRegions L n = some rs) {r : Region} (hr : r ∈ rs) {k : Nat}
    (hk : k < r.size.toNat / 4096) : stackVpn (vpnAt r.va k) = false := by
  simp only [kvmRegions, Option.bind_eq_bind, Option.bind_eq_some_iff] at hrs
  obtain ⟨pagesPa, _, bootPa, _, ks, hks, hrs⟩ := hrs
  obtain rfl := Option.some.inj hrs
  simp only [List.mem_append, List.mem_cons, List.not_mem_nil, or_false] at hr
  rcases hr with ((rfl | rfl | rfl | rfl) | hr) | rfl
  · have hsz : (sizeofPageInfo * BitVec.ofNat 32 n).toNat = 8 * n := by
      rw [BitVec.toNat_mul, BitVec.toNat_ofNat]
      rw [show sizeofPageInfo.toNat = 8 from rfl]
      omega
    have hpg : pgnum upages = 978944 := by decide
    refine static_of_range hpg (m := 128) ?_ (by omega) hk
    rw [roundup_toNat (by omega), hsz]
    omega
  · have hpg : pgnum (kstacktop - kstksize) = 983032 := by decide
    have hsz : kstksize.toNat / 4096 ≤ 8 := by decide
    exact static_of_range hpg hsz (by omega) hk
  · have hpg : pgnum kernbase = 983040 := by decide
    have hsz : (roundup (0xffffffff#32 - kernbase) pgsize).toNat / 4096 ≤ 65536 := by decide
    exact static_of_range hpg hsz (by omega) hk
  · have hpg : pgnum iophysmem = 160 := by decide
    have hsz : (roundup (extphysmem - iophysmem) pgsize).toNat / 4096 ≤ 96 := by decide
    exact static_of_range hpg hsz (by omega) hk
  · obtain ⟨i, hi, he⟩ := exists_of_mem_mapM hks hr
    simp only [Option.bind_eq_some_iff] at he
    obtain ⟨pa, _, he⟩ := he
    obtain rfl := Option.some.inj he
    have hsz : (roundup kstksize pgsize).toNat / 4096 ≤ 8 := by decide
    have hpg : ∀ i ∈ List.range maxCpu, 978944 ≤ pgnum
        (kstacktop - BitVec.ofNat 32 i * (kstksize + kstkgap) - kstksize) ∧ pgnum
        (kstacktop - BitVec.ofNat 32 i * (kstksize + kstkgap) - kstksize) ≤ 983032 := by decide
    obtain ⟨h1, h2⟩ := hpg i hi
    refine static_of_range (a := pgnum _) rfl hsz ?_ hk
    dsimp only
    omega
  · have hsz : pgsize.toNat / 4096 ≤ 1 := by decide
    have hlow : mmiobase.toNat = 4018143232 := by decide
    have hhigh : mmiolim.toNat = 4022337536 := by decide
    have hpg := pgnum_eq L.lapic
    rcases hL with h0 | ⟨h1, h2⟩
    · have hp0 : pgnum L.lapic = 0 := by rw [h0]; decide
      exact static_of_range hp0 hsz (by omega) hk
    · rw [BitVec.le_def] at h1
      rw [BitVec.lt_def] at h2
      exact static_of_range (a := pgnum L.lapic) rfl hsz (by omega) hk

/-- The entry that mapping region `r` leaves for page number `v`, if `v` is one of its pages. -/
def Region.entry (r : Region) (v : Nat) : Option Word :=
  let k := (v + 2 ^ 20 - pgnum r.va) % 2 ^ 20
  if k < r.size.toNat / 4096 then some (r.pa + BitVec.ofNat 32 (4096 * k) ||| r.perm ||| pteP)
  else none

/-- The entry for page number `v` after the regions have been mapped, one after
the other, where it was `w`. -/
def regionsEntry (rs : List Region) (w : Word) (v : Nat) : Word :=
  rs.foldl (fun w r => (r.entry v).getD w) w

/-- What `setupvm` maps for a section of the user program. -/
def sectionRegion (start size : Word) : Region :=
  ⟨start, roundup size pgsize, start - kernbase, pteW ||| pteU⟩

/-- The regions that are mapped for the user program. -/
def userRegions (L : Image) : List Region := L.sections.map fun p => sectionRegion p.1 (p.2 - p.1)

/-- The directory slots that the regions need. -/
def regionsTables (rs : List Region) : Finset Nat :=
  rs.foldr (fun r S => pageTables r.va (r.size.toNat / 4096) ∪ S) ∅

theorem Region.entry_vpnAt {r : Region} {k : Nat} (hk : k < r.size.toNat / 4096) :
    r.entry (vpnAt r.va k) = some (r.pa + BitVec.ofNat 32 (4096 * k) ||| r.perm ||| pteP) := by
  have hs := r.size.isLt
  have hp := pgnum_lt r.va
  have he : (vpnAt r.va k + 2 ^ 20 - pgnum r.va) % 2 ^ 20 = k := by
    rw [vpnAt]
    omega
  simp only [Region.entry, he, if_pos hk]

theorem Region.entry_none {r : Region} {v : Nat} (hv : v < 2 ^ 20)
    (h : ∀ k < r.size.toNat / 4096, v ≠ vpnAt r.va k) : r.entry v = none := by
  have hp := pgnum_lt r.va
  refine if_neg fun hk => h _ hk ?_
  rw [vpnAt]
  omega

/-- The entries that mapping a region leaves, in terms of the entries before. -/
theorem Region.entry_getD {r : Region} {f g : Nat → Word}
    (hout : ∀ v < 2 ^ 20, (∀ k < r.size.toNat / 4096, v ≠ vpnAt r.va k) → g v = f v)
    (hin : ∀ k < r.size.toNat / 4096, g (vpnAt r.va k) = r.pa + BitVec.ofNat 32
      (4096 * k) ||| r.perm ||| pteP)
    {v : Nat} (hv : v < 2 ^ 20) :
    g v = (r.entry v).getD (f v) := by
  by_cases hv' : ∃ k < r.size.toNat / 4096, v = vpnAt r.va k
  · obtain ⟨k, hk, rfl⟩ := hv'
    rw [hin k hk, Region.entry_vpnAt hk, Option.getD_some]
  · have hne : ∀ k < r.size.toNat / 4096, v ≠ vpnAt r.va k := fun k hk e => hv' ⟨k, hk, e⟩
    rw [hout v hv hne, Region.entry_none hv hne, Option.getD_none]

theorem regionsEntry_nil (w : Word) (v : Nat) : regionsEntry [] w v = w := rfl

theorem regionsEntry_cons (r : Region) (rs : List Region) (w : Word) (v : Nat) :
    regionsEntry (r :: rs) w v = regionsEntry rs ((r.entry v).getD w) v := by
  simp only [regionsEntry, List.foldl_cons]

theorem regionsEntry_append (rs rs' : List Region) (w : Word) (v : Nat) :
    regionsEntry (rs ++ rs') w v = regionsEntry rs' (regionsEntry rs w v) v := by
  simp only [regionsEntry, List.foldl_append]

theorem regionsEntry_of_none {rs : List Region} {v : Nat} (h : ∀ r ∈ rs, r.entry v = none)
    (w : Word) :
    regionsEntry rs w v = w := by
  induction rs generalizing w with
  | nil => rfl
  | cons r rs ih =>
    rw [regionsEntry_cons, h r (by simp)]
    exact ih (fun r' hr' => h r' (by simp [hr'])) w

theorem pageTables_eq_Icc {va : Word} {n : Nat} (hn : 0 < n) (hb : pgnum va + n ≤ 2 ^ 20) :
    pageTables va n = Finset.Icc (pgnum va / 1024) ((pgnum va + n - 1) / 1024) := by
  ext i
  rw [mem_pageTables, Finset.mem_Icc]
  constructor
  · intro h
    obtain ⟨k, hk, rfl⟩ := h
    rw [vpnAt]
    omega
  · intro h
    refine ⟨1024 * i - pgnum va, by omega, ?_⟩
    rw [vpnAt]
    omega

theorem mem_regionsTables {rs : List Region} {i : Nat} :
    i ∈ regionsTables rs ↔ ∃ r ∈ rs, i ∈ pageTables r.va (r.size.toNat / 4096) := by
  induction rs with
  | nil => simp [regionsTables]
  | cons r rs ih =>
    have hcons : regionsTables (r :: rs) = pageTables r.va (r.size.toNat / 4096) ∪
        regionsTables rs := rfl
    rw [hcons, Finset.mem_union, ih]
    simp

theorem mem_regionsTables_append {rs rs' : List Region} {i : Nat} :
    i ∈ regionsTables (rs ++ rs') ↔ i ∈ regionsTables rs ∨ i ∈ regionsTables rs' := by
  simp only [mem_regionsTables, List.mem_append, or_and_right, exists_or]

theorem regionsTables_subset (rs : List Region) : regionsTables rs ⊆ Finset.range 1024 := by
  induction rs with
  | nil => simp [regionsTables]
  | cons r rs ih => exact Finset.union_subset (pageTables_subset _ _) ih

/-- The directories `dirs` and the reserved pages look the same in both states. -/
structure Apart (dirs : Finset Nat) (rsv : Nat → Prop) (s t : Mem) : Prop where
  npages : t.npages = s.npages
  rsv : ∀ p, rsv p → ∀ i, t.ram p i = s.ram p i
  row : ∀ d ∈ dirs, ∀ i < 1024, t.ram d i = s.ram d i
  pte : ∀ d ∈ dirs, ∀ v < 2 ^ 20, t.pteAt d v = s.pteAt d v

namespace Apart

variable {dirs dirs' : Finset Nat} {rsv : Nat → Prop} {s t u : Mem}

theorem refl (dirs : Finset Nat) (rsv : Nat → Prop) (s : Mem) : Apart dirs rsv s s :=
  ⟨rfl, fun _ _ _ => rfl, fun _ _ _ _ => rfl, fun _ _ _ _ => rfl⟩

theorem trans (h : Apart dirs rsv s t) (k : Apart dirs rsv t u) : Apart dirs rsv s u :=
  ⟨k.npages.trans h.npages, fun p hp i => (k.rsv p hp i).trans (h.rsv p hp i),
    fun d hd i hi => (k.row d hd i hi).trans (h.row d hd i hi),
    fun d hd v hv => (k.pte d hd v hv).trans (h.pte d hd v hv)⟩

theorem mono (h : Apart dirs rsv s t) (hs : dirs' ⊆ dirs) : Apart dirs' rsv s t :=
  ⟨h.npages, h.rsv, fun d hd => h.row d (hs hd), fun d hd => h.pte d (hs hd)⟩

theorem of_grows {G : Space} {d : Nat} {fl fl' : List Nat} (h : Grows G d s fl t fl') :
    Apart (G.dirs.erase d) G.rsv s t := by
  refine ⟨h.npages, h.rsv, fun d' hd' => ?_, fun d' hd' => ?_⟩
  · exact (h.other d' (Finset.mem_of_mem_erase hd') (Finset.ne_of_mem_erase hd')).1
  · exact (h.other d' (Finset.mem_of_mem_erase hd') (Finset.ne_of_mem_erase hd')).2

theorem of_remap {G : Space} {d v : Nat} {w : Word} (h : Remap G s t d v w) :
    Apart (G.dirs.erase d) G.rsv s t := by
  refine ⟨h.npages, h.rsv, fun d' hd' i hi => ?_, fun d' hd' v' hv' => ?_⟩
  · exact h.slots d' (Finset.mem_of_mem_erase hd') i hi fun e => Finset.ne_of_mem_erase hd' e.1
  · rw [h.pte d' (Finset.mem_of_mem_erase hd') v' hv']
    exact if_neg fun e => Finset.ne_of_mem_erase hd' e.1

end Apart

/-- Counted mappings that directory `d` alone has. -/
def Private (G : Space) (s : Mem) (d : Nat) : Prop :=
  ∀ v < 2 ^ 20, G.counted v = true → present (s.pteAt d v) = true ∧
    mapSites G s (pgnum (s.pteAt d v)) = {(d, v)}

namespace VmInv

variable {G : Space} {I : Set Nat} {x : Nat → Nat} {s : Mem} {fl : List Nat} {d : Nat}

theorem mapRegions (h : VmInv G I x s fl) (hd : d ∈ G.dirs) (rs : List Region)
    (hc : ∀ r ∈ rs, ∀ k < r.size.toNat / 4096, G.counted (vpnAt r.va k) = false) :
    (fl.length + tabs s d < (tableSlots s d ∪ regionsTables rs).card ∧
        rs.foldlM (fun s r => bootMapRegion (kva d) r.va r.size r.pa r.perm s) s = none) ∨
      ∃ t fl', rs.foldlM (fun s r => bootMapRegion (kva d) r.va r.size r.pa r.perm s) s = some t ∧
        VmInv G I x t fl' ∧ Grows G d s fl t fl' ∧
        tableSlots t d = tableSlots s d ∪ regionsTables rs ∧
        ∀ v < 2 ^ 20, t.pteAt d v = regionsEntry rs (s.pteAt d v) v := by
  induction rs generalizing s fl with
  | nil => exact .inr ⟨s, fl, rfl, h, Grows.refl G d s fl, by simp [regionsTables], fun _ _ => rfl⟩
  | cons r rs ih =>
    have hcr := hc r (by simp)
    have htables : tableSlots s d ∪ pageTables r.va (r.size.toNat / 4096) ∪ regionsTables rs =
        tableSlots s d ∪ regionsTables (r :: rs) := Finset.union_assoc _ _ _
    rw [List.foldlM_cons]
    rcases h.bootMapRegion_spec hd r.va r.size r.pa r.perm rfl hcr with
      ⟨hlt, he⟩ | ⟨t, fl₁, he, h1, hg, hset, hout, hin⟩
    · refine .inl ⟨hlt.trans_le (Finset.card_le_card ?_), by rw [he]; rfl⟩
      rw [← htables]
      exact Finset.subset_union_left
    rw [he, Option.bind_eq_bind, Option.bind_some]
    rw [← htables, ← hset]
    rcases ih h1 fun r' hr' => hc r' (by simp [hr']) with ⟨hlt, he'⟩ | ⟨u, fl₂,
      he', h2, hg2, hset2, hent⟩
    · exact .inl ⟨hg.pages.trans_lt hlt, he'⟩
    refine .inr ⟨u, fl₂, he', h2, hg.trans hg2, hset2, fun v hv => ?_⟩
    rw [hent v hv, regionsEntry_cons, Region.entry_getD hout hin hv]

/-- `page_insert` of a page just taken from the free list, at an address without mapping. -/
theorem insertFresh {p : Nat} (h : VmInv G I 0 s (p :: fl)) (hd : d ∈ G.dirs) {va perm : Word}
    (hc : G.counted (pgnum va) = true) (hperm : perm.toNat < 4096)
    (habs : present (s.pteAt d (pgnum va)) = false)
    (hb : ∀ I' t fl', VmInv G I' 0 t fl' → ∀ q, refs G t q < 65536) :
    pageAlloc allocZero s = some (some p, s.take allocZero p) ∧
      ((fl = [] ∧ present (s.ram d (pdx va)) = false ∧
          pageInsert (kva d) p va perm (s.take allocZero p) =
            some (-eNoMem, s.take allocZero p)) ∨
        ∃ t fl', pageInsert (kva d) p va perm (s.take allocZero p) = some (0, t) ∧
          VmInv G I 0 t fl' ∧ fl' <:+ fl ∧ fl.length + tabs s d = fl'.length + tabs t d ∧
          tableSlots t d = insert (pdx va) (tableSlots s d) ∧ Local d s (p :: fl) t fl' ∧
          Remap G s t d (pgnum va) (page2pa p ||| pteP ||| perm) ∧
          mapSites G t p = {(d, pgnum va)} ∧ ∀ q ≠ p, mapSites G t q = mapSites G s q) := by
  have hp20 : p < 2 ^ 20 := (h.free.lt p (by simp)).trans_le h.np
  have hne : ∀ d' ∈ G.dirs, d' ≠ p := fun d' hd' e => (h.dir d' hd').2.2 (by simp [e])
  have hrow : ∀ d' ∈ G.dirs, ∀ i, (s.take allocZero p).ram d' i = s.ram d' i :=
    fun d' hd' i => take_ram_ne hp20 (hne d' hd') i
  have hrsv : ∀ q, G.rsv q → ∀ i, (s.take allocZero p).ram q i = s.ram q i := fun q hq i =>
    take_ram_ne hp20 (fun e => h.pool p (by simp) (e ▸ hq)) i
  have hslots : tableSlots (s.take allocZero p) d = tableSlots s d := by
    simp only [tableSlots, hrow d hd]
  have htabs : tabs (s.take allocZero p) d = tabs s d := congrArg Finset.card hslots
  obtain ⟨h1, hdat, hr, hpte⟩ := h.take allocZero
  have hI : insert p I \ {p} = I := Set.insert_sdiff_self_of_notMem (h.notMem_idle (by simp))
  refine ⟨pageAlloc_cons h.free allocZero, ?_⟩
  have hb1 : ∀ q, refs G (s.take allocZero p) q + (0 : Nat → Nat) q < 65536 := hb _ _ _ h1
  rcases h1.pageInsert_spec va hd hc hdat hperm hb1 with
    ⟨hnil, hpde, he⟩ | ⟨t, fl', he, h2, _, hsuf, hins, hmap⟩
  · exact .inl ⟨hnil, by rwa [hrow d hd] at hpde, he⟩
  rw [hI] at h2
  have habs' : present ((s.take allocZero p).pteAt d (pgnum va)) = false := by
    rw [hpte d hd _ (pgnum_lt va), habs]
  have hw : present (page2pa p ||| pteP ||| perm) = true :=
    present_or_left (present_or_right present_pteP)
  have hwp : pgnum (page2pa p ||| pteP ||| perm) = p := by
    rw [entry_assoc]
    exact pgnum_entry p _ hp20 (pteP_or_lt hperm)
  have hsites : ∀ q, mapSites G (s.take allocZero p) q = mapSites G s q := mapSites_congr hpte
  have hupd := mapSites_update hd (pgnum_lt va) hmap.pte
  obtain ⟨hsuf, hlen, hloc⟩ := hsuf habs'
  rw [htabs] at hlen
  rw [hslots] at hins
  have htake : Local d s (p :: fl) (s.take allocZero p) fl := by
    refine ⟨fun q hq => ?_, fun q hq j => take_ram_ne hp20 (fun e => hq (.inl (by simp [e]))) j⟩
    simp only [Near, hrow d hd] at hq
    exact hq.imp_left (List.mem_cons_of_mem p)
  refine .inr ⟨t, fl', he, h2, hsuf, hlen, hins, htake.trans hloc,
    ⟨⟨hmap.npages, ?_, ?_⟩, ?_, ?_⟩, ?_, ?_⟩
  · exact fun q hq i => (hmap.rsv q hq i).trans (hrsv q hq i)
  · intro d' hd' i hi hpr
    rw [← hrow d' hd' i] at hpr ⊢
    exact hmap.row d' hd' i hi hpr
  · intro d' hd' i hi hs
    rw [hmap.slots d' hd' i hi hs, hrow d' hd' i]
  · intro d' hd' v hv
    rw [hmap.pte d' hd' v hv, hpte d' hd' v hv]
  · have hempty : mapSites G s p = ∅ := h.mapSites_eq_empty fun hdat => hdat.used (by simp)
    rw [hupd, if_pos ⟨hc, hw, hwp⟩, hsites, hempty]
    rfl
  · intro q hq
    have hn : ¬ (G.counted (pgnum va) = true ∧ present (page2pa p ||| pteP ||| perm) = true ∧
        pgnum (page2pa p ||| pteP ||| perm) = q) := fun e => hq (hwp.symm.trans e.2.2).symm
    have hnot : (d, pgnum va) ∉ mapSites G s q := by simp [mem_mapSites, habs]
    rw [hupd, if_neg hn, hsites, Finset.erase_eq_of_notMem hnot]

end VmInv

theorem mapUserStack_none {pgdir va : Word} {vas : List Word} {s s₁ : Mem}
    (h : pageAlloc allocZero s = some (none, s₁)) :
    mapUserStack pgdir (va :: vas) s = some (false, s₁) := by
  simp [mapUserStack, h]

theorem mapUserStack_step {pgdir va : Word} {vas : List Word} {s s₁ t : Mem} {p : Nat} {e : Int}
    (h : pageAlloc allocZero s = some (some p, s₁))
    (hi : pageInsert pgdir p va (pteW ||| pteU) s₁ = some (e, t)) (he : e ≠ -1) :
    mapUserStack pgdir (va :: vas) s = mapUserStack pgdir vas t := by
  simp [mapUserStack, h, hi, he]

/-- The addresses `vas` of directory `d` have been given pages of their own. -/
structure StackMapped (G : Space) (d : Nat) (vas : List Word) (s : Mem) (fl : List Nat) (t : Mem)
    (fl' : List Nat) : Prop extends Frame G s t, Local d s fl t fl' where
  apart : Apart (G.dirs.erase d) G.rsv s t
  other : ∀ v < 2 ^ 20, (∀ va ∈ vas, pgnum va ≠ v) → t.pteAt d v = s.pteAt d v
  own : ∀ va ∈ vas, present (t.pteAt d (pgnum va)) = true ∧
    mapSites G t (pgnum (t.pteAt d (pgnum va))) = {(d, pgnum va)}
  keep : ∀ p, p ∉ fl → mapSites G t p = mapSites G s p
  suffix : fl' <:+ fl
  pages : fl.length + tabs s d = fl'.length + tabs t d + vas.length
  tables : tableSlots t d = tableSlots s d ∪ (vas.map pdx).toFinset
  perm : ∀ va ∈ vas, ∃ p ∈ fl, t.pteAt d (pgnum va) = page2pa p ||| pteP ||| (pteW ||| pteU)

namespace StackMapped

variable {G : Space} {I : Set Nat} {d : Nat} {s t u : Mem} {fl fl₁ fl₂ : List Nat}

theorem cons {p : Nat} {va : Word} {vas : List Word} (h : VmInv G I 0 s (p :: fl))
    (hd : d ∈ G.dirs) (hmap : Remap G s t d (pgnum va) (page2pa p ||| pteP ||| (pteW ||| pteU)))
    (hown : mapSites G t p = {(d, pgnum va)})
    (hkeep : ∀ q ≠ p, mapSites G t q = mapSites G s q) (hsuf : fl₁ <:+ fl)
    (hlen : fl.length + tabs s d = fl₁.length + tabs t d)
    (hins : tableSlots t d = insert (pdx va) (tableSlots s d)) (hloc : Local d s (p :: fl) t fl₁)
    (hnew : ∀ va' ∈ vas, pgnum va' ≠ pgnum va) (k : StackMapped G d vas t fl₁ u fl₂) :
    StackMapped G d (va :: vas) s (p :: fl) u fl₂ := by
  have hp1 : p ∉ fl₁ := fun e => (List.nodup_cons.mp h.free.nodup).1 (hsuf.subset e)
  have hp20 : p < 2 ^ 20 := (h.free.lt p (by simp)).trans_le h.np
  have hwp : pgnum (page2pa p ||| pteP ||| (pteW ||| pteU)) = p := by
    rw [VmInv.entry_assoc]
    exact pgnum_entry p _ hp20 (by decide)
  have hva : u.pteAt d (pgnum va) = page2pa p ||| pteP ||| (pteW ||| pteU) := by
    rw [k.other _ (pgnum_lt va) hnew, hmap.pte d hd _ (pgnum_lt va)]
    simp
  refine ⟨hmap.toFrame.trans k.toFrame, hloc.trans k.toLocal, (Apart.of_remap hmap).trans k.apart,
    fun v hv hne => ?_, fun va' hva' => ?_, fun q hq => ?_,
    k.suffix.trans (hsuf.trans (List.suffix_cons p fl)), ?_, ?_, fun va' hva' => ?_⟩
  · have hv0 : ¬ (d = d ∧ v = pgnum va) := fun e => hne va (by simp) e.2.symm
    rw [k.other v hv fun va' hva' => hne va' (by simp [hva']), hmap.pte d hd v hv, if_neg hv0]
  · rcases List.mem_cons.mp hva' with rfl | hva'
    · rw [hva, hwp, k.keep p hp1]
      exact ⟨present_or_left (present_or_right present_pteP), hown⟩
    · exact k.own va' hva'
  · have hq' : q ≠ p ∧ q ∉ fl := by simpa using hq
    rw [k.keep q fun e => hq'.2 (hsuf.subset e), hkeep q hq'.1]
  · have := k.pages
    simp only [List.length_cons]
    omega
  · rw [k.tables, hins, List.map_cons, List.toFinset_cons, Finset.union_insert, Finset.insert_union]
  · rcases List.mem_cons.mp hva' with rfl | hva'
    · exact ⟨p, by simp, hva⟩
    · obtain ⟨q, hq, he⟩ := k.perm va' hva'
      exact ⟨q, List.mem_cons_of_mem p (hsuf.subset hq), he⟩

end StackMapped

namespace VmInv

variable {G : Space} {I : Set Nat} {s : Mem} {fl : List Nat} {d : Nat}

private theorem mapUserStack_present (h : VmInv G I 0 s fl) (hd : d ∈ G.dirs)
    (hb : ∀ I' t fl', VmInv G I' 0 t fl' → ∀ q, refs G t q < 65536) (vas : List Word)
    (hc : ∀ va ∈ vas, G.counted (pgnum va) = true) (hnd : (vas.map pgnum).Nodup)
    (habs : ∀ va ∈ vas, present (s.pteAt d (pgnum va)) = false)
    (hpde : ∀ va ∈ vas, present (s.ram d (pdx va)) = true) :
    (fl.length < vas.length ∧ ∃ t, mapUserStack (kva d) vas s = some (false, t)) ∨
      ∃ t fl', mapUserStack (kva d) vas s = some (true, t) ∧ VmInv G I 0 t fl' ∧
        StackMapped G d vas s fl t fl' := by
  induction vas generalizing s fl with
  | nil =>
    exact .inr ⟨s, fl, rfl, h, Frame.refl G s, Local.refl d s fl, Apart.refl _ _ s,
      fun _ _ _ => rfl, by simp, fun _ _ => rfl, List.suffix_rfl, by simp, by simp, by simp⟩
  | cons va vas ih =>
    obtain ⟨hnew, hnd⟩ := List.nodup_cons.mp hnd
    have hnew' : ∀ va' ∈ vas, pgnum va' ≠ pgnum va := fun va' hva' e =>
      hnew (List.mem_map.mpr ⟨va', hva', e⟩)
    cases fl with
    | nil =>
      exact .inl ⟨by simp, s, mapUserStack_none (pageAlloc_nil h.free allocZero)⟩
    | cons p fl =>
      have hperm : (pteW ||| pteU).toNat < 4096 := by decide
      obtain ⟨hal, hins⟩ := h.insertFresh hd (hc va (by simp)) hperm (habs va (by simp)) hb
      rcases hins with ⟨_, hno, _⟩ | ⟨t, fl₁, he, h1, hsuf, hlen, hset, hloc, hmap, hown, hkeep⟩
      · simp [hpde va (by simp)] at hno
      have hmem : pdx va ∈ tableSlots s d := mem_tableSlots.mpr ⟨pdx_lt va, hpde va (by simp)⟩
      have htabs : tabs t d = tabs s d := by
        rw [tabs_eq, hset, Finset.insert_eq_of_mem hmem, tabs_eq]
      have habs1 : ∀ va' ∈ vas, present (t.pteAt d (pgnum va')) = false := by
        intro va' hva'
        rw [hmap.pte d hd _ (pgnum_lt va'), if_neg fun e => hnew' va' hva' e.2]
        exact habs va' (by simp [hva'])
      have hpde1 : ∀ va' ∈ vas, present (t.ram d (pdx va')) = true := by
        intro va' hva'
        have hp := hpde va' (by simp [hva'])
        rw [hmap.row d hd _ (pdx_lt va') hp, hp]
      have hrun : mapUserStack (kva d) (va :: vas) s = mapUserStack (kva d) vas t :=
        mapUserStack_step hal he (by decide)
      rw [hrun]
      rcases ih h1 (fun va' hva' => hc va' (by simp [hva'])) hnd habs1 hpde1 with
        ⟨hlt, hf⟩ | ⟨u, fl₂, hu, h2, hm⟩
      · refine .inl ⟨?_, hf⟩
        simp only [List.length_cons]
        omega
      · exact .inr ⟨u, fl₂, hu, h2, StackMapped.cons h hd hmap hown hkeep hsuf
          hlen hset hloc hnew' hm⟩

/-- The loop over the user stack. Should the page table of the stack be missing and the memory
exhausted, the second round notices it. -/
theorem mapUserStack_spec (h : VmInv G I 0 s fl) (hd : d ∈ G.dirs)
    (hb : ∀ I' t fl', VmInv G I' 0 t fl' → ∀ q, refs G t q < 65536) {va va' : Word}
    {vas : List Word} (hc : ∀ w ∈ va :: va' :: vas, G.counted (pgnum w) = true)
    (hnd : ((va :: va' :: vas).map pgnum).Nodup)
    (habs : ∀ w ∈ va :: va' :: vas, present (s.pteAt d (pgnum w)) = false)
    (hpdx : ∀ w ∈ va' :: vas, pdx w = pdx va) :
    (fl.length + tabs s d <
        (insert (pdx va) (tableSlots s d)).card + (va :: va' :: vas).length ∧
        ∃ t, mapUserStack (kva d) (va :: va' :: vas) s = some (false, t)) ∨
      ∃ t fl', mapUserStack (kva d) (va :: va' :: vas) s = some (true, t) ∧ VmInv G I 0 t fl' ∧
        StackMapped G d (va :: va' :: vas) s fl t fl' := by
  have hperm : (pteW ||| pteU).toNat < 4096 := by decide
  have ht : tabs s d ≤ (insert (pdx va) (tableSlots s d)).card :=
    Finset.card_le_card (Finset.subset_insert _ _)
  cases fl with
  | nil =>
    refine .inl ⟨by simp only [List.length_nil, List.length_cons]; omega, s, ?_⟩
    exact mapUserStack_none (pageAlloc_nil h.free allocZero)
  | cons p fl =>
    obtain ⟨hnew, hnd⟩ := List.nodup_cons.mp hnd
    have hnew' : ∀ w ∈ va' :: vas, pgnum w ≠ pgnum va := fun w hw e =>
      hnew (List.mem_map.mpr ⟨w, hw, e⟩)
    obtain ⟨hal, hins⟩ := h.insertFresh hd (hc va (by simp)) hperm (habs va (by simp)) hb
    rcases hins with ⟨hnil, _, he⟩ | ⟨t, fl₁, he, h1, hsuf, hlen, hset, hloc, hmap, hown, hkeep⟩
    · refine .inl ⟨?_, s.take allocZero p, ?_⟩
      · simp only [hnil, List.length_cons, List.length_nil]
        omega
      · have hf : FreeList (s.take allocZero p) [] := hnil ▸ h.free.take allocZero
        rw [mapUserStack_step hal he (by decide)]
        exact mapUserStack_none (pageAlloc_nil hf allocZero)
    have hfirst : present (t.ram d (pdx va)) = true := by
      refine pde_present ?_
      rw [hmap.pte d hd _ (pgnum_lt va), if_pos ⟨rfl, rfl⟩]
      exact present_or_left (present_or_right present_pteP)
    have habs1 : ∀ w ∈ va' :: vas, present (t.pteAt d (pgnum w)) = false := by
      intro w hwm
      rw [hmap.pte d hd _ (pgnum_lt w), if_neg fun e => hnew' w hwm e.2]
      exact habs w (by simp [List.mem_cons.mp hwm])
    rw [mapUserStack_step hal he (by decide)]
    rcases h1.mapUserStack_present hd hb (va' :: vas) (fun w hwm =>
      hc w (List.mem_cons_of_mem _ hwm))
      hnd habs1 (fun w hwm => by rw [hpdx w hwm]; exact hfirst) with ⟨hlt, hf⟩ | ⟨u,
        fl₂, hu, h2, hm⟩
    · refine .inl ⟨?_, hf⟩
      rw [tabs_eq t d, hset] at hlen
      simp only [List.length_cons] at hlt ⊢
      omega
    · exact .inr ⟨u, fl₂, hu, h2, StackMapped.cons h hd hmap hown hkeep hsuf
        hlen hset hloc hnew' hm⟩

end VmInv

/-- `page_alloc(ALLOC_ZERO)` makes the head of the free list an empty directory. -/
theorem VmInv.newDir {G : Space} {I : Set Nat} {s : Mem} {d : Nat} {fl : List Nat}
    (h : VmInv G I 0 s (d :: fl)) :
    VmInv { G with dirs := insert d G.dirs } I 0 (s.take allocZero d) fl ∧
      d ∉ G.dirs ∧ Apart G.dirs G.rsv s (s.take allocZero d) ∧
      ∀ i, (s.take allocZero d).ram d i = 0#32 := by
  obtain ⟨_, hdat, _, hpte⟩ := h.take allocZero
  have hd20 : d < 2 ^ 20 := (h.free.lt d (by simp)).trans_le h.np
  refine ⟨h.takeDir, hdat.notDir, ⟨rfl, fun p hp i => ?_, fun d' hd' i _ => ?_, hpte⟩,
    take_ram_self hd20⟩
  · exact take_ram_ne hd20 (fun e => h.pool d (by simp) (e ▸ hp)) i
  · exact take_ram_ne hd20 (fun e => hdat.notDir (e ▸ hd')) i

section Create

variable {L : Image} {dirs : Finset Nat} {rsv : Nat → Prop} {I : Set Nat} {s : Mem} {fl : List Nat}

/-- `setupkvm` succeeds when every allocation does, and then the new directory has
the regions and nothing else. -/
theorem setupkvm_spec (h : VmInv (taskSpace dirs rsv) I 0 s fl) (hn : s.npages ≤ 65536)
    (hL : L.lapic = 0#32 ∨ mmiobase ≤ L.lapic ∧ L.lapic < mmiolim) :
    (((∀ rs, kvmRegions L s.npages = some rs → fl.length ≤ (regionsTables rs).card) ∧
        (setupkvm L s = none ∨ setupkvm L s = some (none, s))) ∨
      ∃ rs d fl₁ t fl', kvmRegions L s.npages = some rs ∧ fl = d :: fl₁ ∧
        setupkvm L s = some (some (kva d), t) ∧ d ∉ dirs ∧
        VmInv (taskSpace (insert d dirs) rsv) I 0 t fl' ∧ Apart dirs rsv s t ∧ fl' <:+ fl₁ ∧
        (∀ v < 2 ^ 20, t.pteAt d v = regionsEntry rs 0#32 v) ∧
        tableSlots t d = regionsTables rs ∧ fl₁.length = fl'.length + tabs t d ∧
        (∀ p, Near t fl' d p → p ∈ fl) ∧ ∀ p, p ∉ fl → ∀ j, t.ram p j = s.ram p j) := by
  cases fl with
  | nil =>
    refine .inl ⟨by simp, .inr ?_⟩
    simp [setupkvm, pageAlloc_nil h.free]
  | cons d fl =>
    obtain ⟨h1, hd, hap, hz⟩ := h.newDir
    have hal := pageAlloc_cons h.free allocZero
    have hk : page2kva s.npages d = some (kva d) := page2kva_of_lt (h.free.lt d (by simp))
    have hnp : (s.take allocZero d).npages = s.npages := rfl
    have hslots : tableSlots (s.take allocZero d) d = ∅ := by simp [tableSlots, hz]
    have hd20 : d < 2 ^ 20 := (h.free.lt d (by simp)).trans_le h.np
    have hram : ∀ p, p ∉ d :: fl → ∀ j, (s.take allocZero d).ram p j = s.ram p j := fun p hp j =>
      take_ram_ne hd20 (fun e => hp (by simp [e])) j
    have hnear : ∀ p, Near (s.take allocZero d) fl d p → p ∈ d :: fl := by
      intro p hp
      simp only [Near, hz, present_zero, Bool.false_eq_true, false_and, and_false, exists_false,
        or_false] at hp
      exact hp.elim (List.mem_cons_of_mem d) fun e => by simp [e]
    generalize s.take allocZero d = s₁ at *
    have htabs : tabs s₁ d = 0 := by rw [tabs_eq, hslots, Finset.card_empty]
    cases hrs : kvmRegions L s.npages with
    | none =>
      refine .inl ⟨by simp, .inl ?_⟩
      simp [setupkvm, hal, hnp, hrs]
    | some rs =>
      have hmem : d ∈ (taskSpace (insert d dirs) rsv).dirs := Finset.mem_insert_self d dirs
      have hrun : setupkvm L s =
          (rs.foldlM (fun s r => bootMapRegion (kva d) r.va r.size r.pa r.perm s) s₁).bind
            fun t => some (some (kva d), t) := by
        simp [setupkvm, hal, hk, hnp, hrs]
      have h1' : VmInv (taskSpace (insert d dirs) rsv) I 0 s₁ fl := h1
      rcases h1'.mapRegions hmem rs fun r hr k hk => kvmRegions_static hn hL hrs hr hk with
        ⟨hlt, he⟩ | ⟨t, fl', he, h2, hg, hset, hent⟩
      · refine .inl ⟨fun rs' hrs' => ?_, .inl ?_⟩
        · cases hrs'
          rw [hslots, Finset.empty_union] at hlt
          rw [List.length_cons]
          omega
        · rw [hrun, he]
          rfl
      · have hap2 : Apart dirs rsv s₁ t := by
          refine (Apart.of_grows hg).mono fun d' hd' => ?_
          exact Finset.mem_erase.mpr ⟨fun e => hd (e ▸ hd'), Finset.mem_insert_of_mem hd'⟩
        refine .inr ⟨rs, d, fl, t, fl', rfl, rfl, ?_, hd, h2, hap.trans hap2, hg.suffix,
          fun v hv => ?_, ?_, ?_, fun p hp => hnear p (hg.near p hp), fun p hp j => ?_⟩
        · rw [hrun, he]
          rfl
        · rw [hent v hv]
          simp [Mem.pteAt, hz]
        · rw [hset, hslots, Finset.empty_union]
        · have := hg.pages
          omega
        · rw [hg.ram p (fun hn => hp (hnear p hn)) j, hram p hp j]

theorem regionsEntry_stack (hn : s.npages ≤ 65536)
    (hL : L.lapic = 0#32 ∨ mmiobase ≤ L.lapic ∧ L.lapic < mmiolim) {rs : List Region}
    (hrs : kvmRegions L s.npages = some rs) (w : Word) {v : Nat} (hv : v < 2 ^ 20)
    (hs : stackVpn v = true) : regionsEntry rs w v = w := by
  refine regionsEntry_of_none (fun r hr => Region.entry_none hv fun k hk e => ?_) w
  rw [e, kvmRegions_static hn hL hrs hr hk] at hs
  simp at hs

theorem userStack_eq : userStack = [0xEEBF4000#32, 0xEEBF5000#32, 0xEEBF6000#32, 0xEEBF7000#32,
    0xEEBF8000#32, 0xEEBF9000#32, 0xEEBFA000#32, 0xEEBFB000#32, 0xEEBFC000#32, 0xEEBFD000#32] := by
  decide +kernel

theorem userStack_pdx : ∀ w ∈ userStack, pdx w = 954 := by
  simp [userStack_eq, pdx_eq]

theorem userStack_nodup : (userStack.map pgnum).Nodup := by decide +kernel

theorem createSpace_spec {t : Mem} {d : Nat} {fl' : List Nat}
    (h : VmInv (taskSpace (insert d dirs) rsv) I 0 t fl') (hcard : dirs.card ≤ 32)
    (habs : ∀ v < 2 ^ 20, stackVpn v = true → t.pteAt d v = 0#32) :
    (fl'.length + tabs t d < (insert 954 (tableSlots t d)).card + 10 ∧
        ∃ u, mapUserStack (kva d) userStack t = some (false, u)) ∨
      ∃ u fl'', mapUserStack (kva d) userStack t = some (true, u) ∧
        VmInv (taskSpace (insert d dirs) rsv) I 0 u fl'' ∧
        StackMapped (taskSpace (insert d dirs) rsv) d userStack t fl' u fl'' := by
  have hmem : d ∈ (taskSpace (insert d dirs) rsv).dirs := Finset.mem_insert_self d dirs
  have hb : ∀ I' t fl', VmInv (taskSpace (insert d dirs) rsv) I' 0 t fl' →
      ∀ q, refs (taskSpace (insert d dirs) rsv) t q < 65536 := by
    intro I' t fl' hv q
    have hle : (insert d dirs).card ≤ 33 := (Finset.card_insert_le d dirs).trans (by omega)
    exact (taskSpace_refs_lt hv hle q).trans (by decide)
  have hc : ∀ w ∈ userStack, stackVpn (pgnum w) = true := fun w hw =>
    (stackVpn_userStack (pgnum w)).mpr ⟨w, hw, rfl⟩
  have habs' : ∀ w ∈ userStack, present (t.pteAt d (pgnum w)) = false := fun w hw => by
    rw [habs _ (pgnum_lt w) (hc w hw)]
    rfl
  have hpdx := userStack_pdx
  have hnd := userStack_nodup
  have hlen : userStack.length = 10 := by rw [userStack_eq]; rfl
  obtain ⟨va, va', vas, hsplit⟩ : ∃ va va' vas, userStack = va :: va' :: vas :=
    ⟨_, _, _, userStack_eq⟩
  rw [hsplit] at hc habs' hpdx hnd hlen ⊢
  have hsame : ∀ w ∈ va' :: vas, pdx w = pdx va := fun w hw =>
    (hpdx w (List.mem_cons_of_mem _ hw)).trans (hpdx va (by simp)).symm
  rcases h.mapUserStack_spec hmem hb hc hnd habs' hsame with hf | hs
  · refine .inl ⟨?_, hf.2⟩
    have hlt := hf.1
    rw [hpdx va (by simp)] at hlt
    omega
  · exact .inr hs

end Create

end NctuCourses.Osdi
