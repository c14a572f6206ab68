import Mathlib.Data.Set.Function
import NctuCourses.Osdi.Mem.BootMap

namespace NctuCourses.Osdi

/-- Page `d` is a page directory: its page tables are pages in use, one for each slot that is
present, and none of them is the directory. -/
structure Directory (s : Mem) (d : Nat) (fl : List Nat) : Prop where
  np : s.npages ≤ 2 ^ 20
  free : FreeList s fl
  lt : d < s.npages
  used : d ∉ fl
  table : ∀ i < 1024, present (s.ram d i) = true →
    pgnum (s.ram d i) < s.npages ∧ pgnum (s.ram d i) ∉ fl ∧ pgnum (s.ram d i) ≠ d
  distinct : ∀ i < 1024, ∀ j < 1024, present (s.ram d i) = true → present (s.ram d j) = true →
    pgnum (s.ram d i) = pgnum (s.ram d j) → i = j

/-- The slots of `S` in directory `d` that have no page table. -/
def Mem.missing (s : Mem) (d : Nat) (S : Finset Nat) : Finset Nat :=
  S.filter fun i => present (s.ram d i) = false

/-- What the processor finds for page number `v`: the directory entry and the table entry. -/
def Mem.translation (s : Mem) (d v : Nat) : Option (Word × Word) :=
  if present (s.ram d (v / 1024)) && present (s.pteAt d v)
    then some (s.ram d (v / 1024), s.pteAt d v) else none

/-- Directory `d` has got page tables for the slots of `S`. The new ones are the pages of `l`. -/
structure Extended (d : Nat) (S : Finset Nat) (s t : Mem) (l : List Nat) : Prop where
  slot : ∀ i, i ∉ s.missing d S → t.ram d i = s.ram d i
  filled : ∀ i ∈ S, present (t.ram d i) = true
  length : l.length = (s.missing d S).card
  mem : ∀ p, p ∈ l ↔ ∃ i ∈ s.missing d S, pgnum (t.ram d i) = p
  ref : ∀ p, (t.pages p).ppRef = if p ∈ l then 1 else (s.pages p).ppRef

theorem mem_missing {s : Mem} {d : Nat} {S : Finset Nat} {i : Nat} :
    i ∈ s.missing d S ↔ i ∈ S ∧ present (s.ram d i) = false := Finset.mem_filter

theorem missing_singleton {s : Mem} {d i : Nat} (habs : present (s.ram d i) = false) :
    s.missing d {i} = {i} := by
  simp [Mem.missing, Finset.filter_singleton, habs]

namespace Extended

variable {d : Nat} {S T : Finset Nat} {s t u : Mem} {l m : List Nat}

theorem of_filled (h : ∀ i ∈ S, present (s.ram d i) = true) : Extended d S s s [] := by
  have hnone : s.missing d S = ∅ := by
    refine Finset.filter_eq_empty_iff.mpr fun i hi => ?_
    simp [h i hi]
  exact ⟨fun _ _ => rfl, h, by rw [hnone]; rfl, by simp [hnone], by simp⟩

theorem absent_iff (h : Extended d S s t l) (i : Nat) :
    present (t.ram d i) = false ↔ present (s.ram d i) = false ∧ i ∉ S := by
  by_cases hi : i ∈ S
  · simp [h.filled i hi, hi]
  · rw [h.slot i fun hm => hi (mem_missing.mp hm).1]
    simp [hi]

theorem card_missing_union (h : Extended d S s t l) (T : Finset Nat) :
    (s.missing d (S ∪ T)).card = l.length + (t.missing d T).card := by
  rw [h.length]
  exact card_filter_union h.absent_iff T

theorem mem_missing_union (h : Extended d S s t l) {T : Finset Nat} {i : Nat} :
    i ∈ s.missing d (S ∪ T) ↔ i ∈ s.missing d S ∨ i ∈ t.missing d T := by
  simp only [mem_missing, Finset.mem_union, h.absent_iff i]
  tauto

theorem trans (h : Extended d S s t l) (k : Extended d T t u m) :
    Extended d (S ∪ T) s u (l ++ m) where
  slot i hi := by
    rw [h.mem_missing_union, not_or] at hi
    rw [k.slot i hi.2, h.slot i hi.1]
  filled i hi := by
    by_cases hT : i ∈ T
    · exact k.filled i hT
    · rw [k.slot i fun hm => hT (mem_missing.mp hm).1]
      exact h.filled i ((Finset.mem_union.mp hi).resolve_right hT)
  length := by rw [List.length_append, h.card_missing_union, k.length]
  mem p := by
    -- The second part leaves the page tables of the first.
    have hkeep : ∀ i ∈ s.missing d S, u.ram d i = t.ram d i := fun i hi =>
      k.slot i fun hm => ((h.absent_iff i).mp (mem_missing.mp hm).2).2 (mem_missing.mp hi).1
    rw [List.mem_append, h.mem, k.mem]
    simp only [h.mem_missing_union, or_and_right, exists_or]
    refine or_congr_left (exists_congr fun i => and_congr_right fun hi => ?_)
    rw [hkeep i hi]
  ref p := by
    rw [k.ref, h.ref]
    by_cases hm : p ∈ m
    · simp [hm]
    · simp [hm]

/-- An entry that has been written changes neither the directory nor a count. -/
theorem congr (h : Extended d S s t l) (hram : ∀ i, u.ram d i = t.ram d i)
    (hpages : u.pages = t.pages) :
    Extended d S s u l where
  slot i hi := (hram i).trans (h.slot i hi)
  filled i hi := by rw [hram]; exact h.filled i hi
  length := h.length
  mem p := by simpa only [hram] using h.mem p
  ref p := by rw [hpages]; exact h.ref p

end Extended

namespace Directory

variable {s : Mem} {d : Nat} {fl : List Nat}

section NewTable

variable {p i : Nat}

theorem lt_of_head (h : Directory s d (p :: fl)) : p < 2 ^ 20 :=
  (h.free.lt p (by simp)).trans_le h.np

theorem ne_head (h : Directory s d (p :: fl)) : d ≠ p := fun e => h.used (by simp [e])

theorem table_ne_head (h : Directory s d (p :: fl)) {j : Nat} (hj : j < 1024)
    (hp : present (s.ram d j) = true) :
    pgnum (s.ram d j) ≠ p := fun e => (h.table j hj hp).2.1 (by simp [e])

theorem newTable_slot (h : Directory s d (p :: fl)) (j : Nat) : (s.newTable d i p).ram d j =
    if j = i then page2pa p ||| (pteP ||| pteU ||| pteW) else s.ram d j := by
  rw [newTable_ram h.lt_of_head h.ne_head]
  simp

theorem newTable_pgnum (h : Directory s d (p :: fl)) : pgnum ((s.newTable d i p).ram d i) = p := by
  rw [h.newTable_slot, if_pos rfl]
  exact pgnum_entry p _ h.lt_of_head (by decide)

theorem newTable_present (h : Directory s d (p :: fl)) :
    present ((s.newTable d i p).ram d i) = true := by
  rw [h.newTable_slot, if_pos rfl]
  exact present_or_right (by decide)

theorem newTable_slot_ne (h : Directory s d (p :: fl)) {j : Nat} (hj : j ≠ i) :
    (s.newTable d i p).ram d j = s.ram d j := by
  rw [h.newTable_slot, if_neg hj]

/-- `pgdir_walk` puts a free page into a slot. -/
theorem newTable (h : Directory s d (p :: fl)) : Directory (s.newTable d i p) d fl where
  np := h.np
  free := h.free.newTable
  lt := h.lt
  used hd := h.used (by simp [hd])
  table j hj hp := by
    by_cases hji : j = i
    · rw [hji, h.newTable_pgnum]
      exact ⟨h.free.lt p (by simp), (List.nodup_cons.mp h.free.nodup).1, h.ne_head.symm⟩
    · rw [h.newTable_slot_ne hji] at hp ⊢
      obtain ⟨hlt, hnf, hnd⟩ := h.table j hj hp
      exact ⟨hlt, fun hm => hnf (by simp [hm]), hnd⟩
  distinct j hj k hk hpj hpk he := by
    by_cases hji : j = i <;> by_cases hki : k = i
    · rw [hji, hki]
    · rw [hji, h.newTable_pgnum, h.newTable_slot_ne hki] at he
      rw [h.newTable_slot_ne hki] at hpk
      exact absurd he.symm (h.table_ne_head hk hpk)
    · rw [hki, h.newTable_pgnum, h.newTable_slot_ne hji] at he
      rw [h.newTable_slot_ne hji] at hpj
      exact absurd he (h.table_ne_head hj hpj)
    · rw [h.newTable_slot_ne hji] at hpj he
      rw [h.newTable_slot_ne hki] at hpk he
      exact h.distinct j hj k hk hpj hpk he

theorem newTable_extended (h : Directory s d (p :: fl)) (habs : present (s.ram d i) = false) :
    Extended d {i} s (s.newTable d i p) [p] where
  slot j hj := by
    rw [missing_singleton habs, Finset.mem_singleton] at hj
    exact h.newTable_slot_ne hj
  filled j hj := by
    rw [Finset.mem_singleton.mp hj]
    exact h.newTable_present
  length := by rw [missing_singleton habs, List.length_singleton, Finset.card_singleton]
  mem q := by
    rw [missing_singleton habs, List.mem_singleton]
    simp only [Finset.mem_singleton, exists_eq_left, h.newTable_pgnum]
    exact eq_comm
  ref q := by
    rw [newTable_ref h.free q]
    simp

theorem newTable_pteAt (h : Directory s d (p :: fl)) (habs : present (s.ram d i) = false) {v : Nat}
    (hv : v < 2 ^ 20) : (s.newTable d i p).pteAt d v = s.pteAt d v := by
  by_cases hvi : v / 1024 = i
  · rw [Mem.pteAt, Mem.pteAt, hvi, if_pos h.newTable_present, h.newTable_pgnum,
      newTable_ram_self h.lt_of_head h.ne_head.symm, habs]
    rfl
  · rw [Mem.pteAt, Mem.pteAt, h.newTable_slot_ne hvi]
    cases hpr : present (s.ram d (v / 1024)) with
    | false => rfl
    | true =>
      have hlt : v / 1024 < 1024 := by omega
      rw [if_pos rfl, if_pos rfl, newTable_ram h.lt_of_head (h.table_ne_head hlt hpr),
        if_neg fun e => (h.table _ hlt hpr).2.2 e.1]

end NewTable

theorem setEntry (h : Directory s d fl) {va : Word} (hp : present (s.ram d (pdx va)) = true)
    (w : Word) :
    Directory (s.setRam (pgnum (s.ram d (pdx va))) (ptx va) w) d fl ∧
      (∀ j, (s.setRam (pgnum (s.ram d (pdx va))) (ptx va) w).ram d j = s.ram d j) ∧
      ∀ v < 2 ^ 20, (s.setRam (pgnum (s.ram d (pdx va))) (ptx va) w).pteAt d v =
        if v = pgnum va then w else s.pteAt d v := by
  have hdir : ∀ j, (s.setRam (pgnum (s.ram d (pdx va))) (ptx va) w).ram d j = s.ram d j := fun j =>
    if_neg fun e => (h.table _ (pdx_lt va) hp).2.2 e.1.symm
  refine ⟨⟨h.np, h.free.setRam _ _ _, h.lt, h.used, ?_, ?_⟩, hdir, fun v hv => ?_⟩
  · simp only [hdir]
    exact h.table
  · simp only [hdir]
    exact h.distinct
  · rw [Mem.pteAt, Mem.pteAt, hdir]
    cases hpr : present (s.ram d (v / 1024)) with
    | false =>
      have hne : v ≠ pgnum va := by
        rintro rfl
        rw [pgnum_div, hp] at hpr
        cases hpr
      rw [if_neg hne]
      rfl
    | true =>
      have hiff : pgnum (s.ram d (v / 1024)) = pgnum (s.ram d (pdx va)) ∧ v % 1024 = ptx va ↔
          v = pgnum va := by
        constructor
        · rintro ⟨he, hmod⟩
          have hdiv := h.distinct _ (by omega) _ (pdx_lt va) hpr hp he
          rw [pgnum_eq_pdx_ptx]
          omega
        · rintro rfl
          rw [pgnum_div, pgnum_mod]
          exact ⟨rfl, rfl⟩
      simp only [if_true, Mem.setRam, hiff]

theorem mapPage (h : Directory s d fl) (va w : Word)
    (hlen : (s.missing d {pdx va}).card ≤ fl.length) :
    ∃ pte t l fl', pgdirWalk (kva d) va true s = some (some pte, t) ∧ fl = l ++ fl' ∧
      Directory (store pte w t) d fl' ∧ Extended d {pdx va} s (store pte w t) l ∧
      ∀ v < 2 ^ 20, (store pte w t).pteAt d v = if v = pgnum va then w else s.pteAt d v := by
  have hd : d < 2 ^ 20 := h.lt.trans_le h.np
  cases hp : present (s.ram d (pdx va)) with
  | true =>
    obtain ⟨hlt, _, _⟩ := h.table _ (pdx_lt va) hp
    obtain ⟨h1, hdir, hent⟩ := h.setEntry hp w
    have hext : Extended d {pdx va} s s [] := Extended.of_filled fun i hi => by
      rw [Finset.mem_singleton.mp hi]
      exact hp
    refine ⟨_, s, [], fl, pgdirWalk_present hd hp hlt, rfl, ?_⟩
    rw [store_slot s _ _ _ (pgnum_lt _) (ptx_lt va)]
    exact ⟨h1, hext.congr hdir rfl, hent⟩
  | false =>
    rw [missing_singleton hp, Finset.card_singleton] at hlen
    cases fl with
    | nil => simp at hlen
    | cons p fl =>
      obtain ⟨h2, hdir, hent⟩ := h.newTable.setEntry h.newTable_present w
      rw [h.newTable_pgnum] at h2 hdir hent
      refine ⟨_, _, [p], fl, pgdirWalk_create_cons hd hp h.free, rfl, ?_⟩
      rw [store_slot _ _ _ _ h.lt_of_head (ptx_lt va)]
      refine ⟨h2, (h.newTable_extended hp).congr hdir rfl, fun v hv => ?_⟩
      rw [hent v hv, h.newTable_pteAt hp hv]

theorem bootMapRegion_spec (h : Directory s d fl) (va size pa perm : Word) {n : Nat}
    (hn : size.toNat / 4096 = n) (hlen : (s.missing d (pageTables va n)).card ≤ fl.length) :
    ∃ t l fl', bootMapRegion (kva d) va size pa perm s = some t ∧ fl = l ++ fl' ∧
    Directory t d fl' ∧
      Extended d (pageTables va n) s t l ∧ MapsRange va pa perm n (s.pteAt d) (t.pteAt d) := by
  have hn20 : n ≤ 2 ^ 20 := by
    have := size.isLt
    omega
  have hloop := bootMapRegion_loop False (kva d) va size pa perm hn
    (fun k t => ∃ l fl', fl = l ++ fl' ∧ Directory t d fl' ∧ Extended d (pageTables va k) s t l ∧
      MapsRange va pa perm k (s.pteAt d) (t.pteAt d))
    ?_ ⟨[], fl, rfl, h, Extended.of_filled (by simp [pageTables]), MapsRange.zero _⟩
  · obtain ⟨t, ht, l, fl', hfl, h1, hext, hent⟩ := hloop.resolve_left fun hout => hout.1
    exact ⟨t, l, fl', ht, hfl, h1, hext, hent⟩
  · rintro k hk t ⟨l, fl', rfl, h1, hext, hent⟩
    have hneed : (t.missing d {pdx (va + BitVec.ofNat 32 (4096 * k))}).card ≤ fl'.length := by
      have hle : (s.missing d (pageTables va (k + 1))).card ≤ (l ++ fl').length :=
        (Finset.card_le_card (Finset.filter_subset_filter _ (pageTables_mono hk))).trans hlen
      rw [pageTables_union, hext.card_missing_union, List.length_append] at hle
      omega
    obtain ⟨pte, u, m, fl₂, hwalk, rfl, h2, hext2, he⟩ :=
      h1.mapPage _ (pa + BitVec.ofNat 32 (4096 * k) ||| perm ||| pteP) hneed
    refine .inr ⟨pte, u, hwalk, l ++ m, fl₂,
      by rw [List.append_assoc], h2, ?_, hent.succ (by omega) ?_⟩
    · rw [pageTables_union]
      exact hext.trans hext2
    · simpa only [pgnum_vpnAt] using he

end Directory

theorem Extended.translation {d : Nat} {S : Finset Nat} {s t : Mem} {l : List Nat}
    (h : Extended d S s t l) {v : Nat} (hv : t.pteAt d v = s.pteAt d v) :
    t.translation d v = s.translation d v := by
  cases hp : present (s.ram d (v / 1024)) with
  | true =>
    have hnot : v / 1024 ∉ s.missing d S := by
      rw [mem_missing, hp]
      simp
    rw [Mem.translation, Mem.translation, hv, h.slot _ hnot]
  | false =>
    have h0 : s.pteAt d v = 0#32 := by simp [Mem.pteAt, hp]
    rw [Mem.translation, Mem.translation, hv, h0, present_zero, Bool.and_false, Bool.and_false]
    rfl

/-- `boot_map_region` maps exactly its range, for any range: the entries of its pages are the
ones asked for, every other page keeps its translation, and the pages taken are one for each
slot of the range that had no page table. Such a page is zero outside the range and has one
reference; no other count changes. -/
theorem bootMapRegion_exact {s : Mem} {d : Nat} {fl : List Nat} (h : Directory s d fl)
    (va size pa perm : Word)
    (hlen : (s.missing d (pageTables va (size.toNat / 4096))).card ≤ fl.length) :
    ∃ t l fl', bootMapRegion (kva d) va size pa perm s = some t ∧
      (∀ i < size.toNat / 4096, t.pteAt d (pgnum (va + BitVec.ofNat 32 (4096 * i))) =
        (pa + BitVec.ofNat 32 (4096 * i)) ||| perm ||| pteP) ∧
      (∀ v < 2 ^ 20, (∀ i < size.toNat / 4096, v ≠ pgnum (va + BitVec.ofNat 32 (4096 * i))) →
        t.translation d v = s.translation d v) ∧
      fl = l ++ fl' ∧ FreeList t fl' ∧
      Set.BijOn (fun i => pgnum (t.ram d i)) (s.missing d (pageTables va (size.toNat / 4096)))
        {p | p ∈ l} ∧
      (∀ i ∈ s.missing d (pageTables va (size.toNat / 4096)), present (t.ram d i) = true ∧
        ∀ j < 1024, (∀ k < size.toNat / 4096, 1024 * i + j ≠ pgnum
          (va + BitVec.ofNat 32 (4096 * k))) →
          t.ram (pgnum (t.ram d i)) j = 0#32) ∧
      ∀ p, (t.pages p).ppRef = if p ∈ l then 1 else (s.pages p).ppRef := by
  obtain ⟨t, l, fl', ht, hfl, h1, hext, hent⟩ := h.bootMapRegion_spec va size pa perm rfl hlen
  simp only [pgnum_vpnAt]
  have hslot : ∀ i ∈ s.missing d (pageTables va (size.toNat / 4096)),
      i < 1024 ∧ present (s.ram d i) = false ∧ present (t.ram d i) = true := by
    intro i hi
    obtain ⟨hi, habs⟩ := mem_missing.mp hi
    exact ⟨Finset.mem_range.mp (pageTables_subset _ _ hi), habs, hext.filled i hi⟩
  refine ⟨t, l, fl', ht, hent.inside, ?_, hfl, h1.free, ⟨?_, ?_, ?_⟩, ?_, hext.ref⟩
  · intro v hv hne
    exact hext.translation (hent.outside v hv hne)
  · intro i hi
    exact (hext.mem _).mpr ⟨i, hi, rfl⟩
  · intro i hi j hj he
    obtain ⟨hi, _, hpi⟩ := hslot i hi
    obtain ⟨hj, _, hpj⟩ := hslot j hj
    exact h1.distinct i hi j hj hpi hpj he
  · intro p hp
    exact (hext.mem p).mp hp
  · intro i hi
    obtain ⟨hi, habs, hpi⟩ := hslot i hi
    refine ⟨hpi, fun j hj hne => ?_⟩
    have hdiv : (1024 * i + j) / 1024 = i := by omega
    have hmod : (1024 * i + j) % 1024 = j := by omega
    have hout := hent.outside (1024 * i + j) (by omega) hne
    rwa [Mem.pteAt, Mem.pteAt, hdiv, hmod, hpi, habs] at hout

/-- Page 1 as a directory without page tables; pages 2 and 3 are free. -/
def emptyDirectory : Mem :=
  ⟨4, fun p => ⟨if p = 2 then some 3 else none, 0⟩, some 2, 2, fun _ _ => 0#32⟩

theorem emptyDirectory_directory : Directory emptyDirectory 1 [2, 3] where
  np := by decide
  free := by
    refine ⟨⟨rfl, rfl, rfl⟩, by decide, by decide, by decide, fun p hp => ?_⟩
    have hne : p ≠ 2 := fun e => hp (by simp [e])
    simp [emptyDirectory, hne]
  lt := by decide
  used := by decide
  table i _ hp := by simp [emptyDirectory] at hp
  distinct i _ j _ hp := by simp [emptyDirectory] at hp

theorem emptyDirectory_missing (S : Finset Nat) : emptyDirectory.missing 1 S = S :=
  Finset.filter_true_of_mem fun _ _ => present_zero

/-- The last page of the address space and the one after it, page 0, get a page table each. -/
theorem bootMapRegion_exact_wraps :
    ∃ t, bootMapRegion (kva 1) 0xFFFFF000#32 0x2000#32 0x3000#32 pteW emptyDirectory = some t ∧
      t.pteAt 1 0xFFFFF = 0x3003#32 ∧ t.pteAt 1 0 = 0x4003#32 ∧ FreeList t [] ∧
      (t.pages 2).ppRef = 1 ∧ (t.pages 3).ppRef = 1 := by
  have htables : pageTables 0xFFFFF000#32 ((0x2000#32 : Word).toNat / 4096) = {1023, 0} := by decide
  have hcard : (emptyDirectory.missing 1 (pageTables 0xFFFFF000#32
      ((0x2000#32 : Word).toNat / 4096))).card = 2 := by
    rw [emptyDirectory_missing, htables]
    rfl
  obtain ⟨t, l, fl', ht, hin, _, hfl, hfree, hbij, _, href⟩ :=
    bootMapRegion_exact emptyDirectory_directory
    0xFFFFF000#32 0x2000#32 0x3000#32 pteW hcard.le
  -- Two slots are missing, so that both of the free pages are taken.
  have hl : l = [2, 3] ∧ fl' = [] := by
    have hsub := Finset.card_le_card_of_injOn _ (fun i hi => List.mem_toFinset.mpr (hbij.mapsTo hi))
      hbij.injOn
    have hlen := congrArg List.length hfl
    rw [hcard] at hsub
    have hle := hsub.trans l.toFinset_card_le
    simp only [List.length_cons, List.length_nil, List.length_append] at hlen
    have hnil : fl' = [] := List.length_eq_zero_iff.mp (by omega)
    rw [hnil, List.append_nil] at hfl
    exact ⟨hfl.symm, hnil⟩
  obtain ⟨rfl, rfl⟩ := hl
  exact ⟨t, ht, hin 0 (by decide), hin 1 (by decide), hfree, href 2, href 3⟩

/-- A mapped page may be free, and then it may be the one that becomes the page table. -/
theorem bootMapRegion_counts_table :
    Directory emptyDirectory 1 [2, 3] ∧ (emptyDirectory.missing 1 (pageTables 0#32 1)).card ≤ 2 ∧
      ∃ t, bootMapRegion (kva 1) 0#32 pgsize 0x2000#32 pteW emptyDirectory = some t ∧
        t.pteAt 1 0 = 0x2000#32 ||| pteW ||| pteP ∧ pgnum (t.pteAt 1 0) = 2 ∧
        (emptyDirectory.pages 2).ppRef = 0 ∧ (t.pages 2).ppRef = 1 := by
  have hcard : (emptyDirectory.missing 1 (pageTables 0#32 1)).card = 1 := by
    rw [emptyDirectory_missing]
    decide
  obtain ⟨t, l, fl', ht, hfl, _, hext, hent⟩ :=
    emptyDirectory_directory.bootMapRegion_spec 0#32 pgsize 0x2000#32
    pteW (n := 1) (by decide) (by rw [hcard]; decide)
  have hl : l = [2] := by
    have hlen := hext.length
    rw [hcard] at hlen
    obtain ⟨p, rfl⟩ := List.length_eq_one_iff.mp hlen
    rw [List.singleton_append, List.cons.injEq] at hfl
    rw [hfl.1]
  have hpte : t.pteAt 1 0 = 0x2000#32 ||| pteW ||| pteP := hent.inside 0 (by decide)
  refine ⟨emptyDirectory_directory, by omega, t, ht, hpte, ?_, rfl, ?_⟩
  · rw [hpte]
    decide
  · rw [hext.ref, hl]
    rfl

end NctuCourses.Osdi
