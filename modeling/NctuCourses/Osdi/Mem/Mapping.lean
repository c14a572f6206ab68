import NctuCourses.Osdi.Mem.RefCount

namespace NctuCourses.Osdi

open Lib

/-- What every operation on page tables leaves alone: the pages outside the allocator's pool and
the directory slots that are already in use. -/
structure Frame (G : Space) (s t : Mem) : Prop where
  npages : t.npages = s.npages
  rsv : ∀ p, G.rsv p → ∀ i, t.ram p i = s.ram p i
  row : ∀ d ∈ G.dirs, ∀ i < 1024, present (s.ram d i) = true → t.ram d i = s.ram d i

/-- In addition, only the entry of directory `d` for page number `v` has changed, to `w`, and only
the slot on the way to it may have become a new page table. -/
structure Remap (G : Space) (s t : Mem) (d v : Nat) (w : Word) : Prop extends Frame G s t where
  slots : ∀ d' ∈ G.dirs, ∀ i < 1024, ¬ (d' = d ∧ i = v / 1024) → t.ram d' i = s.ram d' i
  pte : ∀ d' ∈ G.dirs, ∀ v' < 2 ^ 20,
    t.pteAt d' v' = if d' = d ∧ v' = v then w else s.pteAt d' v'

namespace Frame

variable {G : Space} {s t u : Mem}

theorem refl (G : Space) (s : Mem) : Frame G s s :=
  ⟨rfl, fun _ _ _ => rfl, fun _ _ _ _ _ => rfl⟩

theorem trans (h : Frame G s t) (k : Frame G t u) : Frame G s u := by
  refine ⟨k.npages.trans h.npages, fun p hp i => (k.rsv p hp i).trans (h.rsv p hp i), ?_⟩
  intro d hd i hi hpr
  have he := h.row d hd i hi hpr
  exact (k.row d hd i hi (he ▸ hpr)).trans he

end Frame

/-- The page tables that directory `d` has. -/
def tabs (s : Mem) (d : Nat) : Nat :=
  ((Finset.range 1024).filter fun i => present (s.ram d i) = true).card

/-- The slots of directory `d` that hold them. -/
def tableSlots (s : Mem) (d : Nat) : Finset Nat :=
  (Finset.range 1024).filter fun i => present (s.ram d i) = true

theorem tabs_eq (s : Mem) (d : Nat) : tabs s d = (tableSlots s d).card := rfl

theorem mem_tableSlots {s : Mem} {d i : Nat} :
    i ∈ tableSlots s d ↔ i < 1024 ∧ present (s.ram d i) = true := by
  simp [tableSlots]

theorem tabs_le (s : Mem) (d : Nat) : tabs s d ≤ 1024 := by
  simpa [tabs] using Finset.card_filter_le (Finset.range 1024) fun i => present (s.ram d i) = true

theorem pteAt_of_ram_eq {s t : Mem} (h : t.ram = s.ram) (d v : Nat) :
    t.pteAt d v = s.pteAt d v := by
  simp only [Mem.pteAt, h]

/-- Page `p` is free, or it is directory `d` or one of its page tables. -/
def Near (s : Mem) (fl : List Nat) (d p : Nat) : Prop :=
  p ∈ fl ∨ p = d ∨ ∃ i < 1024, present (s.ram d i) = true ∧ pgnum (s.ram d i) = p

theorem tabs_congr {s t : Mem} {d : Nat} (hrow : ∀ i < 1024, t.ram d i = s.ram d i) :
    tabs t d = tabs s d := by
  refine congrArg Finset.card (Finset.filter_congr fun i hi => ?_)
  rw [hrow i (Finset.mem_range.mp hi)]

theorem near_congr {s t : Mem} {fl : List Nat} {d p : Nat}
    (hrow : ∀ i < 1024, t.ram d i = s.ram d i) :
    Near t fl d p ↔ Near s fl d p := by
  refine or_congr_right (or_congr_right (exists_congr fun i => and_congr_right fun hi => ?_))
  rw [hrow i hi]

/-- A data page is not one of those that serve a directory. -/
theorem IsData.not_near {G : Space} {s : Mem} {fl : List Nat} {d p : Nat} (h : IsData G s fl p)
    (hd : d ∈ G.dirs) :
    ¬ Near s fl d p := by
  rintro (hp | rfl | ⟨i, hi, hpr, he⟩)
  · exact h.used hp
  · exact h.notDir hd
  · exact h.notTable ⟨d, hd, i, hi, hpr, he⟩

/-- Nothing is written outside the free pages and the pages of directory `d`. -/
structure Local (d : Nat) (s : Mem) (fl : List Nat) (t : Mem) (fl' : List Nat) : Prop where
  near : ∀ p, Near t fl' d p → Near s fl d p
  ram : ∀ p, ¬ Near s fl d p → ∀ j, t.ram p j = s.ram p j

namespace Local

variable {d : Nat} {s t u : Mem} {fl fl' fl'' : List Nat}

theorem refl (d : Nat) (s : Mem) (fl : List Nat) : Local d s fl s fl :=
  ⟨fun _ h => h, fun _ _ _ => rfl⟩

theorem trans (h : Local d s fl t fl') (k : Local d t fl' u fl'') : Local d s fl u fl'' :=
  ⟨fun p hp => h.near p (k.near p hp),
    fun p hp j => (k.ram p (fun hn => hp (h.near p hn)) j).trans (h.ram p hp j)⟩

theorem of_table {i : Nat} (hi : i < 1024) (hpr : present (s.ram d i) = true)
    (hne : pgnum (s.ram d i) ≠ d) (hram : ∀ p, p ≠ pgnum (s.ram d i) → ∀ j, t.ram p j = s.ram p j) :
    Local d s fl t fl := by
  have hrow : ∀ j, t.ram d j = s.ram d j := hram d hne.symm
  constructor
  · intro p hp
    simp only [Near, hrow] at hp
    exact hp
  · intro p hp j
    exact hram p (fun e => hp (.inr (.inr ⟨i, hi, hpr, e.symm⟩))) j

end Local

/-- The two ways in which `pgdir_walk` with `create` finds a page table for slot `i`. -/
def WalkTo (s : Mem) (fl : List Nat) (d i : Nat) (t : Mem) (fl' : List Nat) : Prop :=
  (present (s.ram d i) = true ∧ t = s ∧ fl' = fl) ∨
    (present (s.ram d i) = false ∧ ∃ p, fl = p :: fl' ∧ t = s.newTable d i p)

namespace WalkTo

variable {G : Space} {I : Set Nat} {x : Nat → Nat} {s t : Mem} {fl fl' : List Nat} {d i : Nat}

theorem inv (hw : WalkTo s fl d i t fl') (h : VmInv G I x s fl) (hd : d ∈ G.dirs) (hi : i < 1024) :
    VmInv G I x t fl' ∧ ∀ d' ∈ G.dirs, ∀ v < 2 ^ 20, t.pteAt d' v = s.pteAt d' v := by
  rcases hw with ⟨_, rfl, rfl⟩ | ⟨habs, p, rfl, rfl⟩
  · exact ⟨h, fun _ _ _ _ => rfl⟩
  · obtain ⟨h1, _, h2⟩ := h.newTable hd hi habs
    exact ⟨h1, h2⟩

private theorem fresh {p : Nat} (h : VmInv G I x s (p :: fl')) :
    p < 2 ^ 20 ∧ (∀ d ∈ G.dirs, d ≠ p) ∧ ∀ q, G.rsv q → q ≠ p := by
  refine ⟨(h.free.lt p (by simp)).trans_le h.np, fun d hd e => ?_, fun q hq e => ?_⟩
  · exact (h.dir d hd).2.2 (by simp [e])
  · exact h.pool p (by simp) (e ▸ hq)

theorem slot_present (hw : WalkTo s fl d i t fl') (h : VmInv G I x s fl) (hd : d ∈ G.dirs) :
    present (t.ram d i) = true := by
  rcases hw with ⟨hp, rfl, rfl⟩ | ⟨_, p, rfl, rfl⟩
  · exact hp
  · obtain ⟨hp, hne, _⟩ := fresh h
    rw [newTable_ram hp (hne d hd), if_pos ⟨rfl, rfl⟩]
    exact present_or_right (by decide)

theorem frame (hw : WalkTo s fl d i t fl') (h : VmInv G I x s fl) (hd : d ∈ G.dirs) :
    Frame G s t := by
  rcases hw with ⟨_, rfl, rfl⟩ | ⟨habs, p, rfl, rfl⟩
  · exact Frame.refl G t
  · obtain ⟨hp, hne, hrs⟩ := fresh h
    refine ⟨rfl, fun q hq j => ?_, fun d' hd' j hj hpr => ?_⟩
    · have hqd : ¬ (q = d ∧ j = i) := fun e => (h.dir d hd).2.1 (e.1 ▸ hq)
      rw [newTable_ram hp (hrs q hq), if_neg hqd]
    · have hs : ¬ (d' = d ∧ j = i) := by
        rintro ⟨rfl, rfl⟩
        simp [habs] at hpr
      rw [newTable_ram hp (hne d' hd'), if_neg hs]

theorem suffix (hw : WalkTo s fl d i t fl') : fl' <:+ fl := by
  rcases hw with ⟨_, rfl, rfl⟩ | ⟨_, p, rfl, rfl⟩
  · exact List.suffix_rfl
  · exact List.suffix_cons p fl'

theorem slots (hw : WalkTo s fl d i t fl') (h : VmInv G I x s fl) {d' j : Nat} (hd' : d' ∈ G.dirs)
    (hne : ¬ (d' = d ∧ j = i)) : t.ram d' j = s.ram d' j := by
  rcases hw with ⟨_, rfl, rfl⟩ | ⟨_, p, rfl, rfl⟩
  · rfl
  · obtain ⟨hp, hdp, _⟩ := fresh h
    rw [newTable_ram hp (hdp d' hd'), if_neg hne]

theorem data (hw : WalkTo s fl d i t fl') (h : VmInv G I x s fl) (hd : d ∈ G.dirs) (hi : i < 1024)
    {q : Nat} (hq : IsData G s fl q) : IsData G t fl' q := by
  rcases hw with ⟨_, rfl, rfl⟩ | ⟨habs, p, rfl, rfl⟩
  · exact hq
  · have hqp : q ≠ p ∧ q ∉ fl' := by simpa using hq.used
    refine ⟨hq.lt, hq.pool, hqp.2, hq.notDir, fun ht => ?_⟩
    exact (((h.newTable hd hi habs).2.1 q).mp ht).elim hqp.1 hq.notTable

theorem refs_eq (hw : WalkTo s fl d i t fl') (h : VmInv G I x s fl) (hd : d ∈ G.dirs)
    (hi : i < 1024) {q : Nat} (hq : IsData G s fl q) : refs G t q = refs G s q := by
  have ht := hw.data h hd hi hq
  rw [refs, refs, mapSites_congr (hw.inv h hd hi).2, tableSites_eq_empty hq.notTable,
    tableSites_eq_empty ht.notTable]

theorem localWrites (hw : WalkTo s fl d i t fl') (h : VmInv G I x s fl) (hd : d ∈ G.dirs) :
    Local d s fl t fl' := by
  rcases hw with ⟨_, rfl, rfl⟩ | ⟨_, p, rfl, rfl⟩
  · exact Local.refl d t fl'
  · obtain ⟨hp, hne, _⟩ := fresh h
    have hrow : ∀ j, (s.newTable d i p).ram d j =
        if j = i then page2pa p ||| (pteP ||| pteU ||| pteW) else s.ram d j := by
      intro j
      rw [newTable_ram hp (hne d hd)]
      simp
    constructor
    · intro q hq
      rcases hq with hq | hq | ⟨j, hj, hpr, he⟩
      · exact .inl (List.mem_cons_of_mem p hq)
      · exact .inr (.inl hq)
      · rw [hrow] at hpr he
        split_ifs at hpr he
        · rw [pgnum_entry p _ hp (by decide)] at he
          exact .inl (by simp [he])
        · exact .inr (.inr ⟨j, hj, hpr, he⟩)
    · intro q hq j
      have hqp : q ≠ p := fun e => hq (.inl (by simp [e]))
      have hqd : ¬ (q = d ∧ j = i) := fun e => hq (.inr (.inl e.1))
      rw [newTable_ram hp hqp, if_neg hqd]

theorem tableSlots_eq (hw : WalkTo s fl d i t fl') (h : VmInv G I x s fl) (hd : d ∈ G.dirs)
    (hi : i < 1024) : tableSlots t d = insert i (tableSlots s d) := by
  ext j
  rw [Finset.mem_insert, mem_tableSlots, mem_tableSlots]
  by_cases hj : j = i
  · subst hj
    simp [hi, hw.slot_present h hd]
  · rw [hw.slots h hd fun e => hj e.2]
    simp [hj]

theorem pages_eq (hw : WalkTo s fl d i t fl') (h : VmInv G I x s fl) (hd : d ∈ G.dirs)
    (hi : i < 1024) : fl.length + tabs s d = fl'.length + tabs t d := by
  have hset := hw.tableSlots_eq h hd hi
  rcases hw with ⟨_, rfl, rfl⟩ | ⟨habs, p, rfl, rfl⟩
  · rfl
  · have hn : i ∉ tableSlots s d := by simp [mem_tableSlots, habs]
    rw [tabs_eq (s.newTable d i p), hset, Finset.card_insert_of_notMem hn, tabs_eq,
      List.length_cons]
    omega

end WalkTo

namespace VmInv

variable {G : Space} {I : Set Nat} {x : Nat → Nat} {s : Mem} {fl : List Nat} {d : Nat} {va : Word}

/-- `pgdir_walk` with `create` fails only for want of a free page, and then changes nothing. -/
theorem pgdirWalk_create (h : VmInv G I x s fl) (va : Word) (hd : d ∈ G.dirs) :
    (fl = [] ∧ present (s.ram d (pdx va)) = false ∧
        pgdirWalk (kva d) va true s = some (none, s)) ∨
      ∃ t fl', WalkTo s fl d (pdx va) t fl' ∧ pgdirWalk (kva d) va true s =
        some (some (slot (kva (pgnum (t.ram d (pdx va)))) (ptx va)), t) := by
  have hlt := h.dir_lt hd
  cases hp : present (s.ram d (pdx va)) with
  | true =>
    exact .inr ⟨s, fl, .inl ⟨hp, rfl, rfl⟩,
      pgdirWalk_present hlt hp (h.tbl_lt hd (pdx_lt va) hp)⟩
  | false =>
    cases fl with
    | nil => exact .inl ⟨rfl, rfl, pgdirWalk_create_nil hlt hp h.free⟩
    | cons p fl =>
      have hp20 : p < 2 ^ 20 := (h.free.lt p (by simp)).trans_le h.np
      have hne : d ≠ p := fun e => (h.dir d hd).2.2 (by simp [e])
      refine .inr ⟨s.newTable d (pdx va) p, fl, .inr ⟨hp, p, rfl, rfl⟩, ?_⟩
      rw [newTable_ram hp20 hne, if_pos ⟨rfl, rfl⟩, pgnum_entry p _ hp20 (by decide)]
      exact pgdirWalk_create_cons hlt hp h.free

theorem pageRemove_absent (h : VmInv G I x s fl) (hd : d ∈ G.dirs)
    (hp : present (s.pteAt d (pgnum va)) = false) : pageRemove (kva d) va s = some s := by
  simp [pageRemove, pageLookup_none (h.dir_lt hd) hp fun ht => h.tbl_lt hd (pdx_lt va) ht]

theorem pde_present {s : Mem} {d : Nat} {va : Word}
    (hp : present (s.pteAt d (pgnum va)) = true) : present (s.ram d (pdx va)) = true := by
  by_contra hn
  rw [pteAt_absent (by simpa using hn)] at hp
  simp at hp

/-- `page_remove` first drops the reference and then clears the entry; the two commute. -/
theorem pageDecref_setRam (q p j : Nat) (w : Word) (s : Mem) :
    pageDecref q (s.setRam p j w) = (pageDecref q s).map fun t => t.setRam p j w := by
  have hr : (s.setRam p j w).pages = s.pages := rfl
  simp only [pageDecref, pageFree, hr]
  split_ifs <;> first | rfl | simp_all [Mem.setRef, Mem.setRam]

theorem pageRemove_present (h : VmInv G I x s fl) (hd : d ∈ G.dirs)
    (hc : G.counted (pgnum va) = true) (hp : present (s.pteAt d (pgnum va)) = true)
    (hb : refs G s (pgnum (s.pteAt d (pgnum va))) + x (pgnum (s.pteAt d (pgnum va))) ≤ 65536) :
    ∃ t, pageRemove (kva d) va s = some t ∧ t.npages = s.npages ∧
      t.ram = (s.setRam (pgnum (s.ram d (pdx va))) (ptx va) 0#32).ram ∧
      VmInv G I x t (if refs G s (pgnum (s.pteAt d (pgnum va))) +
        x (pgnum (s.pteAt d (pgnum va))) = 1 then pgnum (s.pteAt d (pgnum va)) :: fl else fl) := by
  have hpde := pde_present hp
  have hv : 1024 * pdx va + ptx va = pgnum va := (pgnum_eq_pdx_ptx va).symm
  have htl := h.tbl_lt hd (pdx_lt va) hpde
  have hdat := h.mapped d hd _ (pgnum_lt va) hc hp
  have h1 := h.clearEntry hd (pdx_lt va) (ptx_lt va) hpde (hv ▸ hp) (hv ▸ hc)
  rw [hv] at h1
  obtain ⟨hrow, hpte⟩ := h.pteAt_setRam hd (pdx_lt va) (ptx_lt va) hpde 0#32
  rw [hv] at hpte
  -- the cleared entry was one of the sites of its page
  have hrefs : refs G s (pgnum (s.pteAt d (pgnum va))) =
      refs G (s.setRam (pgnum (s.ram d (pdx va))) (ptx va) 0#32)
        (pgnum (s.pteAt d (pgnum va))) + 1 := by
    have hm : (d, pgnum va) ∈ mapSites G s (pgnum (s.pteAt d (pgnum va))) :=
      mem_mapSites.mpr ⟨⟨hd, pgnum_lt va⟩, hc, hp, rfl⟩
    have hpos := Finset.card_pos.mpr ⟨_, hm⟩
    rw [refs, refs, tableSites_congr hrow, mapSites_update hd (pgnum_lt va) hpte]
    simp only [present_zero, Bool.false_eq_true, false_and, and_false, if_false]
    rw [Finset.card_erase_of_mem hm]
    omega
  obtain ⟨t, ht, hn, hram, hinv⟩ := h1.decref rfl (by omega)
  refine ⟨t, ?_, hn, hram, ?_⟩
  · rw [pageDecref_setRam] at ht
    simp only [pageRemove, pageLookup_some (h.dir_lt hd) hp htl hdat.lt, Option.bind_eq_bind,
      Option.bind_some]
    rw [← ht]
    congr 1
    funext u
    exact store_slot u _ _ _ (htl.trans_le h.np) (ptx_lt va)
  · rw [hrefs]
    convert hinv using 2
    omega

theorem remap_of_ram (h : VmInv G I x s fl) (hd : d ∈ G.dirs)
    (hpde : present (s.ram d (pdx va)) = true) {t : Mem} {w : Word} (hn : t.npages = s.npages)
    (hram : t.ram = (s.setRam (pgnum (s.ram d (pdx va))) (ptx va) w).ram) :
    Remap G s t d (pgnum va) w := by
  obtain ⟨hrow, hpte⟩ := h.pteAt_setRam hd (pdx_lt va) (ptx_lt va) hpde w
  rw [← pgnum_eq_pdx_ptx va] at hpte
  refine ⟨⟨hn, fun p hp i => ?_, fun d' hd' i hi _ => ?_⟩, fun d' hd' i hi _ => ?_,
    fun d' hd' v' hv' => ?_⟩
  · have hne : p ≠ pgnum (s.ram d (pdx va)) :=
      fun e => (h.tbl d hd _ (pdx_lt va) hpde).2.1 (e ▸ hp)
    rw [hram]
    simp [Mem.setRam, hne]
  · rw [hram]
    exact hrow d' hd' i hi
  · rw [hram]
    exact hrow d' hd' i hi
  · rw [pteAt_of_ram_eq hram]
    exact hpte d' hd' v' hv'

/-- The entry that `page_insert` writes. -/
theorem entry_assoc (pp : Nat) (perm : Word) :
    page2pa pp ||| pteP ||| perm = page2pa pp ||| (pteP ||| perm) := BitVec.or_assoc ..

theorem pteP_or_lt {perm : Word} (hperm : perm.toNat < 4096) : (pteP ||| perm).toNat < 4096 := by
  rw [BitVec.toNat_or]
  exact Nat.or_lt_two_pow (n := 12) (by decide) hperm

/-- `page_insert` once the page table is there. The reference taken first keeps the page alive when
the old entry already maps it. -/
private theorem pageInsert_tail (h : VmInv G I x s fl) (hd : d ∈ G.dirs)
    (hc : G.counted (pgnum va) = true) {pp : Nat} (hq : IsData G s fl pp) {perm : Word}
    (hperm : perm.toNat < 4096) (hpde : present (s.ram d (pdx va)) = true)
    (hb : present (s.pteAt d (pgnum va)) = true →
      refs G s (pgnum (s.pteAt d (pgnum va))) + x (pgnum (s.pteAt d (pgnum va))) < 65536) :
    ∃ u t fl', (if present (load (s.setRef pp ((s.pages pp).ppRef + 1))
          (slot (kva (pgnum (s.ram d (pdx va)))) (ptx va)))
        then pageRemove (kva d) va (s.setRef pp ((s.pages pp).ppRef + 1))
        else some (s.setRef pp ((s.pages pp).ppRef + 1))) = some u ∧
      store (slot (kva (pgnum (s.ram d (pdx va)))) (ptx va)) (page2pa pp ||| pteP ||| perm) u = t ∧
      VmInv G (I \ {pp}) x t fl' ∧ fl.length ≤ fl'.length ∧
      (present (s.pteAt d (pgnum va)) = false → fl' = fl) ∧ tableSlots t d = tableSlots s d ∧
      (∀ p, p ≠ pgnum (s.ram d (pdx va)) → ∀ j, t.ram p j = s.ram p j) ∧
      Remap G s t d (pgnum va) (page2pa pp ||| pteP ||| perm) := by
  have h1 := h.incref hq
  have hq20 : pp < 2 ^ 20 := hq.lt.trans_le h.np
  have hld : load (s.setRef pp ((s.pages pp).ppRef + 1))
      (slot (kva (pgnum (s.ram d (pdx va)))) (ptx va)) = s.pteAt d (pgnum va) :=
    load_pte (s := s.setRef pp ((s.pages pp).ppRef + 1)) hpde
  -- after the optional removal the entry is absent
  have hmid : ∃ u fl', (if present (s.pteAt d (pgnum va))
        then pageRemove (kva d) va (s.setRef pp ((s.pages pp).ppRef + 1))
        else some (s.setRef pp ((s.pages pp).ppRef + 1))) = some u ∧
      VmInv G (I \ {pp}) (fun p => if p = pp then x p + 1 else x p) u fl' ∧
      fl.length ≤ fl'.length ∧ (present (s.pteAt d (pgnum va)) = false → fl' = fl) ∧
      u.npages = s.npages ∧ present (u.pteAt d (pgnum va)) = false ∧ (u.ram = s.ram ∨
        u.ram = (s.setRam (pgnum (s.ram d (pdx va))) (ptx va) 0#32).ram) := by
    cases hp : present (s.pteAt d (pgnum va)) with
    | false => exact ⟨_, fl, rfl, h1, le_rfl, fun _ => rfl, rfl, hp, .inl rfl⟩
    | true =>
      have hb1 : refs G s (pgnum (s.pteAt d (pgnum va))) +
          (if pgnum (s.pteAt d (pgnum va)) = pp then x (pgnum (s.pteAt d (pgnum va))) + 1
            else x (pgnum (s.pteAt d (pgnum va)))) ≤ 65536 := by
        have := hb hp
        split_ifs <;> omega
      obtain ⟨u, hu, hn, hram, hinv⟩ := h1.pageRemove_present hd hc hp hb1
      refine ⟨u, _, hu, hinv, ?_, by simp, hn, ?_, .inr hram⟩
      · split_ifs <;> simp
      · have hr := (h1.remap_of_ram hd hpde hn hram).pte d hd _ (pgnum_lt va)
        rw [hr]
        simp
  obtain ⟨u, fl', hu, hinv, hlen, hsame, hn, habs, hram⟩ := hmid
  have htab : pgnum (s.ram d (pdx va)) ∉ G.dirs := (h.tbl d hd _ (pdx_lt va) hpde).2.2.2
  have hrow : ∀ i, u.ram d i = s.ram d i := by
    intro i
    have hne : d ≠ pgnum (s.ram d (pdx va)) := fun e => htab (e ▸ hd)
    rcases hram with hram | hram <;> rw [hram]
    simp [Mem.setRam, hne]
  have hpde' : present (u.ram d (pdx va)) = true := by rw [hrow, hpde]
  have hw : present (page2pa pp ||| pteP ||| perm) = true :=
    present_or_left (present_or_right present_pteP)
  have hwp : pgnum (page2pa pp ||| pteP ||| perm) = pp := by
    rw [entry_assoc]
    exact pgnum_entry pp _ hq20 (pteP_or_lt hperm)
  have hv : 1024 * pdx va + ptx va = pgnum va := (pgnum_eq_pdx_ptx va).symm
  have hx : (fun p => if p = pp then x p + 1 else x p) =
      fun p => if p = pgnum (page2pa pp ||| pteP ||| perm) then x p + 1 else x p := by rw [hwp]
  have h3 := hinv.setEntry hd (pdx_lt va) (ptx_lt va) hpde' (hv ▸ habs) (hv ▸ hc) hw hx
  rw [hrow] at h3
  have htl := (h.tbl_lt hd (pdx_lt va) hpde).trans_le h.np
  refine ⟨u, _, fl', hld ▸ hu, store_slot u _ _ _ htl (ptx_lt va), h3, hlen, hsame, ?_, ?_, ?_⟩
  · have hne : ∀ i, (u.setRam (pgnum (s.ram d (pdx va))) (ptx va)
        (page2pa pp ||| pteP ||| perm)).ram d i = s.ram d i := by
      intro i
      have hne : d ≠ pgnum (s.ram d (pdx va)) := fun e => htab (e ▸ hd)
      rw [← hrow i]
      simp [Mem.setRam, hne]
    simp only [tableSlots, hne]
  · intro p hp j
    rcases hram with hram | hram
    · simp [Mem.setRam, hram, hp]
    · simp [Mem.setRam, hram, hp]
  · refine h.remap_of_ram hd hpde hn ?_
    rcases hram with hram | hram
    · simp only [Mem.setRam, hram]
    · funext q j
      simp only [Mem.setRam, hram]
      split_ifs <;> rfl

/-- `page_insert` either fails for want of a page table and changes nothing, or it maps the page
and changes no other entry. -/
theorem pageInsert_spec (h : VmInv G I x s fl) (va : Word) (hd : d ∈ G.dirs)
    (hc : G.counted (pgnum va) = true) {pp : Nat} (hq : IsData G s fl pp) {perm : Word}
    (hperm : perm.toNat < 4096) (hb : ∀ p, refs G s p + x p < 65536) :
    (fl = [] ∧ present (s.ram d (pdx va)) = false ∧
        pageInsert (kva d) pp va perm s = some (-eNoMem, s)) ∨
      ∃ t fl', pageInsert (kva d) pp va perm s = some (0, t) ∧ VmInv G (I \ {pp}) x t fl' ∧
        fl.length + tabs s d ≤ fl'.length + tabs t d ∧
        (present (s.pteAt d (pgnum va)) = false → fl' <:+ fl ∧
          fl.length + tabs s d = fl'.length + tabs t d ∧ Local d s fl t fl') ∧
        tableSlots t d = insert (pdx va) (tableSlots s d) ∧
        Remap G s t d (pgnum va) (page2pa pp ||| pteP ||| perm) := by
  rcases h.pgdirWalk_create va hd with ⟨hnil, habs, hwalk⟩ | ⟨t, fl₁, hw, hwalk⟩
  · refine .inl ⟨hnil, habs, ?_⟩
    simp [pageInsert, hwalk]
  · obtain ⟨h1, hpte⟩ := hw.inv h hd (pdx_lt va)
    have hle := hw.pages_eq h hd (pdx_lt va)
    have hdat := hw.data h hd (pdx_lt va) hq
    have hb1 : present (t.pteAt d (pgnum va)) = true →
        refs G t (pgnum (t.pteAt d (pgnum va))) + x (pgnum (t.pteAt d (pgnum va))) < 65536 := by
      rw [hpte d hd _ (pgnum_lt va)]
      intro hp
      rw [hw.refs_eq h hd (pdx_lt va) (h.mapped d hd _ (pgnum_lt va) hc hp)]
      exact hb _
    obtain ⟨u, v, fl', hu, hv, hinv, hlen, hsame, hslots, hram, hmap⟩ :=
      h1.pageInsert_tail hd hc hdat hperm (hw.slot_present h hd) hb1
    have hpde := hw.slot_present h hd
    have hne : pgnum (t.ram d (pdx va)) ≠ d := fun e =>
      (h1.tbl d hd _ (pdx_lt va) hpde).2.2.2 (by rw [e]; exact hd)
    have htabs : tabs v d = tabs t d := congrArg Finset.card hslots
    refine .inr ⟨v, fl', ?_, hinv, by omega, ?_, hslots.trans (hw.tableSlots_eq h hd (pdx_lt va)),
      (hw.frame h hd).trans hmap.toFrame, ?_, ?_⟩
    · simp only [pageInsert, hwalk, Option.bind_eq_bind, Option.bind_some]
      split_ifs at hu ⊢ with hpr
      · rw [hu, Option.bind_some, hv]
      · rw [Option.some.inj hu, hv]
    · intro hp
      rw [hsame (by rw [hpte d hd _ (pgnum_lt va), hp])]
      exact ⟨hw.suffix, by omega, (hw.localWrites h hd).trans
        (Local.of_table (pdx_lt va) hpde hne hram)⟩
    · intro d' hd' i hi hne
      rw [pgnum_div] at hne
      rw [hmap.slots d' hd' i hi (by rwa [pgnum_div])]
      exact hw.slots h hd' hne
    · intro d' hd' v' hv'
      rw [hmap.pte d' hd' v' hv', hpte d' hd' v' hv']

end VmInv

end NctuCourses.Osdi
