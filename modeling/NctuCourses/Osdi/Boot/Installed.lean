import NctuCourses.Osdi.Boot.KernPgdir

namespace NctuCourses.Osdi

theorem slot_zero (w : Word) : slot w 0 = w := BitVec.add_zero w

namespace Describes

variable {k : Nat} {h : Option Nat} {X : List Nat} {a : KernState} {s : Mem} {va : Word}
  {v n p : Nat}

theorem load_data (hd : Describes k h X a s) (hn : s.npages = n) (hp : a.Spare k X n p) :
    load s (kva p) = a.data p 0 := by
  have hnp := hd.np
  have hlt := hp.lt
  rw [← slot_zero (kva p), load_slot s p 0 (by omega) (by decide),
    hd.data p hp.ne hp.notTable 0 (by decide)]

theorem loadVirtual (hd : Describes k h X a s) (hn : s.npages = n) (hs : pdx va ≠ selfSlot)
    (hv : pgnum va = v) (hva : va % pgsize = 0#32) (hpr : present (a.entry v) = true)
    (hpg : pgnum (a.entry v) = p) (hp : a.Spare k X n p) :
    loadVirtual (kva k) va s = some (a.data p 0) := by
  have hk : kaddr s.npages (page2pa p) = some (kva p) := hn ▸ page2kva_of_lt hp.lt
  rw [Osdi.loadVirtual, bind_eq (hd.va2pa_present hs hv hpr hpg), bind_eq hk,
    hva, BitVec.add_zero, hd.load_data hn hp]

theorem storeVirtual (hd : Describes k h X a s) (hn : s.npages = n) (hs : pdx va ≠ selfSlot)
    (hv : pgnum va = v) (hva : va % pgsize = 0#32) (hpr : present (a.entry v) = true)
    (hpg : pgnum (a.entry v) = p) (hp : a.Spare k X n p) (w : Word) :
    ∃ t, storeVirtual (kva k) va w s = some t ∧ t.npages = n ∧
      Describes k h X (a.setData p fun j => if j = 0 then w else s.ram p j) t := by
  have hnp := hd.np
  have hlt := hp.lt
  have hk : kaddr s.npages (page2pa p) = some (kva p) := hn ▸ page2kva_of_lt hlt
  refine ⟨store (kva p) w s, ?_, hn, ?_⟩
  · rw [Osdi.storeVirtual, bind_eq (hd.va2pa_present hs hv hpr hpg), bind_eq hk,
      hva, BitVec.add_zero]
  · have hd' := hd.setData hp.ne hp.notTable fun j => if j = 0 then w else s.ram p j
    have hstore : store (kva p) w s =
        { s with ram := fun q j => if q = p then if j = 0 then w else s.ram p j
          else s.ram q j } := by
      rw [← slot_zero (kva p), store_slot s p 0 w (by omega) (by decide), Mem.setRam]
      congr 1
      funext q j
      by_cases hq : q = p
      · simp [hq]
      · simp [hq]
    rw [hstore]
    exact hd'

/-- The part of `check_page_installed_pgdir` after the pages have been filled. -/
theorem swapMapped {p1 p2 t0 : Nat} {w1 w2 : Word} (w : Word) (hd : Describes k h X a s)
    (hn : s.npages = n) (ht : a.tables 0 = some t0) (hent : a.entry 256 = 0#32) (h12 : p1 ≠ p2)
    (hp1 : a.Spare k X n p1) (hp2 : a.Spare k X n p2) (hr1 : a.ref p1 = 0) (hr2 : a.ref p2 = 0)
    (hw1 : a.data p1 0 = w1) (hw2 : a.data p2 0 = w2) :
    ∃ s₁ s₂ s₃ s₄ a', pageInsert (kva k) p1 extphysmem pteW s = some (0, s₁) ∧
    (s₁.pages p1).ppRef = 1 ∧
      Osdi.loadVirtual (kva k) extphysmem s₁ = some w1 ∧
      pageInsert (kva k) p2 extphysmem pteW s₁ = some (0, s₂) ∧
      Osdi.loadVirtual (kva k) extphysmem s₂ = some w2 ∧ (s₂.pages p2).ppRef = 1 ∧
      (s₂.pages p1).ppRef = 0 ∧
      Osdi.storeVirtual (kva k) extphysmem w s₂ = some s₃ ∧ load s₃ (kva p2) = w ∧
      Osdi.pageRemove (kva k) extphysmem s₃ = some s₄ ∧ (s₄.pages p2).ppRef = 0 ∧ s₄.npages = n ∧
      Describes k h X a' s₄ ∧ a'.tables = a.tables ∧ a'.entry = a.entry ∧
      a'.free = p2 :: p1 :: a.free := by
  have hnp := hd.np
  have hlt1 := hp1.lt
  have hlt2 := hp2.lt
  have hext : pdx extphysmem = 0 := by decide
  have hself : pdx extphysmem ≠ selfSlot := by decide
  have hpg : pgnum extphysmem = 256 := by decide
  have hmod : extphysmem % pgsize = 0#32 := by decide
  have hpg1 : pgnum (mapped p1 pteW) = p1 := pgnum_mapped (by omega) (by decide)
  have hpg2 : pgnum (mapped p2 pteW) = p2 := pgnum_mapped (by omega) (by decide)
  have htab : a.tables (pdx extphysmem) = some t0 := by rw [hext, ht]
  subst hn
  obtain ⟨s₁, hs₁, hn₁, hd1⟩ := hd.pageInsert_some extphysmem pteW htab hp1 (by simp [hpg, hent])
  rw [hpg, KernState.insert_fresh (by simp [hent]), hr1, zero_add] at hd1
  have hp1' : ((a.setRef p1 1).setEntry 256 (mapped p1 pteW)).Spare k X s.npages p1 :=
    hp1.of_eq rfl rfl
  have hp2' : ((a.setRef p1 1).setEntry 256 (mapped p1 pteW)).Spare k X s.npages p2 :=
    hp2.of_eq rfl rfl
  have href1 : (s₁.pages p1).ppRef = 1 := by simp [hd1.ref]
  have hload1 := hd1.loadVirtual hn₁ hself hpg hmod (by simp) (by simpa using hpg1) hp1'
  obtain ⟨s₂, hs₂, hn₂, hd2⟩ := hd1.pageInsert_some extphysmem pteW htab (hn₁ ▸ hp2') (fun _ => by
    rw [hpg, KernState.setEntry_entry, Function.update_self, hpg1, hn₁]
    exact hp1')
  rw [hpg, KernState.insert_over (by simp) (by simpa using hpg1) h12 (by simp)] at hd2
  have hp2'' := (hp2'.of_eq (b := ((a.setRef p1 1).setEntry 256 (mapped p1 pteW)).setRef p2 1)
    rfl rfl).give h12.symm
  have href2 : (s₂.pages p2).ppRef = 1 := by simp [hd2.ref, h12.symm, hr2]
  have href3 : (s₂.pages p1).ppRef = 0 := by simp [hd2.ref]
  have hload2 := hd2.loadVirtual (n := s.npages) (p := p2) (hn₂.trans hn₁) hself hpg hmod
    (by simp) (by simpa using hpg2) (hp2''.of_eq rfl rfl)
  obtain ⟨s₃, hs₃, hn₃, hd3⟩ :=
    hd2.storeVirtual (n := s.npages) (p := p2) (hn₂.trans hn₁) hself hpg hmod (by simp)
    (by simpa using hpg2) (hp2''.of_eq rfl rfl) w
  have hload3 := hd3.load_data hn₃ (hp2''.of_eq rfl rfl)
  obtain ⟨s₄, hs₄, hn₄, hd4⟩ :=
    hd3.pageRemove_last hn₃ hext hpg ht (hp2''.of_eq rfl rfl) (by simp) (by simpa using hpg2)
    (by simp [h12.symm, hr2])
  have href4 : (s₄.pages p2).ppRef = 0 := by simp [hd4.ref]
  refine ⟨s₁, s₂, s₃, s₄, _, hs₁, href1, hload1.trans (congrArg some hw1), hs₂,
    hload2.trans (congrArg some hw2), href2, href3, hs₃, ?_, hs₄, href4, hn₄, hd4, rfl, ?_, rfl⟩
  · rw [hload3]
    simp
  · change Function.update (Function.update (Function.update a.entry 256 _) 256 _)
      256 0#32 = a.entry
    rw [Function.update_idem, Function.update_idem, Function.update_eq_self_iff, hent]

/-- `check_page_installed_pgdir` returns, with the three pages of the test
at the head of the free list. -/
theorem checkPageInstalledPgdir {p0 p1 p2 t0 : Nat} {l : List Nat} (hd : Describes k none [] a s)
    (hf : a.free = p0 :: p1 :: p2 :: l) (ht : a.tables 0 = some t0) (hent : a.entry 256 = 0#32) :
    ∃ t a', checkPageInstalledPgdir (kva k) s = some t ∧ t.npages = s.npages ∧
    Describes k none [] a' t ∧
      a'.tables = a.tables ∧ a'.entry = a.entry ∧ a'.free = p2 :: p1 :: p0 :: l := by
  have hnp := hd.np
  have hnd := hd.nodup_free
  rw [hf] at hnd
  simp only [List.nodup_cons, List.mem_cons, not_or] at hnd
  obtain ⟨⟨h01, h02, h0⟩, ⟨h12, h1⟩, h2, _⟩ := hnd
  have hm0 : p0 ∈ a.free := by simp [hf]
  have hm1 : p1 ∈ a.free := by simp [hf]
  have hm2 : p2 ∈ a.free := by simp [hf]
  have href : ∀ p ∈ a.free, a.ref p = 0 := by
    intro p hp
    rw [← hd.ref p]
    exact hd.free.ref p (.inl hp)
  have hlt1 := hd.free.lt p1 (.inl hm1)
  have hlt2 := hd.free.lt p2 (.inl hm2)
  obtain ⟨hal0, hd0⟩ := hd.mustAlloc_plain hf
  obtain ⟨hal1, hd1⟩ := hd0.mustAlloc_plain rfl
  obtain ⟨hal2, hd2⟩ := hd1.mustAlloc_plain rfl
  obtain ⟨hfree, hd3⟩ := hd2.free_page (hd.spare_of_free hm0 h0) (href p0 hm0)
  have hs1 : ({ a with free := p0 :: l } : KernState).Spare k [] s.npages p1 :=
    hd.spare_of_free hm1 (by simp [h1, Ne.symm h01])
  have hs2 : ({ a with free := p0 :: l } : KernState).Spare k [] s.npages p2 :=
    hd.spare_of_free hm2 (by simp [h2, Ne.symm h02])
  have hd4 := hd3.memsetWords (p := p1) (by omega) hs1.ne hs1.notTable 1024 0x01010101#32
  have hd5 := hd4.memsetWords (p := p2) (by omega) hs2.ne hs2.notTable 1024 0x02020202#32
  obtain ⟨s₁, s₂, s₃, s₄, a', e1, e2, e3, e4, e5, e6, e7, e8, e9, e10, e11, hn,
      hd6, htab, hentry, hfr⟩ :=
    hd5.swapMapped (n := s.npages) 0x03030303#32 rfl ht hent h12 (hs1.of_eq rfl rfl)
      (hs2.of_eq rfl rfl) (href p1 hm1)
      (href p2 hm2) (show _ = 0x01010101#32 by simp [h12]) (show _ = 0x02020202#32 by simp)
  have hk : ∀ {p : Nat}, p < s.npages →
      page2kva ((((s.take 0#32 p0).take 0#32 p1).take 0#32 p2).give p0).npages p = some (kva p) :=
      page2kva_of_lt
  refine ⟨s₄, a', ?_, hn, hd6, htab, hentry, hfr⟩
  rw [Osdi.checkPageInstalledPgdir, bind_eq hal0]
  dsimp only
  rw [bind_eq hal1]
  dsimp only
  rw [bind_eq hal2]
  dsimp only
  rw [bind_eq hfree, bind_eq (hk hlt1), bind_eq (hk hlt2), bind_eq e1]
  dsimp only
  rw [assert_bind e2, assert_bind e3, bind_eq e4]
  dsimp only
  rw [assert_bind e5, assert_bind e6, assert_bind e7, bind_eq e8, assert_bind e9,
    bind_eq e10, assert_bind e11]

end Describes

end NctuCourses.Osdi
