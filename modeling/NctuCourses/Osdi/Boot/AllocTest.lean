import NctuCourses.Osdi.Boot.FreeOrder

namespace NctuCourses.Osdi

namespace KernState

variable {a b : KernState} {k : Nat} {X : List Nat} {n p q : Nat}

theorem Spare.of_eq (hp : a.Spare k X n p) (ht : b.tables = a.tables) (hf : b.free = a.free) :
    b.Spare k X n p :=
  ⟨hp.lt, hp.ne, hf ▸ hp.used, hp.apart, ht ▸ hp.notTable⟩

theorem Spare.give (hp : a.Spare k X n p) (hne : p ≠ q) : (a.give q).Spare k X n p :=
  ⟨hp.lt, hp.ne, by simp [hne, hp.used], hp.apart, hp.notTable⟩

/-- Three pages that a self-test has taken. -/
structure Trio (a : KernState) (k : Nat) (X : List Nat) (n p0 p1 p2 : Nat) : Prop where
  spare0 : a.Spare k X n p0
  spare1 : a.Spare k X n p1
  spare2 : a.Spare k X n p2
  ne : p0 ≠ p1 ∧ p0 ≠ p2 ∧ p1 ≠ p2
  ref0 : a.ref p0 = 0
  ref1 : a.ref p1 = 0
  ref2 : a.ref p2 = 0

theorem Trio.of_eq {p0 p1 p2 : Nat} (h : a.Trio k X n p0 p1 p2) (ht : b.tables = a.tables)
    (hf : b.free = a.free) (hr : b.ref = a.ref) : b.Trio k X n p0 p1 p2 :=
  ⟨h.spare0.of_eq ht hf, h.spare1.of_eq ht hf, h.spare2.of_eq ht hf, h.ne, hr ▸ h.ref0,
    hr ▸ h.ref1, hr ▸ h.ref2⟩

end KernState

namespace Describes

variable {k : Nat} {h : Option Nat} {X : List Nat} {a : KernState} {s : Mem} {p p0 p1 p2 : Nat}
  {l : List Nat}

theorem steal (hd : Describes k none [] a s) :
    Describes k s.pageFreeList a.free { a with free := [] } { s with pageFreeList := none } where
  np := hd.np
  kern := ⟨hd.kern.1, by simp, hd.kern.2.1⟩
  free := hd.free.steal
  ref := hd.ref
  self := hd.self
  row := hd.row
  range := hd.range
  table i t ht := ⟨(hd.table i t ht).1, (hd.table i t ht).2.1, by simp, (hd.table i t ht).2.2.1⟩
  inj := hd.inj
  entry := hd.entry
  absent := hd.absent
  data := hd.data

theorem giveBack (hd : Describes k h X a s) (hf : a.free = []) :
    Describes k none [] { a with free := X } { s with pageFreeList := h } where
  np := hd.np
  kern := ⟨hd.kern.1, hd.kern.2.2, by simp⟩
  free := by
    have hfree := hd.free
    rw [hf] at hfree
    exact hfree.giveBack
  ref := hd.ref
  self := hd.self
  row := hd.row
  range := hd.range
  table i t ht := ⟨(hd.table i t ht).1, (hd.table i t ht).2.1, (hd.table i t ht).2.2.2, by simp⟩
  inj := hd.inj
  entry := hd.entry
  absent := hd.absent
  data := hd.data

theorem mustAlloc (hd : Describes k h X a s) (hf : a.free = p :: l) (f : Word) :
    mustAlloc f s = some (p, s.take f p) ∧ Describes k h X (a.take f p) (s.take f p) := by
  obtain ⟨hal, h1⟩ := hd.alloc hf f
  refine ⟨?_, h1⟩
  rw [Osdi.mustAlloc, bind_eq hal]
  rfl

/-- A page allocated without `ALLOC_ZERO` keeps its contents. -/
theorem mustAlloc_plain (hd : Describes k h X a s) (hf : a.free = p :: l) :
    Osdi.mustAlloc 0#32 s = some (p, s.take 0#32 p) ∧ Describes k h X { a with free := l }
      (s.take 0#32 p) := by
  obtain ⟨hal, h1⟩ := hd.mustAlloc hf 0#32
  have hz : (0#32 &&& allocZero != 0#32) = false := by decide
  have he : a.take 0#32 p = { a with free := l } := by
    simp only [KernState.take, hz, hf, List.tail_cons, Bool.false_eq_true, if_false]
  rw [he] at h1
  exact ⟨hal, h1⟩

theorem noneLeft (hd : Describes k h X a s) (hf : a.free = []) : noneLeft s = some s := by
  rw [Osdi.noneLeft, bind_eq (hd.alloc_none hf 0#32)]
  exact assert_bind rfl _

theorem nodup_free (hd : Describes k h X a s) : a.free.Nodup := hd.free.linked.nodup

theorem spare_of_free (hd : Describes k h X a s) (hp : p ∈ a.free) (hl : p ∉ l) :
    ({ a with free := l } : KernState).Spare k X s.npages p where
  lt := hd.free.lt p (.inl hp)
  ne := fun he => hd.kern.2.1 (he ▸ hp)
  used := hl
  apart := hd.free.disjoint p hp
  notTable i hi := (hd.table i p hi).2.2.1 hp

theorem allocThree (hd : Describes k h X a s) (hf : a.free = p0 :: p1 :: p2 :: l) :
    ∃ t, allocThree s = some (p0, p1, p2, t) ∧ t.npages = s.npages ∧
    Describes k h X { a with free := l } t ∧
      ({ a with free := l } : KernState).Trio k X s.npages p0 p1 p2 := by
  have hnd := hd.nodup_free
  rw [hf] at hnd
  simp only [List.nodup_cons, List.mem_cons, not_or] at hnd
  obtain ⟨⟨h01, h02, h0⟩, ⟨h12, h1⟩, h2, _⟩ := hnd
  obtain ⟨hal0, hd0⟩ := hd.mustAlloc_plain hf
  obtain ⟨hal1, hd1⟩ := hd0.mustAlloc_plain rfl
  obtain ⟨hal2, hd2⟩ := hd1.mustAlloc_plain rfl
  have href : ∀ p ∈ a.free, a.ref p = 0 := by
    intro p hp
    rw [← hd.ref p]
    exact hd.free.ref p (.inl hp)
  have hm0 : p0 ∈ a.free := by simp [hf]
  have hm1 : p1 ∈ a.free := by simp [hf]
  have hm2 : p2 ∈ a.free := by simp [hf]
  refine ⟨_, ?_, ?_, hd2, hd.spare_of_free hm0 h0, hd.spare_of_free hm1 h1, hd.spare_of_free hm2 h2,
    ⟨h01, h02, h12⟩, href p0 hm0, href p1 hm1, href p2 hm2⟩
  · rw [Osdi.allocThree, bind_eq hal0]
    dsimp only
    rw [bind_eq hal1]
    dsimp only
    rw [bind_eq hal2]
    dsimp only
    rw [assert_bind (Ne.symm h01), assert_bind ⟨Ne.symm h12, Ne.symm h02⟩]
  · rfl

theorem freeThree (hd : Describes k h X a s) (ht : a.Trio k X s.npages p0 p1 p2) :
    ∃ t, freeThree p0 p1 p2 s = some t ∧ t.npages = s.npages ∧
      Describes k h X { a with free := p2 :: p1 :: p0 :: a.free } t := by
  obtain ⟨h01, h02, h12⟩ := ht.ne
  obtain ⟨hf0, hd0⟩ := hd.free_page ht.spare0 ht.ref0
  obtain ⟨hf1, hd1⟩ := hd0.free_page (ht.spare1.give h01.symm) ht.ref1
  obtain ⟨hf2, hd2⟩ := hd1.free_page ((ht.spare2.give h02.symm).give h12.symm) ht.ref2
  refine ⟨((s.give p0).give p1).give p2, ?_, rfl, hd2⟩
  rw [Osdi.freeThree, bind_eq hf0, bind_eq hf1]
  exact hf2

theorem takeThree (hd : Describes k none [] a s) (hf : a.free = p0 :: p1 :: p2 :: l) :
    ∃ t, Osdi.allocThree s = some (p0, p1, p2, t) ∧ t.npages = s.npages ∧
      Describes k t.pageFreeList l { a with free := [] } { t with pageFreeList := none } ∧
      ({ a with free := [] } : KernState).Trio k l s.npages p0 p1 p2 := by
  obtain ⟨t, ht, hn, h1, htrio⟩ := hd.allocThree hf
  refine ⟨t, ht, hn, h1.steal, ?_⟩
  have hspare : ∀ p, ({ a with free := l } : KernState).Spare k [] s.npages p →
      ({ a with free := [] } : KernState).Spare k l s.npages p :=
    fun p hp => ⟨hp.lt, hp.ne, by simp, hp.used, hp.notTable⟩
  exact ⟨hspare p0 htrio.spare0, hspare p1 htrio.spare1, hspare p2 htrio.spare2,
    htrio.ne, htrio.ref0, htrio.ref1, htrio.ref2⟩

theorem giveThree (hd : Describes k h X a s) (hf : a.free = [])
    (ht : a.Trio k X s.npages p0 p1 p2) :
    ∃ t, Osdi.freeThree p0 p1 p2 { s with pageFreeList := h } = some t ∧ t.npages = s.npages ∧
      Describes k none [] { a with free := p2 :: p1 :: p0 :: X } t := by
  have hspare : ∀ p, a.Spare k X s.npages p → ({ a with free := X } : KernState).Spare k
      [] s.npages p :=
    fun p hp => ⟨hp.lt, hp.ne, hp.apart, by simp, hp.notTable⟩
  exact (hd.giveBack hf).freeThree ⟨hspare p0 ht.spare0, hspare p1 ht.spare1,
    hspare p2 ht.spare2, ht.ne, ht.ref0, ht.ref1, ht.ref2⟩

theorem page2pa_lt_npages (hd : Describes k h X a s) (hp : p < s.npages) :
    page2pa p < BitVec.ofNat 32 s.npages * pgsize := by
  have hnp := hd.np
  have hps : pgsize.toNat = 4096 := by decide
  rw [BitVec.lt_def, page2pa_toNat p (by omega), BitVec.toNat_mul, BitVec.toNat_ofNat, hps]
  omega

/-- A page that is filled, freed and allocated again with `ALLOC_ZERO`
is the same one, and cleared. -/
theorem realloc (hd : Describes k h X a s) (hp : a.Spare k X s.npages p) (hr : a.ref p = 0)
    (w : Word) :
    ∃ t u g, pageFree p (Osdi.memsetWords (kva p) 1024 w s) = some t ∧
    Osdi.mustAlloc allocZero t = some (p, u) ∧
      u.npages = s.npages ∧ Describes k h X { a with data := g } u ∧
      ∀ i < nptentries, load u (slot (kva p) i) = 0#32 := by
  have h20 : p < 2 ^ 20 := (hp.lt.trans_le hd.np).trans (by decide)
  have h1 := hd.memsetWords h20 hp.ne hp.notTable 1024 w
  obtain ⟨hfree, h2⟩ := h1.free_page (hp.of_eq rfl rfl) hr
  obtain ⟨hal, h3⟩ := h2.mustAlloc rfl allocZero
  have hz : (allocZero &&& allocZero != 0#32) = true := by decide
  refine ⟨_, _, _, hfree, hal, rfl, h3, ?_⟩
  intro i hi
  rw [load_slot _ p i h20 hi, h3.data p hp.ne hp.notTable i hi]
  simp only [KernState.take, hz, if_true, Function.update_self]

theorem checkPageAlloc (hd : Describes k none [] a s) (hf : a.free = p0 :: p1 :: p2 :: l)
    {pages : Word} (hpages : pages ≠ 0#32) :
    ∃ t g, checkPageAlloc pages s = some t ∧ t.npages = s.npages ∧
    Describes k none [] { a with data := g } t := by
  obtain ⟨s₁, hs₁, hn₁, h1, ht1⟩ := hd.takeThree hf
  rw [← hn₁] at ht1
  obtain ⟨s₂, hs₂, hn₂, h2⟩ := h1.freeThree ht1
  obtain ⟨s₃, hs₃, hn₃, h3, ht3⟩ := h2.allocThree rfl
  rw [← hn₃] at ht3
  obtain ⟨s₄, s₅, g, hs₄, hs₅, hn₅, h5, hzero⟩ := h3.realloc ht3.spare0 ht3.ref0 0x01010101#32
  rw [← hn₅] at ht3
  obtain ⟨t, ht, hn, h6⟩ := h5.giveThree rfl (ht3.of_eq rfl rfl rfl)
  have hlen : a.free.length = (p0 :: p1 :: p2 :: l).length := congrArg List.length hf
  refine ⟨t, g, ?_, ?_, ?_⟩
  · rw [Osdi.checkPageAlloc, assert_bind hpages, bind_eq hd.freePages, bind_eq hs₁]
    dsimp only
    rw [assert_bind (h1.page2pa_lt_npages ht1.spare0.lt),
      assert_bind (h1.page2pa_lt_npages ht1.spare1.lt),
      assert_bind (h1.page2pa_lt_npages ht1.spare2.lt), bind_eq (h1.noneLeft rfl),
      bind_eq hs₂, bind_eq hs₃]
    dsimp only
    rw [bind_eq (h3.noneLeft rfl), bind_eq (page2kva_of_lt (hn₅ ▸ ht3.spare0.lt)),
      bind_eq hs₄, bind_eq hs₅]
    dsimp only
    rw [assert_bind rfl, bind_eq (page2kva_of_lt ht3.spare0.lt), assert_bind hzero, bind_eq ht,
      bind_eq h6.freePages, assert_bind hlen]
  · rw [hn, hn₅, hn₃, hn₂]
    exact hn₁
  · rw [hf]
    exact h6

end Describes

end NctuCourses.Osdi
