import Mathlib.Order.CompletePartialOrder
import Mathlib.Order.Interval.Set.Disjoint
import NctuCourses.Lib.Run
import NctuCourses.Osdi.Boot.KernRegions

namespace NctuCourses.Osdi

open NctuCourses.Lib

/-- The static variable `base`, and memory. -/
structure Mmio where
  base : Word
  mem : Mem

/-- A call and the address that it has returned. -/
structure MmioCall where
  pa : Word
  size : Word
  ret : Word

namespace MmioCall

/-- The bytes reserved, as numbers that do not wrap around. -/
def bytes (c : MmioCall) : Set Nat := Set.Ico c.ret.toNat (c.ret.toNat + c.size.toNat)

/-- The number of pages with a byte of the reservation. -/
def pages (c : MmioCall) : Nat := (c.size.toNat + 4095) / 4096

/-- Each page translates to the page of the device, not cached and writable. -/
def Mapped (k : Nat) (s : Mem) (c : MmioCall) : Prop :=
  ∀ i < c.pages, pteAddr (s.pteAt k (pgnum c.ret + i)) = c.pa + BitVec.ofNat 32 (4096 * i) ∧
    s.pteAt k (pgnum c.ret + i) &&& 0xFFF#32 = ptePcd ||| ptePwt ||| pteW ||| pteP

end MmioCall

/-- A page number outside of the window. -/
def OutsideMmio (v : Nat) : Prop := v < pgnum mmiobase ∨ pgnum mmiolim ≤ v

/-- There is room for the reservation in the window. -/
def Mmio.Fits (m : Mmio) (size : Word) : Prop := m.base.toNat + size.toNat ≤ mmiolim.toNat

/-- A call with an aligned address that has returned. -/
def MmioStep (k : Nat) (m : Mmio) (c : MmioCall) (m' : Mmio) : Prop :=
  c.pa % pgsize = 0#32 ∧ mmioMapRegion (kva k) m.base c.pa c.size m.mem = some
    (c.ret, m'.base, m'.mem)

/-- What is asked of a call in state `m`, after the calls `cs`. The state after `i` rounds of
`boot_map_region` is that of a call for `i` pages. -/
structure MmioOk (k : Nat) (cs : List MmioCall) (m : Mmio) (pa size : Word) : Prop where
  returns : ∀ ret base mem, mmioMapRegion (kva k) m.base pa size m.mem = some (ret, base, mem) →
    ret.toNat % 4096 = 0 ∧
      MmioCall.bytes ⟨pa, size, ret⟩ ⊆ Set.Ico mmiobase.toNat mmiolim.toNat ∧
      (∀ c ∈ cs, Disjoint c.bytes (MmioCall.bytes ⟨pa, size, ret⟩)) ∧
      ∀ c ∈ cs ++ [⟨pa, size, ret⟩], c.Mapped k mem
  panics : ¬ m.Fits size → mmioMapRegion (kva k) m.base pa size m.mem = none ∧
    ∀ i ≤ (roundup size pgsize).toNat / 4096, ∀ t,
      bootMapRegion (kva k) m.base (BitVec.ofNat 32 (4096 * i)) pa
        (ptePcd ||| ptePwt ||| pteW) m.mem = some t →
        ∀ v < 2 ^ 20, OutsideMmio v → t.pteAt k v = m.mem.pteAt k v

/-- `kern_pgdir` is a directory, with page tables, or pages for them, for the window and the page
after it; nothing is mapped there. -/
structure MmioRoom (k : Nat) (s : Mem) : Prop where
  dir : ∃ h X a, Describes k h X a s ∧ (a.missing {pdx mmiobase, pdx mmiolim}).card ≤ a.free.length
  lim : present (s.pteAt k (pgnum mmiolim)) = false

section Addresses

theorem mmiobase_toNat : mmiobase.toNat = 4018143232 := by decide

theorem mmiolim_toNat : mmiolim.toNat = 4022337536 := by decide

theorem pgnum_mmiolim : pgnum mmiolim = 982016 := by decide

theorem roundup_wrap {a : Word} (h : 2 ^ 32 ≤ a.toNat + 4095) : roundup a pgsize = 0#32 := by
  have hps : pgsize.toNat = 4096 := by decide
  have hlt := a.isLt
  have hx : (a + pgsize - 1#32).toNat = a.toNat + 4095 - 2 ^ 32 := by
    rw [BitVec.toNat_sub, BitVec.toNat_add, hps, show (1#32).toNat = 1 from rfl]
    omega
  have hmod : (a + pgsize - 1#32) % pgsize = a + pgsize - 1#32 := by
    apply BitVec.eq_of_toNat_eq
    rw [BitVec.toNat_umod, hx, hps]
    omega
  rw [roundup, rounddown, hmod, BitVec.sub_self]

theorem deviceEntry {pa : Word} (hpa : pa.toNat % 4096 = 0) :
    pteAddr (pa ||| (ptePcd ||| ptePwt ||| pteW) ||| pteP) = pa ∧
      (pa ||| (ptePcd ||| ptePwt ||| pteW) ||| pteP) &&& 0xFFF#32 = ptePcd |||
        ptePwt ||| pteW ||| pteP := by
  have hflags : (ptePcd ||| ptePwt ||| pteW ||| pteP).toNat < 4096 := by decide
  constructor
  · have hpage := page2pa_pgnum_or hpa hflags
    apply BitVec.eq_of_toNat_eq
    rw [pteAddr_toNat, BitVec.or_assoc, ← page2pa_toNat _ (pgnum_lt _), hpage]
  · rw [← page2pa_pgnum hpa, BitVec.or_assoc, BitVec.or_comm _ pteP, ← BitVec.or_assoc]
    exact entry_low _ _ (by decide)

end Addresses

namespace MmioRoom

variable {k : Nat} {s : Mem} {base size : Word}

theorem map (hm : MmioRoom k s) (hlow : mmiobase.toNat ≤ base.toNat) (size pa perm : Word)
    (hend : pgnum base + size.toNat / 4096 ≤ pgnum mmiolim + 1) :
    ∃ t, bootMapRegion (kva k) base size pa perm s = some t ∧
      (∃ h X a, Describes k h X a t ∧ (a.missing {pdx mmiobase, pdx mmiolim}).card ≤
        a.free.length) ∧
      ∀ v < 2 ^ 20, v / 1024 ≠ selfSlot →
        t.pteAt k v = ((⟨base, size, pa, perm⟩ : Region).entry v).getD (s.pteAt k v) := by
  obtain ⟨h, X, a, hd, hlen⟩ := hm.dir
  have hbase : 980992 ≤ pgnum base := by
    rw [pgnum_eq]
    rw [mmiobase_toNat] at hlow
    omega
  rw [pgnum_mmiolim] at hend
  have hvpn : ∀ i < size.toNat / 4096, vpnAt base i / 1024 = 958 ∨ vpnAt base i / 1024 = 959 := by
    intro i hi
    rw [vpnAt]
    omega
  have hslots : pageTables base (size.toNat / 4096) ⊆ {pdx mmiobase, pdx mmiolim} := by
    intro i hi
    obtain ⟨j, hj, rfl⟩ := mem_pageTables.mp hi
    have h958 : pdx mmiobase = 958 := by decide
    have h959 : pdx mmiolim = 959 := by decide
    rw [h958, h959, Finset.mem_insert, Finset.mem_singleton]
    exact hvpn j hj
  have hneed : (a.missing (pageTables base (size.toNat / 4096))).card ≤ a.free.length :=
    (Finset.card_le_card (Finset.filter_subset_filter _ hslots)).trans hlen
  have hself : ∀ i < size.toNat / 4096, vpnAt base i / 1024 ≠ selfSlot := by
    intro i hi
    have := hvpn i hi
    rw [selfSlot_eq]
    omega
  obtain ⟨t, a', ht, _, hd', hg, hent⟩ := hd.bootMapRegion_spec base size pa perm rfl hself hneed
  refine ⟨t, ht, ⟨h, X, a', hd', ?_⟩, ?_⟩
  · have hunion := hg.missing_union {pdx mmiobase, pdx mmiolim}
    rw [Finset.union_eq_right.mpr hslots] at hunion
    have hpages := hg.pages
    omega
  · intro v hv hne
    rw [hd'.pteAt hv hne, hd.pteAt hv hne, hent v hv]

theorem reserved (hlow : mmiobase.toNat ≤ base.toNat)
    (hfit : base.toNat + size.toNat ≤ mmiolim.toNat) :
    (roundup size pgsize).toNat = 4096 * ((size.toNat + 4095) / 4096) := by
  rw [mmiobase_toNat] at hlow
  rw [mmiolim_toNat] at hfit
  rw [roundup_toNat (by omega), Nat.mul_comm]

/-- A reservation that fits is mapped, and what was reserved before stays as it is. -/
theorem map_fits (hm : MmioRoom k s) (hal : base.toNat % 4096 = 0)
    (hlow : mmiobase.toNat ≤ base.toNat) (hfit : base.toNat + size.toNat ≤ mmiolim.toNat)
    {pa : Word} (hpa : pa % pgsize = 0#32) :
    ∃ t, bootMapRegion (kva k) base (roundup size pgsize) pa (ptePcd ||| ptePwt ||| pteW)
      s = some t ∧
      MmioRoom k t ∧ MmioCall.Mapped k t ⟨pa, size, base⟩ ∧
      ∀ v, pgnum mmiobase ≤ v → v < pgnum base → t.pteAt k v = s.pteAt k v := by
  have hsize := reserved hlow hfit
  have hpages : (roundup size pgsize).toNat / 4096 = (size.toNat + 4095) / 4096 := by omega
  have hpg := pgnum_eq base
  have hlim := pgnum_mmiolim
  have hpb : pgnum mmiobase = 980992 := by decide
  have hlow' := hlow
  rw [mmiobase_toNat] at hlow
  have hend : pgnum base + (size.toNat + 4095) / 4096 ≤ pgnum mmiolim := by
    rw [mmiolim_toNat] at hfit
    omega
  obtain ⟨t, ht, hdir, hpte⟩ := hm.map hlow' (roundup size pgsize) pa
    (ptePcd ||| ptePwt ||| pteW) (by omega)
  have hout : ∀ v, pgnum mmiobase ≤ v → v ≤ pgnum mmiolim →
      v < pgnum base ∨ pgnum base + (size.toNat + 4095) / 4096 ≤ v → t.pteAt k v = s.pteAt k v := by
    intro v h1 h2 hv
    rw [hpte v (by omega) (by rw [selfSlot_eq]; omega), Region.entry_none (by omega),
      Option.getD_none]
    intro i hi
    have hi : i < (size.toNat + 4095) / 4096 := by rwa [← hpages]
    change v ≠ (pgnum base + i) % 2 ^ 20
    omega
  refine ⟨t, ht, ⟨hdir, ?_⟩, ?_, fun v h1 h2 => hout v h1 (by omega) (.inl h2)⟩
  · rw [hout _ (by omega) le_rfl (.inr hend)]
    exact hm.lim
  · intro i hi
    have hi : i < (size.toNat + 4095) / 4096 := hi
    have hv : vpnAt base i = pgnum base + i := by
      rw [vpnAt]
      omega
    have hent := Region.entry_vpnAt (r := ⟨base, roundup size pgsize, pa,
      ptePcd ||| ptePwt ||| pteW⟩)
      (k := i) (by rwa [hpages])
    rw [hv] at hent
    have hentry : t.pteAt k (pgnum base + i) =
        pa + BitVec.ofNat 32 (4096 * i) ||| (ptePcd ||| ptePwt ||| pteW) ||| pteP := by
      rw [hpte _ (by omega) (by rw [selfSlot_eq]; omega), hent, Option.getD_some]
    have hpage : (pa + BitVec.ofNat 32 (4096 * i)).toNat % 4096 = 0 := by
      have hmod := congrArg BitVec.toNat hpa
      rw [BitVec.toNat_umod, show pgsize.toNat = 4096 by decide, BitVec.toNat_ofNat] at hmod
      rw [BitVec.toNat_add, BitVec.toNat_ofNat]
      omega
    change pteAddr (t.pteAt k (pgnum base + i)) = _ ∧ t.pteAt k (pgnum base + i) &&& 0xFFF#32 = _
    rw [hentry]
    exact deviceEntry hpage

end MmioRoom

/-- After the calls `cs`, all of which did fit. -/
structure MmioInv (k : Nat) (cs : List MmioCall) (m : Mmio) : Prop where
  room : MmioRoom k m.mem
  aligned : m.base.toNat % 4096 = 0
  low : mmiobase.toNat ≤ m.base.toNat
  high : m.base.toNat < mmiolim.toNat
  calls : ∀ c ∈ cs, c.ret.toNat % 4096 = 0 ∧ mmiobase.toNat ≤ c.ret.toNat ∧
    c.ret.toNat + 4096 * c.pages ≤ m.base.toNat
  mapped : ∀ c ∈ cs, c.Mapped k m.mem

namespace MmioInv

variable {k : Nat} {cs : List MmioCall} {m m' : Mmio} {pa size : Word}

theorem start {s : Mem} (h : MmioRoom k s) : MmioInv k [] ⟨mmiobase, s⟩ where
  room := h
  aligned := show mmiobase.toNat % 4096 = 0 by decide
  low := le_rfl
  high := show mmiobase.toNat < mmiolim.toNat by decide
  calls := by simp
  mapped := by simp

theorem call_eq (h : MmioInv k cs m) (pa size : Word) (hfit : m.Fits size)
    (hpa : pa % pgsize = 0#32) :
    ∃ t, mmioMapRegion (kva k) m.base pa size m.mem =
        (if m.base.toNat + 4096 * ((size.toNat + 4095) / 4096) < mmiolim.toNat then
          some (m.base, m.base + roundup size pgsize, t) else none) ∧
      MmioRoom k t ∧ MmioCall.Mapped k t ⟨pa, size, m.base⟩ ∧
      ∀ v, pgnum mmiobase ≤ v → v < pgnum m.base → t.pteAt k v = m.mem.pteAt k v := by
  obtain ⟨t, ht, hroom, hmap, hout⟩ := h.room.map_fits h.aligned h.low hfit hpa
  refine ⟨t, ?_, hroom, hmap, hout⟩
  have hcmp : m.base + roundup size pgsize < mmiolim ↔
      m.base.toNat + 4096 * ((size.toNat + 4095) / 4096) < mmiolim.toNat := by
    have hsize := MmioRoom.reserved h.low hfit
    have hlow := h.low
    have hfit : m.base.toNat + size.toNat ≤ mmiolim.toNat := hfit
    rw [mmiobase_toNat] at hlow
    rw [mmiolim_toNat] at hfit
    rw [BitVec.lt_def, BitVec.toNat_add, hsize]
    omega
  rw [mmioMapRegion, ht]
  simp only [Option.bind_eq_bind, Option.bind_some, assert, hcmp]
  split_ifs
  · rfl
  · rfl

theorem call (h : MmioInv k cs m) (hfit : m.Fits size) (hpa : pa % pgsize = 0#32) {ret base : Word}
    {mem : Mem} (hc : mmioMapRegion (kva k) m.base pa size m.mem = some (ret, base, mem)) :
    ret = m.base ∧ MmioInv k (cs ++ [⟨pa, size, ret⟩]) ⟨base, mem⟩ := by
  obtain ⟨t, ht, hroom, hmap, hout⟩ := h.call_eq pa size hfit hpa
  rw [hc] at ht
  split_ifs at ht with hlt
  obtain ⟨rfl, hrest⟩ := Prod.mk.inj (Option.some.inj ht)
  obtain ⟨rfl, rfl⟩ := Prod.mk.inj hrest
  have hlow := h.low
  have hal := h.aligned
  have hbase : (m.base + roundup size pgsize).toNat = m.base.toNat + 4096 *
      ((size.toNat + 4095) / 4096) := by
    rw [BitVec.toNat_add, MmioRoom.reserved h.low hfit]
    rw [mmiolim_toNat] at hlt
    omega
  refine ⟨rfl, hroom, ?_, ?_, ?_, ?_, ?_⟩
  · change (m.base + roundup size pgsize).toNat % 4096 = 0
    omega
  · change _ ≤ (m.base + roundup size pgsize).toNat
    omega
  · change (m.base + roundup size pgsize).toNat < _
    omega
  · intro c hc
    change _ ∧ _ ∧ _ ≤ (m.base + roundup size pgsize).toNat
    rw [hbase]
    rcases List.mem_append.mp hc with hc | hc
    · obtain ⟨h1, h2, h3⟩ := h.calls c hc
      exact ⟨h1, h2, by omega⟩
    · obtain rfl := List.mem_singleton.mp hc
      exact ⟨hal, hlow, le_rfl⟩
  · intro c hc
    rcases List.mem_append.mp hc with hc | hc
    · -- An earlier reservation lies below.
      obtain ⟨h1, h2, h3⟩ := h.calls c hc
      intro i hi
      have hpte : mem.pteAt k (pgnum c.ret + i) = m.mem.pteAt k (pgnum c.ret + i) := by
        apply hout
        · rw [pgnum_eq, pgnum_eq]
          omega
        · rw [pgnum_eq, pgnum_eq]
          omega
      change pteAddr (mem.pteAt k (pgnum c.ret + i)) = _ ∧
        mem.pteAt k (pgnum c.ret + i) &&& 0xFFF#32 = _
      rw [hpte]
      exact h.mapped c hc i hi
    · obtain rfl := List.mem_singleton.mp hc
      exact hmap

theorem step {c : MmioCall} (h : MmioInv k cs m) (hfit : m.Fits c.size) (hs : MmioStep k m c m') :
    MmioInv k (cs ++ [c]) m' := (h.call hfit hs.1 hs.2).2

theorem ok_of_fits (h : MmioInv k cs m) (hfit : m.Fits size) (hpa : pa % pgsize = 0#32) :
    MmioOk k cs m pa size := by
  refine ⟨fun ret base mem hc => ?_, fun hn => absurd hfit hn⟩
  obtain ⟨rfl, h'⟩ := h.call hfit hpa hc
  refine ⟨h.aligned, Set.Ico_subset_Ico h.low hfit, fun c hc => ?_, h'.mapped⟩
  obtain ⟨_, _, hend⟩ := h.calls c hc
  rw [MmioCall.bytes, MmioCall.bytes, Set.Ico_disjoint_Ico]
  rw [MmioCall.pages] at hend
  simp only [min_le_iff, le_max_iff]
  omega

/-- A call that does not fit wraps around and returns, or has mapped the page at `MMIOLIM`. -/
theorem fits_of_ok (h : MmioInv k cs m) (hok : MmioOk k cs m pa size) : m.Fits size := by
  by_contra hn
  obtain ⟨hpanic, hsame⟩ := hok.panics hn
  have hn : ¬ m.base.toNat + size.toNat ≤ mmiolim.toNat := hn
  have hlow := h.low
  have hhigh := h.high
  have hal := h.aligned
  by_cases hwrap : 2 ^ 32 ≤ size.toNat + 4095
  · have hz := roundup_wrap hwrap
    have hmap : bootMapRegion (kva k) m.base (roundup size pgsize) pa
        (ptePcd ||| ptePwt ||| pteW) m.mem =
        some m.mem := by
      rw [hz, bootMapRegion, dif_neg (by decide)]
    rw [mmioMapRegion, hmap, hz] at hpanic
    simp only [Option.bind_eq_bind, Option.bind_some, assert, BitVec.add_zero,
      BitVec.lt_def, hhigh, if_true] at hpanic
    cases hpanic
  · have hsize := roundup_toNat (Nat.lt_of_not_le hwrap)
    have hpg := pgnum_eq m.base
    have hlim := pgnum_mmiolim
    rw [mmiobase_toNat] at hlow
    rw [mmiolim_toNat] at hn hhigh
    obtain ⟨i, hi⟩ : ∃ i, pgnum m.base + i = pgnum mmiolim :=
      ⟨pgnum mmiolim - pgnum m.base, by omega⟩
    have hlen : (BitVec.ofNat 32 (4096 * (i + 1))).toNat / 4096 = i + 1 := by
      rw [BitVec.toNat_ofNat]
      omega
    obtain ⟨t, ht, _, hpte⟩ := h.room.map h.low (BitVec.ofNat 32 (4096 * (i + 1))) pa
      (ptePcd ||| ptePwt ||| pteW) (by omega)
    have hkeep := hsame (i + 1) (by omega) t ht (pgnum mmiolim) (by omega) (.inr le_rfl)
    have hent := Region.entry_vpnAt (k := i)
      (r := ⟨m.base, BitVec.ofNat 32 (4096 * (i + 1)), pa, ptePcd ||| ptePwt ||| pteW⟩) (by
        dsimp only
        omega)
    have hv : vpnAt m.base i = pgnum mmiolim := by
      rw [vpnAt]
      omega
    rw [hv] at hent
    rw [hpte _ (by omega) (by rw [selfSlot_eq]; omega), hent, Option.getD_some] at hkeep
    have habsent := h.room.lim
    rw [← hkeep, present_or_right present_pteP] at habsent
    cases habsent

end MmioInv

/-- Page 0 is a directory without page tables, and pages 1 and 2 are free. -/
def bareMem : Mem where
  npages := 3
  pages p := ⟨if p = 1 then some 2 else none, 0⟩
  pageFreeList := some 1
  numFreePages := 2#32
  ram p i := if p = 0 ∧ i = selfSlot then page2pa 0 ||| pteU ||| pteP else 0#32

theorem bareMem_pteAt {v : Nat} (hv : v / 1024 ≠ selfSlot) : bareMem.pteAt 0 v = 0#32 := by
  have hrow : bareMem.ram 0 (v / 1024) = 0#32 := by simp [bareMem, hv]
  rw [Mem.pteAt, hrow, if_neg (by simp)]

theorem bareMem_room : MmioRoom 0 bareMem := by
  constructor
  · refine ⟨none, [], ⟨fun _ => none, fun _ => 0#32, fun _ => 0, [1, 2], fun _ _ => 0#32⟩, ?_, ?_⟩
    · refine ⟨by decide, by decide, ?_, fun _ => rfl, rfl, ?_, by simp, by simp,
        by simp, by simp, fun _ _ => rfl, ?_⟩
      · refine ⟨⟨rfl, rfl, rfl⟩, rfl, by simp, ?_, rfl, fun _ _ => rfl, ?_⟩
        · intro p hp
          change p < 3
          simp at hp
          omega
        · intro p hp _
          simp at hp
          exact if_neg hp.1
      · intro i _ hi
        exact if_neg fun h => hi h.2
      · intro p hp _ j _
        exact if_neg fun h => hp h.1
    · exact (Finset.card_le_card (Finset.filter_subset _ _)).trans (by decide)
  · rw [bareMem_pteAt (by decide)]
    rfl

/-- After any calls that did fit, the next call reserves its pages, or panics with nothing mapped
outside of the window, if and only if it fits. -/
theorem mmio_reserves {k : Nat} {s : Mem} (hroom : MmioRoom k s) {cs : List MmioCall} {m : Mmio}
    (hrun : Reach (fun m c m' => m.Fits c.size ∧ MmioStep k m c m') ⟨mmiobase, s⟩ cs m)
    {pa size : Word} (hpa : pa % pgsize = 0#32) :
    (MmioOk k cs m pa size ↔ m.base.toNat + size.toNat ≤ mmiolim.toNat) ∧
      (m.base.toNat + size.toNat + 4096 ≤ mmiolim.toNat →
        ∃ r, mmioMapRegion (kva k) m.base pa size m.mem = some r) := by
  have hinv : MmioInv k cs m :=
    hrun.historyInvariant (MmioInv.start hroom) fun _ _ _ _ h hs => h.step hs.1 hs.2
  refine ⟨⟨hinv.fits_of_ok, fun hfit => hinv.ok_of_fits hfit hpa⟩, fun hfit => ?_⟩
  obtain ⟨t, ht, _⟩ := hinv.call_eq pa size (show _ ≤ _ by omega) hpa
  have hal := hinv.aligned
  rw [mmiolim_toNat] at hfit ht
  rw [if_pos (by omega)] at ht
  exact ⟨_, ht⟩

/-- Two calls, the second for the page after those of the first. -/
theorem mmio_reserves_twice :
    ∃ m, MmioStep 0 ⟨mmiobase, bareMem⟩ ⟨0xfee00000#32, 4097#32, mmiobase⟩ m ∧
      (∃ r, mmioMapRegion (kva 0) m.base 0xfec00000#32 4096#32 m.mem = some r) ∧
      MmioOk 0 [⟨0xfee00000#32, 4097#32, mmiobase⟩] m 0xfec00000#32 4096#32 := by
  have hfits : (⟨mmiobase, bareMem⟩ : Mmio).Fits 4097#32 :=
    show mmiobase.toNat + 4097 ≤ mmiolim.toNat by decide
  obtain ⟨t, ht, _⟩ := (MmioInv.start bareMem_room).call_eq 0xfee00000#32 4097#32 hfits (by decide)
  rw [if_pos (by decide)] at ht
  have hstep : MmioStep 0 ⟨mmiobase, bareMem⟩ ⟨0xfee00000#32, 4097#32, mmiobase⟩
      ⟨mmiobase + roundup 4097#32 pgsize, t⟩ := ⟨show 0xfee00000#32 % pgsize = 0#32 by decide, ht⟩
  obtain ⟨hok, hret⟩ := @mmio_reserves 0 bareMem bareMem_room _ _ (Reach.init.snoc ⟨hfits, hstep⟩)
    0xfec00000#32 4096#32 (by decide)
  refine ⟨_, hstep, hret ?_, hok.mpr ?_⟩
  · change (mmiobase + roundup 4097#32 pgsize).toNat + 4096 + 4096 ≤ mmiolim.toNat
    decide
  · change (mmiobase + roundup 4097#32 pgsize).toNat + 4096 ≤ mmiolim.toNat
    decide

/-- A size that rounds up to zero: the call returns without having mapped or reserved anything. -/
theorem mmio_reserves_wrapped :
    MmioRoom 0 bareMem ∧ mmioMapRegion (kva 0) mmiobase 0xfee00000#32 0xffffffff#32 bareMem =
        some (mmiobase, mmiobase, bareMem) ∧
      bareMem.pteAt 0 (pgnum mmiobase) = 0#32 ∧
      ¬ MmioOk 0 [] ⟨mmiobase, bareMem⟩ 0xfee00000#32 0xffffffff#32 := by
  have hz : roundup 0xffffffff#32 pgsize = 0#32 := roundup_wrap (by decide)
  have hcall : mmioMapRegion (kva 0) mmiobase 0xfee00000#32 0xffffffff#32 bareMem =
      some (mmiobase, mmiobase, bareMem) := by
    rw [mmioMapRegion, hz, bootMapRegion, dif_neg (by decide)]
    simp only [Option.bind_eq_bind, Option.bind_some, assert, BitVec.add_zero]
    rw [if_pos (by decide)]
    rfl
  refine ⟨bareMem_room, hcall, bareMem_pteAt (by decide), fun hok => ?_⟩
  obtain ⟨_, hsub, _⟩ := hok.returns _ _ _ hcall
  have hmem : mmiolim.toNat ∈ MmioCall.bytes ⟨0xfee00000#32, 0xffffffff#32, mmiobase⟩ := by
    change mmiobase.toNat ≤ mmiolim.toNat ∧ mmiolim.toNat < mmiobase.toNat + 0xffffffff
    decide
  exact absurd (hsub hmem).2 (lt_irrefl _)

end NctuCourses.Osdi
