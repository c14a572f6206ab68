import NctuCourses.Osdi.Mem.Mapping

namespace NctuCourses.Osdi

open Lib

/-- The memory with the page directories in use and the pages handed out by `page_alloc`. -/
structure Vm where
  mem : Mem
  dirs : Finset Nat
  out : Finset Nat

inductive VmOp where
  | alloc (allocFlags : Word)
  | newdir
  | insert (d pp : Nat) (va perm : Word)
  | remove (d : Nat) (va : Word)

def Vm.space (b : Boot) (S : Vm) : Space := ⟨S.dirs, fun p => madeFree b p = false, fun _ => true⟩

/-- The present page table entries that map `p`, and the present directory entries
that name it as a page table. -/
def Vm.count (b : Boot) (S : Vm) (p : Nat) : Nat :=
  (mapSites (S.space b) S.mem p).card + (tableSites (S.space b) S.mem p).card

/-- A page that may be inserted: handed out by `page_alloc`, not on the free list, and used neither
as a directory nor as a page table. -/
def Vm.Usable (b : Boot) (S : Vm) (pp : Nat) : Prop :=
  pp ∈ S.out ∧ (∀ fl, FreeList S.mem fl → pp ∉ fl) ∧ pp ∉ S.dirs ∧ ¬ IsTable (S.space b) S.mem pp

/-- The calls a kernel may make. A directory is a page from `page_alloc(ALLOC_ZERO)`. -/
def VmOp.Legal (b : Boot) (S : Vm) : VmOp → Prop
  | .alloc _ => True
  | .newdir => True
  | .insert d pp _ perm => d ∈ S.dirs ∧ S.Usable b pp ∧ perm.toNat < 4096
  | .remove d _ => d ∈ S.dirs

/-- The effect of a call, with its return value; `none` is a panic. -/
def Vm.exec (S : Vm) : VmOp → Option (Int × Vm)
  | .alloc f => (pageAlloc f S.mem).map fun (r, t) =>
      (0, { S with mem := t, out := r.elim S.out (insert · S.out) })
  | .newdir => (pageAlloc allocZero S.mem).map fun (r, t) =>
      (0, { S with mem := t, dirs := r.elim S.dirs (insert · S.dirs) })
  | .insert d pp va perm => (pageInsert (kva d) pp va perm S.mem).map fun (r, t) =>
      (r, { S with mem := t })
  | .remove d va => (pageRemove (kva d) va S.mem).map fun t => (0, { S with mem := t })

/-- No page is mapped at 65536 or more entries. -/
def Vm.Bounded (b : Boot) (S : Vm) : Prop := ∀ p, (mapSites (S.space b) S.mem p).card < 65536

/-- A legal call together with the value it returned. -/
def VmStep (b : Boot) (S : Vm) (e : VmOp × Int) (T : Vm) : Prop :=
  e.1.Legal b S ∧ S.exec e.1 = some (e.2, T)

def BoundedStep (b : Boot) (S : Vm) (e : VmOp × Int) (T : Vm) : Prop :=
  VmStep b S e T ∧ T.Bounded b

/-- The invariant of the runs: the page tables are well formed, and pages
handed out are in the pool. -/
structure VmOk (b : Boot) (S : Vm) (I : Set Nat) (fl : List Nat) : Prop where
  inv : VmInv (S.space b) I 0 S.mem fl
  out : ∀ p ∈ S.out, p < S.mem.npages ∧ madeFree b p = true

namespace VmOk

variable {b : Boot} {S : Vm} {I : Set Nat} {fl : List Nat}

theorem data (h : VmOk b S I fl) {p : Nat} (hp : S.Usable b p) :
    IsData (S.space b) S.mem fl p := by
  obtain ⟨hout, hfree, hdir, htbl⟩ := hp
  obtain ⟨hlt, hmade⟩ := h.out p hout
  exact ⟨hlt, by simp [Vm.space, hmade], hfree fl h.inv.free, hdir, htbl⟩

theorem count_lt (h : VmOk b S I fl) (hb : S.Bounded b) (p : Nat) : S.count b p < 65536 := by
  by_cases ht : IsTable (S.space b) S.mem p
  · have hm : mapSites (S.space b) S.mem p = ∅ :=
      h.inv.mapSites_eq_empty fun hd => hd.notTable ht
    have hle := h.inv.tableSites_card_le p
    rw [Vm.count, hm, Finset.card_empty]
    omega
  · have hm := hb p
    rw [Vm.count, tableSites_eq_empty ht, Finset.card_empty]
    omega

theorem ref (h : VmOk b S I fl) (hb : S.Bounded b) {p : Nat} (hlt : p < S.mem.npages)
    (hp : madeFree b p = true) : (S.mem.pages p).ppRef.toNat = S.count b p := by
  have hc := h.count_lt hb p
  rw [h.inv.ref p hlt (by simp [Vm.space, hp])]
  simp only [Pi.zero_apply, Nat.add_zero, BitVec.toNat_ofNat]
  exact Nat.mod_eq_of_lt hc

theorem notMem_free (h : VmOk b S I fl) {p : Nat} (hp : S.count b p ≠ 0) : p ∉ fl :=
  fun hf => hp (h.inv.refs_free hf)

end VmOk

/-- What one legal call does: `insert` and `remove` change one entry of one directory. -/
inductive VmEffect (b : Boot) (S : Vm) (I : Set Nat) (fl : List Nat) :
    VmOp × Int → Vm → Set Nat → List Nat → Prop
  | allocNone {f : Word} : fl = [] → VmEffect b S I fl (.alloc f, 0) S I fl
  | alloc {f : Word} {p : Nat} {fl' : List Nat} : fl = p :: fl' →
      VmEffect b S I fl (.alloc f, 0)
        { S with mem := S.mem.take f p, out := insert p S.out } (insert p I) fl'
  | newdirNone : fl = [] → VmEffect b S I fl (.newdir, 0) S I fl
  | newdir {p : Nat} {fl' : List Nat} : fl = p :: fl' →
      VmEffect b S I fl (.newdir, 0)
        { S with mem := S.mem.take allocZero p, dirs := insert p S.dirs } I fl'
  | insertNone {d pp : Nat} {va perm : Word} : fl = [] →
      VmEffect b S I fl (.insert d pp va perm, -eNoMem) S I fl
  | insert {d pp : Nat} {va perm : Word} {t : Mem} {fl' : List Nat} : d ∈ S.dirs →
      IsData (S.space b) S.mem fl pp → perm.toNat < 4096 →
      Remap (S.space b) S.mem t d (pgnum va) (page2pa pp ||| pteP ||| perm) →
      VmEffect b S I fl (.insert d pp va perm, 0) { S with mem := t } (I \ {pp}) fl'
  | removeNone {d : Nat} {va : Word} : d ∈ S.dirs →
      present (S.mem.pteAt d (pgnum va)) = false →
      VmEffect b S I fl (.remove d va, 0) S I fl
  | remove {d : Nat} {va : Word} {t : Mem} {fl' : List Nat} : d ∈ S.dirs →
      Remap (S.space b) S.mem t d (pgnum va) 0#32 →
      VmEffect b S I fl (.remove d va, 0) { S with mem := t } I fl'

namespace VmOk

variable {b : Boot} {S : Vm} {I : Set Nat} {fl : List Nat}

theorem newdir_inv {p : Nat} (h : VmOk b S I (p :: fl)) :
    VmInv (Vm.space b ⟨S.mem.take allocZero p, insert p S.dirs, S.out⟩) I 0
      (S.mem.take allocZero p) fl := h.inv.takeDir

/-- Every legal call returns, keeps the invariant and has one of the effects above. -/
theorem exec (h : VmOk b S I fl) (hb : S.Bounded b) (op : VmOp) (hop : op.Legal b S) :
    ∃ r T I' fl', S.exec op = some (r, T) ∧ VmEffect b S I fl (op, r) T I' fl' ∧
      VmOk b T I' fl' := by
  cases op with
  | alloc f =>
    cases fl with
    | nil => exact ⟨0, S, I, [], by simp [Vm.exec, pageAlloc_nil h.inv.free], .allocNone rfl, h⟩
    | cons p fl =>
      obtain ⟨h1, hdat, _, _⟩ := h.inv.take f
      refine ⟨0, _, _, fl, by simp only [Vm.exec, pageAlloc_cons h.inv.free, Option.map_some]; rfl,
        .alloc rfl, h1, ?_⟩
      intro q hq
      rcases Finset.mem_insert.mp hq with rfl | hq
      · exact ⟨hdat.lt, by simpa [Vm.space] using hdat.pool⟩
      · exact h.out q hq
  | newdir =>
    cases fl with
    | nil => exact ⟨0, S, I, [], by simp [Vm.exec, pageAlloc_nil h.inv.free], .newdirNone rfl, h⟩
    | cons p fl =>
      refine ⟨0, _, _, fl, by simp only [Vm.exec, pageAlloc_cons h.inv.free, Option.map_some]; rfl,
        .newdir rfl, h.newdir_inv, h.out⟩
  | insert d pp va perm =>
    obtain ⟨hd, hu, hperm⟩ := hop
    have hdat := h.data hu
    have hc : ∀ p, refs (S.space b) S.mem p + (0 : Nat → Nat) p < 65536 := h.count_lt hb
    rcases h.inv.pageInsert_spec va hd rfl hdat hperm hc with
      ⟨hnil, _, he⟩ | ⟨t, fl', he, hinv, _, _, _, hmap⟩
    · exact ⟨-eNoMem, S, I, fl, by simp [Vm.exec, he], .insertNone hnil, h⟩
    · refine ⟨0, { S with mem := t }, _, fl', by simp [Vm.exec, he], .insert hd hdat hperm hmap,
        hinv, ?_⟩
      intro q hq
      exact ⟨hmap.npages ▸ (h.out q hq).1, (h.out q hq).2⟩
  | remove d va =>
    have hd : d ∈ (S.space b).dirs := hop
    cases hp : present (S.mem.pteAt d (pgnum va)) with
    | false =>
      exact ⟨0, S, I, fl, by simp [Vm.exec, h.inv.pageRemove_absent hd hp], .removeNone hd hp, h⟩
    | true =>
      have hc := h.count_lt hb (pgnum (S.mem.pteAt d (pgnum va)))
      obtain ⟨t, he, hn, hram, hinv⟩ := h.inv.pageRemove_present hd rfl hp hc.le
      have hmap := h.inv.remap_of_ram hd (VmInv.pde_present hp) hn hram
      refine ⟨0, { S with mem := t }, I, _, by simp [Vm.exec, he], .remove hd hmap, hinv, ?_⟩
      intro q hq
      exact ⟨hn ▸ (h.out q hq).1, (h.out q hq).2⟩

theorem step (h : VmOk b S I fl) (hb : S.Bounded b) {e : VmOp × Int} {T : Vm}
    (hs : VmStep b S e T) : ∃ I' fl', VmEffect b S I fl e T I' fl' ∧ VmOk b T I' fl' := by
  obtain ⟨r, T', I', fl', he, heff, hok⟩ := h.exec hb e.1 hs.1
  obtain ⟨hr, hT⟩ := Prod.mk.inj (Option.some.inj (he.symm.trans hs.2))
  subst hT
  have hee : e = (e.1, r) := by rw [hr]
  exact ⟨I', fl', hee ▸ heff, hok⟩

end VmOk

/-- The state right after `page_init`: nothing is handed out and there is no directory. -/
theorem vmOk_init (b : Boot) (ram : Nat → Nat → Word) (hnp : b.npages.toNat ≤ 2 ^ 20)
    (hnext : kernbase ≤ b.nextfree) :
    ∃ s₀, pageInit b (bootMem b ram) = some s₀ ∧
      VmOk b ⟨s₀, ∅, ∅⟩ ∅ ((List.range b.npages.toNat).filter (madeFree b)).reverse ∧
      Vm.Bounded b ⟨s₀, ∅, ∅⟩ := by
  obtain ⟨s₀, hs₀, _, _, h⟩ := VmInv.boot b ram (fun _ => true) hnp hnext
  refine ⟨s₀, hs₀, ⟨h, by simp⟩, fun p => ?_⟩
  simp [mapSites, Vm.space]

theorem vmOk_reach {b : Boot} {S₀ S : Vm} {I₀ : Set Nat} {fl₀ : List Nat} {es : List (VmOp × Int)}
    (h0 : VmOk b S₀ I₀ fl₀) (hb0 : S₀.Bounded b) (h : Reach (BoundedStep b) S₀ es S) :
    S.Bounded b ∧ ∃ I fl, VmOk b S I fl := by
  refine h.invariant (I := fun S => S.Bounded b ∧ ∃ I fl, VmOk b S I fl) ⟨hb0, I₀, fl₀, h0⟩ ?_
  rintro S e T ⟨hb, I, fl, hok⟩ ⟨hs, hbT⟩
  obtain ⟨I', fl', _, hok'⟩ := hok.step hb hs
  exact ⟨hbT, I', fl', hok'⟩

/-- Pages come back to the free list by losing their last reference and in no other way, once the
idle pages and the directories are known to stay where they are. -/
private theorem VmOk.freed_iff {b : Boot} {S T : Vm} {I I' : Set Nat} {fl fl' : List Nat}
    (h : VmOk b S I fl) (h' : VmOk b T I' fl') (hn : T.mem.npages = S.mem.npages)
    (hI : ∀ p ∈ I, p ∉ fl') (hI' : ∀ p ∈ I', p ∈ I ∨ p ∈ fl) (hd : S.dirs ⊆ T.dirs)
    (hd' : ∀ p ∈ T.dirs, p ∈ S.dirs ∨ p ∈ fl) {p : Nat} (hp : p ∉ fl) :
    p ∈ fl' ↔ S.count b p ≠ 0 ∧ T.count b p = 0 := by
  constructor
  · intro hf
    refine ⟨fun h0 => hI p ((h.inv.idle p).mpr ⟨⟨hn ▸ h'.inv.free.lt p hf, ?_, hp, ?_, ?_⟩, h0⟩) hf,
      h'.inv.refs_free hf⟩
    · exact h'.inv.pool p hf
    · exact fun hdir => (h'.inv.dir p (hd hdir)).2.2 hf
    · intro ht
      have hpos : (tableSites (S.space b) S.mem p).card ≠ 0 := by
        obtain ⟨d, hd, i, hi, hpr, he⟩ := ht
        exact Finset.card_ne_zero_of_mem (a := (d, i)) (mem_tableSites.mpr ⟨⟨hd, hi⟩, hpr, he⟩)
      rw [Vm.count] at h0
      omega
  · rintro ⟨h1, h0⟩
    by_contra hf
    -- in use before, so a table or a data page; unreferenced after, so idle
    have hS : p < S.mem.npages ∧ ¬ (S.space b).rsv p ∧ p ∉ S.dirs := by
      by_cases hdat : IsData (S.space b) S.mem fl p
      · exact ⟨hdat.lt, hdat.pool, hdat.notDir⟩
      · have hm := h.inv.mapSites_eq_empty hdat
        by_cases ht : IsTable (S.space b) S.mem p
        · obtain ⟨d, hd, i, hi, hpr, rfl⟩ := ht
          obtain ⟨hlt, hrs, _, hnd⟩ := h.inv.tbl d hd i hi hpr
          exact ⟨hlt, hrs, hnd⟩
        · exact absurd (by rw [Vm.count, hm, tableSites_eq_empty ht]; rfl) h1
    have hdir : p ∉ T.dirs := fun e => (hd' p e).elim hS.2.2 hp
    have htab : ¬ IsTable (T.space b) T.mem p := by
      rintro ⟨d, hd, i, hi, hpr, he⟩
      have hpos := Finset.card_ne_zero_of_mem (a := (d, i)) (s := tableSites (T.space b) T.mem p)
        (mem_tableSites.mpr ⟨⟨hd, hi⟩, hpr, he⟩)
      rw [Vm.count] at h0
      omega
    have hidle : p ∈ I' := (h'.inv.idle p).mpr ⟨⟨hn ▸ hS.1, hS.2.1, hf, hdir, htab⟩, h0⟩
    rcases hI' p hidle with hi | hi
    · exact h1 ((h.inv.idle p).mp hi).2
    · exact hp hi

private theorem mapSites_inserted {b : Boot} {S : Vm} {d pp : Nat} {va perm : Word} {t : Mem}
    (hd : d ∈ S.dirs) (hpp : pp < 2 ^ 20) (hperm : perm.toNat < 4096)
    (hmap : Remap (S.space b) S.mem t d (pgnum va) (page2pa pp ||| pteP ||| perm)) :
    mapSites (S.space b) t pp = insert (d, pgnum va) (mapSites (S.space b) S.mem pp) := by
  have hw : present (page2pa pp ||| pteP ||| perm) = true :=
    present_or_left (present_or_right present_pteP)
  have hwp : pgnum (page2pa pp ||| pteP ||| perm) = pp := by
    rw [VmInv.entry_assoc]
    exact pgnum_entry pp _ hpp (VmInv.pteP_or_lt hperm)
  rw [mapSites_update (G := S.space b) hd (pgnum_lt va) hmap.pte pp]
  exact if_pos ⟨rfl, hw, hwp⟩

namespace VmEffect

variable {b : Boot} {S T : Vm} {I I' : Set Nat} {fl fl' : List Nat} {e : VmOp × Int}

theorem freed_iff (he : VmEffect b S I fl e T I' fl') (h : VmOk b S I fl) (h' : VmOk b T I' fl')
    {p : Nat} (hp : p ∉ fl) : p ∈ fl' ↔ S.count b p ≠ 0 ∧ T.count b p = 0 := by
  have hidle : ∀ p ∈ I', p ∉ fl' := fun p hi hf => h'.inv.notMem_idle hf hi
  cases he with
  | allocNone _ | newdirNone _ | insertNone _ | removeNone _ _ =>
    exact h.freed_iff h' rfl hidle (fun _ => .inl) (Finset.Subset.refl _) (fun _ => .inl) hp
  | alloc hfl =>
    refine h.freed_iff h' rfl (fun q hq => hidle q (.inr hq)) (fun q hq => ?_)
      (Finset.Subset.refl _) (fun _ => .inl) hp
    rcases hq with rfl | hq
    · exact .inr (by simp [hfl])
    · exact .inl hq
  | newdir hfl =>
    refine h.freed_iff h' rfl hidle (fun _ => .inl) (Finset.subset_insert _ _) (fun q hq => ?_) hp
    rcases Finset.mem_insert.mp hq with rfl | hq
    · exact .inr (by simp [hfl])
    · exact .inl hq
  | @insert d pp va perm t _ hd hdat hperm hmap =>
    refine h.freed_iff h' hmap.npages (fun q hq hf => ?_) (fun q hq => .inl hq.1)
      (Finset.Subset.refl _) (fun _ => .inl) hp
    by_cases hqp : q = pp
    · subst hqp
      have h0 := h'.inv.refs_free hf
      have hs := mapSites_inserted hd (hdat.lt.trans_le h.inv.np) hperm hmap
      have hpos : (mapSites (S.space b) t q).card ≠ 0 := by
        rw [hs]
        exact Finset.card_ne_zero_of_mem (Finset.mem_insert_self _ _)
      rw [refs] at h0
      exact hpos (Nat.eq_zero_of_add_eq_zero_right h0)
    · exact hidle q ⟨hq, hqp⟩ hf
  | remove _ hmap =>
    exact h.freed_iff h' hmap.npages hidle (fun _ => .inl) (Finset.Subset.refl _) (fun _ => .inl) hp

/-- Inserting a page where it is already mapped leaves its count as it was. -/
theorem count_reinsert {d pp : Nat} {va perm : Word}
    (he : VmEffect b S I fl (.insert d pp va perm, 0) T I' fl') (h : VmOk b S I fl)
    (h' : VmOk b T I' fl') (hp : present (S.mem.pteAt d (pgnum va)) = true)
    (hpp : pgnum (S.mem.pteAt d (pgnum va)) = pp) : T.count b pp = S.count b pp := by
  cases he with
  | @insert _ _ _ _ t _ hd hdat hperm hmap =>
    have hs := mapSites_inserted hd (hdat.lt.trans_le h.inv.np) hperm hmap
    have hm : (d, pgnum va) ∈ mapSites (S.space b) S.mem pp :=
      mem_mapSites.mpr ⟨⟨hd, pgnum_lt va⟩, rfl, hp, hpp⟩
    have hdat' : IsData (S.space b) t fl' pp := by
      refine hpp ▸ ?_
      have hmt : (d, pgnum va) ∈ mapSites (S.space b) t pp := by
        rw [hs]
        exact Finset.mem_insert_self _ _
      obtain ⟨⟨hd, hv⟩, hc, hpr, he⟩ := mem_mapSites.mp hmt
      have := h'.inv.mapped d hd _ hv hc hpr
      rw [hpp, ← he]
      exact this
    have ht : (tableSites (S.space b) t pp).card = 0 := by
      rw [tableSites_eq_empty hdat'.notTable, Finset.card_empty]
    have ht' : (tableSites (S.space b) S.mem pp).card = 0 := by
      rw [tableSites_eq_empty hdat.notTable, Finset.card_empty]
    rw [Vm.count, Vm.count, ht', show (Vm.space b { S with mem := t }) = S.space b from rfl, ht, hs,
      Finset.insert_eq_self.mpr hm]

end VmEffect

/-- The address of page number `v`. -/
def pageAddr (v : Nat) : Word := BitVec.ofNat 32 (4096 * v)

theorem pgnum_pageAddr {v : Nat} (hv : v < 2 ^ 20) : pgnum (pageAddr v) = v := by
  rw [pgnum_eq, pageAddr, BitVec.toNat_ofNat]
  omega

theorem pdx_pageAddr {v : Nat} (hv : v < 2 ^ 20) : pdx (pageAddr v) = v / 1024 := by
  rw [← pgnum_div, pgnum_pageAddr hv]

theorem ptx_pageAddr {v : Nat} (hv : v < 2 ^ 20) : ptx (pageAddr v) = v % 1024 := by
  rw [← pgnum_mod, pgnum_pageAddr hv]

/-- Page `p` is mapped at the first `n` page numbers of the only directory `d`. -/
structure Filled (b : Boot) (d p n : Nat) (S : Vm) (I : Set Nat) (fl : List Nat) : Prop where
  ok : VmOk b S I fl
  dirs : S.dirs = {d}
  data : IsData (S.space b) S.mem fl p
  out : p ∈ S.out
  entry : ∀ v < 2 ^ 20, S.mem.pteAt d v = if v < n then page2pa p ||| pteP ||| 0#32 else 0#32
  rows : ∀ i < 1024, n ≤ 1024 * i → present (S.mem.ram d i) = false

namespace Filled

variable {b : Boot} {d p n : Nat} {S : Vm} {I : Set Nat} {fl : List Nat}

theorem usable (h : Filled b d p n S I fl) : S.Usable b p :=
  ⟨h.out, fun _ hf => h.ok.inv.free.unique hf ▸ h.data.used, h.data.notDir, h.data.notTable⟩

theorem pgnum_entry (h : Filled b d p n S I fl) : pgnum (page2pa p ||| pteP ||| 0#32) = p := by
  rw [VmInv.entry_assoc]
  exact Osdi.pgnum_entry p _ (h.data.lt.trans_le h.ok.inv.np) (by decide)

theorem mapSites_eq (h : Filled b d p n S I fl) (hn : n ≤ 2 ^ 20) (q : Nat) :
    mapSites (S.space b) S.mem q = if q = p then (Finset.range n).image (Prod.mk d) else ∅ := by
  have hpr : present (page2pa p ||| pteP ||| 0#32) = true :=
    present_or_left (present_or_right present_pteP)
  have hmem : ∀ y : Nat × Nat, y ∈ mapSites (S.space b) S.mem q ↔ y.1 = d ∧ y.2 < n ∧ p = q := by
    intro y
    rw [mem_mapSites]
    simp only [Vm.space, h.dirs, Finset.mem_singleton, true_and]
    constructor
    · rintro ⟨⟨rfl, hv⟩, hp, he⟩
      rw [h.entry y.2 hv] at hp he
      split_ifs at hp he with hlt
      · exact ⟨rfl, hlt, h.pgnum_entry.symm.trans he⟩
      · simp at hp
    · rintro ⟨rfl, hlt, rfl⟩
      have he := h.entry y.2 (hlt.trans_le hn)
      rw [if_pos hlt] at he
      rw [he]
      exact ⟨⟨rfl, hlt.trans_le hn⟩, hpr, h.pgnum_entry⟩
  ext y
  rw [hmem]
  split_ifs with hq
  · simp only [Finset.mem_image, Finset.mem_range]
    constructor
    · rintro ⟨h1, h2, _⟩
      exact ⟨y.2, h2, Prod.ext h1.symm rfl⟩
    · rintro ⟨v, hv, rfl⟩
      exact ⟨rfl, hv, hq.symm⟩
  · simp [Ne.symm hq]

theorem card_mapSites (h : Filled b d p n S I fl) (hn : n ≤ 2 ^ 20) :
    (mapSites (S.space b) S.mem p).card = n := by
  rw [h.mapSites_eq hn, if_pos rfl, Finset.card_image_of_injective _ (Prod.mk_right_injective d),
    Finset.card_range]

theorem bounded (h : Filled b d p n S I fl) (hn : n < 65536) : S.Bounded b := by
  intro q
  by_cases hq : q = p
  · rw [hq, h.card_mapSites (by omega)]
    exact hn
  · rw [h.mapSites_eq (by omega), if_neg hq, Finset.card_empty]
    omega

/-- The first `65536` page numbers need 64 page tables. -/
theorem tabs_le (h : Filled b d p n S I fl) (hn : n ≤ 65536) : tabs S.mem d ≤ 64 := by
  have hsub : (Finset.range 1024).filter (fun i => present (S.mem.ram d i) = true) ⊆
      Finset.range 64 := by
    intro i hi
    obtain ⟨hlt, hp⟩ := Finset.mem_filter.mp hi
    by_contra hge
    rw [h.rows i (Finset.mem_range.mp hlt) (by simp at hge; omega)] at hp
    simp at hp
  simpa [tabs] using Finset.card_le_card hsub

theorem step (h : Filled b d p n S I fl) (hn : n < 65536) (hfl : fl ≠ []) :
    ∃ T fl', VmStep b S (.insert d p (pageAddr n) 0#32, 0) T ∧
      Filled b d p (n + 1) T (I \ {p}) fl' ∧ T.out = S.out ∧
      fl.length + tabs S.mem d ≤ fl'.length + tabs T.mem d := by
  have hd : d ∈ (S.space b).dirs := by simp [Vm.space, h.dirs]
  have hc : ∀ q, refs (S.space b) S.mem q + (0 : Nat → Nat) q < 65536 :=
    h.ok.count_lt (h.bounded hn)
  have hperm : (0#32).toNat < 4096 := by decide
  rcases h.ok.inv.pageInsert_spec (pageAddr n) hd rfl h.data hperm hc
    with ⟨hnil, _⟩ | ⟨t, fl', he, hinv, hlen, _, _, hmap⟩
  · exact absurd hnil hfl
  have hpg := pgnum_pageAddr (v := n) (by omega)
  rw [hpg] at hmap
  have hent : ∀ v < 2 ^ 20, t.pteAt d v =
      if v < n + 1 then page2pa p ||| pteP ||| 0#32 else 0#32 := by
    intro v hv
    rw [hmap.pte d hd v hv, h.entry v hv]
    by_cases h1 : v = n
    · simp [h1]
    · by_cases h2 : v < n
      · simp [h1, h2, h2.trans (Nat.lt_succ_self n)]
      · have h3 : ¬ v < n + 1 := by omega
        simp [h1, h2, h3]
  have hdat : IsData (S.space b) t fl' p := by
    have hp0 := hent n (by omega)
    rw [if_pos (Nat.lt_succ_self n)] at hp0
    have hm := hinv.mapped d hd n (by omega) rfl
      (by rw [hp0]; exact present_or_left (present_or_right present_pteP))
    rwa [hp0, h.pgnum_entry] at hm
  refine ⟨{ S with mem := t }, fl', ⟨⟨hd, h.usable, by decide⟩, by simp [Vm.exec, he]⟩,
    ⟨⟨hinv, fun q hq => ⟨hmap.npages ▸ (h.ok.out q hq).1, (h.ok.out q hq).2⟩⟩, h.dirs, hdat, h.out,
      hent, fun i hi hle => ?_⟩, rfl, hlen⟩
  have hs := hmap.slots d hd i hi (by omega)
  rw [show (Vm.mem { S with mem := t }) = t from rfl, hs]
  exact h.rows i hi (by omega)

/-- Mapping one page at `n` addresses, for any `n` up to 65536. -/
theorem run (h : Filled b d p 0 S I fl) (hfl : 64 < fl.length) (htabs : tabs S.mem d = 0)
    (n : Nat) (hn : n ≤ 65536) :
    ∃ es T I' fl', Reach (VmStep b) S es T ∧ Filled b d p n T I' fl' ∧ T.out = S.out ∧
      I \ {p} ⊆ I' ∧ fl.length ≤ fl'.length + tabs T.mem d := by
  induction n with
  | zero => exact ⟨[], S, I, fl, .init, h, rfl, Set.sdiff_subset, by omega⟩
  | succ n ih =>
    obtain ⟨es, T, I', fl', hr, hF, hout, hI, hlen⟩ := ih (by omega)
    have ht := hF.tabs_le (by omega)
    have hne : fl' ≠ [] := by
      rintro rfl
      simp at hlen
      omega
    obtain ⟨U, fl'', hs, hF', hout', hlen'⟩ := hF.step (by omega) hne
    refine ⟨_, U, _, fl'', hr.snoc hs, hF', hout'.trans hout, ?_, by omega⟩
    intro q hq
    exact ⟨hI hq, hq.2⟩

end Filled

/-- Right after boot, one directory and two data pages are taken from the free list. -/
theorem Filled.start {b : Boot} {s₀ : Mem} {d p q : Nat} {fl : List Nat}
    (hok : VmOk b ⟨s₀, ∅, ∅⟩ ∅ (d :: p :: q :: fl)) (hb : Vm.Bounded b ⟨s₀, ∅, ∅⟩) :
    ∃ S, Reach (BoundedStep b) ⟨s₀, ∅, ∅⟩ [(.newdir, 0), (.alloc 0#32, 0), (.alloc 0#32, 0)] S ∧
      Filled b d p 0 S {q, p} fl ∧ S.out = {q, p} ∧ tabs S.mem d = 0 := by
  have hplain : ∀ (s : Mem) (r : Nat), (s.take 0#32 r).ram = s.ram := fun s r => by simp [Mem.take]
  have hd20 : d < 2 ^ 20 := (hok.inv.free.lt d (by simp)).trans_le hok.inv.np
  have hdir : ∀ S : Vm, S.dirs = {d} → (∀ i, S.mem.ram d i = 0#32) → S.Bounded b := by
    intro S hS hr r
    have he : mapSites (S.space b) S.mem r = ∅ := by
      refine Finset.eq_empty_of_forall_notMem fun y hy => ?_
      obtain ⟨⟨hyd, _⟩, _, hpr, _⟩ := mem_mapSites.mp hy
      obtain rfl : y.1 = d := by simpa [Vm.space, hS] using hyd
      simp [Mem.pteAt, hr] at hpr
    rw [he, Finset.card_empty]
    omega
  obtain ⟨r₁, S₁, I₁, fl₁, he₁, heff₁, hok₁⟩ := hok.exec hb .newdir trivial
  cases heff₁ with
  | newdirNone hnil => simp at hnil
  | newdir hfl₁ =>
  obtain ⟨rfl, rfl⟩ := List.cons.inj hfl₁
  have hr₁ : ∀ i, (s₀.take allocZero d).ram d i = 0#32 := take_ram_self hd20
  have hb₁ : Vm.Bounded b ⟨s₀.take allocZero d, insert d ∅, ∅⟩ := hdir ⟨_, _, _⟩ rfl hr₁
  obtain ⟨r₂, S₂, I₂, fl₂, he₂, heff₂, hok₂⟩ := hok₁.exec hb₁ (.alloc 0#32) trivial
  cases heff₂ with
  | allocNone hnil => simp at hnil
  | alloc hfl₂ =>
  obtain ⟨rfl, rfl⟩ := List.cons.inj hfl₂
  have hr₂ : ∀ i, ((s₀.take allocZero d).take 0#32 p).ram d i = 0#32 := fun i => by
    rw [hplain, hr₁]
  have hb₂ : Vm.Bounded b ⟨(s₀.take allocZero d).take 0#32 p, insert d ∅, insert p ∅⟩ :=
    hdir ⟨_, _, _⟩ rfl hr₂
  obtain ⟨r₃, S₃, I₃, fl₃, he₃, heff₃, hok₃⟩ := hok₂.exec hb₂ (.alloc 0#32) trivial
  cases heff₃ with
  | allocNone hnil => simp at hnil
  | alloc hfl₃ =>
  obtain ⟨rfl, rfl⟩ := List.cons.inj hfl₃
  have hr₃ : ∀ i, (((s₀.take allocZero d).take 0#32 p).take 0#32 q).ram d i = 0#32 := fun i => by
    rw [hplain, hr₂]
  have hb₃ : Vm.Bounded b ⟨((s₀.take allocZero d).take 0#32 p).take 0#32 q, insert d ∅,
      insert q (insert p ∅)⟩ := hdir ⟨_, _, _⟩ rfl hr₃
  have hI : ∀ r ∈ insert q (insert p (∅ : Set Nat)), IsData _ _ fl r :=
    fun r hr => ((hok₃.inv.idle r).mp hr).1
  refine ⟨_, ((Reach.init.snoc ⟨⟨trivial, he₁⟩, hb₁⟩).snoc ⟨⟨trivial, he₂⟩, hb₂⟩).snoc
    ⟨⟨trivial, he₃⟩, hb₃⟩, ⟨?_, rfl, hI p (by simp), by simp, ?_, ?_⟩, rfl, ?_⟩
  · simpa using hok₃
  · intro v _
    simp [Mem.pteAt, hr₃]
  · intro i _ _
    simp [hr₃]
  · simp [tabs, hr₃]

theorem vmOk_160 :
    ∃ s₀ fl, pageInit ⟨160#32, 160#32, 0xF0200000#32⟩
      (bootMem ⟨160#32, 160#32, 0xF0200000#32⟩ fun _ _ => 0#32) =
        some s₀ ∧
      VmOk ⟨160#32, 160#32, 0xF0200000#32⟩ ⟨s₀, ∅, ∅⟩ ∅ (159 :: 158 :: 157 :: fl) ∧
      Vm.Bounded ⟨160#32, 160#32, 0xF0200000#32⟩ ⟨s₀, ∅, ∅⟩ ∧ 64 < fl.length := by
  obtain ⟨s₀, hs₀, hok, hb⟩ :=
    vmOk_init ⟨160#32, 160#32, 0xF0200000#32⟩ (fun _ _ => 0#32) (by decide) (by decide)
  obtain ⟨fl, hfl, hlen⟩ : ∃ fl, ((List.range (160#32 : Word).toNat).filter
      (madeFree ⟨160#32, 160#32, 0xF0200000#32⟩)).reverse = 159 :: 158 :: 157 :: fl ∧
      64 < fl.length :=
    ⟨((List.range (160#32 : Word).toNat).filter
      (madeFree ⟨160#32, 160#32, 0xF0200000#32⟩)).reverse.drop 3,
      by decide +kernel, by decide +kernel⟩
  rw [hfl] at hok
  exact ⟨s₀, fl, hs₀, hok, hb, hlen⟩

/-- In every run of `page_alloc`, `page_insert` and `page_remove` after `page_init` that never maps
a page at 65536 entries: `pp_ref` of each page of the pool is the number of entries that refer to
it; a page with a reference is not free; every legal call returns; a call frees exactly the pages
that lose their last reference, and inserting a page again where it is mapped keeps its count; and
an insertion that fails with `-E_NO_MEM` changes nothing. -/
theorem pageRef_exact (b : Boot) (ram : Nat → Nat → Word) (hnp : b.npages.toNat ≤ 2 ^ 20)
    (hnext : kernbase ≤ b.nextfree) :
    ∃ s₀, pageInit b (bootMem b ram) = some s₀ ∧
      ∀ es S, Reach (BoundedStep b) ⟨s₀, ∅, ∅⟩ es S →
        ∃ fl, FreeList S.mem fl ∧
          (∀ p < S.mem.npages, madeFree b p = true →
            (S.mem.pages p).ppRef.toNat = S.count b p) ∧
          (∀ p, S.count b p ≠ 0 → p ∉ fl) ∧
          (∀ op : VmOp, op.Legal b S → ∃ r T, S.exec op = some (r, T)) ∧
          (∀ e T, BoundedStep b S e T → ∃ fl', FreeList T.mem fl' ∧
            ∀ p, p ∉ fl → (p ∈ fl' ↔ S.count b p ≠ 0 ∧ T.count b p = 0)) ∧
          (∀ d pp va perm T, BoundedStep b S (.insert d pp va perm, 0) T →
            present (S.mem.pteAt d (pgnum va)) = true → pgnum (S.mem.pteAt d (pgnum va)) = pp →
            T.count b pp = S.count b pp) ∧
          ∀ d pp va perm T, BoundedStep b S (.insert d pp va perm, -eNoMem) T → T = S := by
  obtain ⟨s₀, hs₀, hok₀, hb₀⟩ := vmOk_init b ram hnp hnext
  refine ⟨s₀, hs₀, fun es S hreach => ?_⟩
  obtain ⟨hb, I, fl, hok⟩ := vmOk_reach hok₀ hb₀ hreach
  refine ⟨fl, hok.inv.free, fun p hlt hp => hok.ref hb hlt hp, fun p => hok.notMem_free, ?_, ?_,
    ?_, ?_⟩
  · intro op hop
    obtain ⟨r, T, _, _, he, _⟩ := hok.exec hb op hop
    exact ⟨r, T, he⟩
  · intro e T hs
    obtain ⟨I', fl', heff, hok'⟩ := hok.step hb hs.1
    exact ⟨fl', hok'.inv.free, fun p hp => heff.freed_iff hok hok' hp⟩
  · intro d pp va perm T hs hp hpp
    obtain ⟨I', fl', heff, hok'⟩ := hok.step hb hs.1
    exact heff.count_reinsert hok hok' hp hpp
  · intro d pp va perm T hs
    obtain ⟨I', fl', heff, _⟩ := hok.step hb hs.1
    generalize hr : (VmOp.insert d pp va perm, -eNoMem) = e at heff
    cases heff with
    | insertNone _ => rfl
    | _ => simp [eNoMem] at hr

/-- Pages outside the pool are not counted: `page_init` sets `pp_ref` of page 0 to one
although no entry refers to it. -/
theorem pageRef_reserved :
    let b : Boot := ⟨160#32, 160#32, 0xF0200000#32⟩
    ∃ s₀, pageInit b (bootMem b fun _ _ => 0#32) = some s₀ ∧
      Reach (BoundedStep b) ⟨s₀, ∅, ∅⟩ [] ⟨s₀, ∅, ∅⟩ ∧ 0 < s₀.npages ∧
      (s₀.pages 0).ppRef.toNat = 1 ∧ Vm.count b ⟨s₀, ∅, ∅⟩ 0 = 0 := by
  intro b
  obtain ⟨s₀, hs₀, hn, _, _, href⟩ := pageInit_spec b (fun _ _ => 0#32) (by decide)
  refine ⟨s₀, hs₀, .init, by rw [hn]; decide, ?_, by simp [Vm.count, mapSites,
    tableSites, Vm.space]⟩
  rw [href 0 (by decide) (by decide)]
  rfl

theorem pageRef_exact_run :
    let b : Boot := ⟨160#32, 160#32, 0xF0200000#32⟩
    ∃ s₀ S, pageInit b (bootMem b fun _ _ => 0#32) = some s₀ ∧
      Reach (BoundedStep b) ⟨s₀, ∅, ∅⟩ [(.newdir, 0), (.alloc 0#32, 0), (.alloc 0#32, 0),
        (.insert 159 158 (pageAddr 0) 0#32, 0), (.insert 159 158 (pageAddr 1) 0#32, 0)] S ∧
      (S.mem.pages 158).ppRef.toNat = 2 := by
  intro b
  obtain ⟨s₀, hs₀, hall⟩ := pageRef_exact b (fun _ _ => 0#32) (by decide) (by decide)
  obtain ⟨s₁, fl, hs₁, hok, hb, hlen⟩ := vmOk_160
  obtain rfl : s₁ = s₀ := Option.some.inj (hs₁.symm.trans hs₀)
  obtain ⟨S₁, hrun₁, hF₁, _, _⟩ := Filled.start hok hb
  obtain ⟨S₂, fl₂, hs₂, hF₂, _, hle⟩ := hF₁.step (by decide) (by rintro rfl; simp at hlen)
  have hne : fl₂ ≠ [] := by
    rintro rfl
    have ht := hF₂.tabs_le (by decide)
    simp at hle
    omega
  obtain ⟨S, _, hs, hF, _⟩ := hF₂.step (by decide) hne
  have hrun := (hrun₁.snoc ⟨hs₂, hF₂.bounded (by decide)⟩).snoc ⟨hs, hF.bounded (by decide)⟩
  obtain ⟨_, _, href, _⟩ := hall _ S hrun
  refine ⟨s₁, S, hs₀, hrun, ?_⟩
  rw [href 158 hF.data.lt (by decide), Vm.count, hF.card_mapSites (by decide),
    tableSites_eq_empty hF.data.notTable]
  rfl

end NctuCourses.Osdi
