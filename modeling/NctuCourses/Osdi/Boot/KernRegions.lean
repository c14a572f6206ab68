import NctuCourses.Osdi.Boot.KernDir

namespace NctuCourses.Osdi

/-- The slots of `S` that have no page table yet. -/
def KernState.missing (a : KernState) (S : Finset Nat) : Finset Nat :=
  S.filter fun i => a.tables i = none

/-- Page tables have been added for the slots of `S`, with pages from the front of the free list. -/
structure Grown (a a' : KernState) (S : Finset Nat) : Prop where
  tables : ∀ i, a'.tables i = none ↔ a.tables i = none ∧ i ∉ S
  suffix : a'.free <:+ a.free
  pages : a.free.length = a'.free.length + (a.missing S).card

namespace Grown

variable {a a' a'' : KernState} {S T : Finset Nat}

theorem refl (a : KernState) : Grown a a ∅ where
  tables := by simp
  suffix := List.suffix_rfl
  pages := by simp [KernState.missing]

theorem missing_union (h : Grown a a' S) (T : Finset Nat) :
    (a.missing (S ∪ T)).card = (a.missing S).card + (a'.missing T).card :=
  card_filter_union h.tables T

theorem trans (h : Grown a a' S) (h' : Grown a' a'' T) : Grown a a'' (S ∪ T) where
  tables i := by
    rw [h'.tables i, h.tables i, Finset.mem_union]
    tauto
  suffix := h'.suffix.trans h.suffix
  pages := by
    rw [h.pages, h'.pages, h.missing_union T]
    omega

end Grown

namespace Describes

variable {k : Nat} {h : Option Nat} {X : List Nat} {a : KernState} {s : Mem}

theorem mapPage (hd : Describes k h X a s) (va w : Word) (hs : pdx va ≠ selfSlot)
    (hlen : (a.missing {pdx va}).card ≤ a.free.length) :
    ∃ pte t a', pgdirWalk (kva k) va true s = some (some pte, t) ∧
      (store pte w t).npages = s.npages ∧ Describes k h X a' (store pte w t) ∧ Grown a a' {pdx va} ∧
      a'.entry = Function.update a.entry (pgnum va) w := by
  cases ht : a.tables (pdx va) with
  | some p =>
    refine ⟨_, s, _, hd.walk_some va ht true, rfl, hd.store_pte va ht w, ?_, rfl⟩
    have hmissing : a.missing {pdx va} = ∅ := by
      simp [KernState.missing, Finset.filter_singleton, ht]
    constructor
    · intro i
      rw [KernState.setEntry_tables, Finset.mem_singleton]
      constructor
      · intro hi
        refine ⟨hi, fun he => ?_⟩
        rw [he, ht] at hi
        cases hi
      · exact And.left
    · exact List.suffix_rfl
    · simp [hmissing]
  | none =>
    have hmissing : a.missing {pdx va} = {pdx va} := by
      simp [KernState.missing, Finset.filter_singleton, ht]
    rw [hmissing, Finset.card_singleton] at hlen
    cases hf : a.free with
    | nil => simp [hf] at hlen
    | cons p l =>
      obtain ⟨hwalk, h1⟩ := hd.walk_create va hs ht hf
      have ht1 : (a.newTable (pdx va) p).tables (pdx va) = some p := by simp
      refine ⟨_, _, _, hwalk, rfl, h1.store_pte va ht1 w, ?_, rfl⟩
      constructor
      · intro i
        by_cases hi : i = pdx va
        · simp [hi]
        · simp [hi]
      · simp [hf]
      · simp [hmissing, hf]

theorem bootMapRegion_spec (hd : Describes k h X a s) (va size pa perm : Word) {n : Nat}
    (hn : size.toNat / 4096 = n) (hs : ∀ i < n, vpnAt va i / 1024 ≠ selfSlot)
    (hlen : (a.missing (pageTables va n)).card ≤ a.free.length) :
    ∃ t a', bootMapRegion (kva k) va size pa perm s = some t ∧ t.npages = s.npages ∧
      Describes k h X a' t ∧ Grown a a' (pageTables va n) ∧
      ∀ v < 2 ^ 20, a'.entry v = ((⟨va, size, pa, perm⟩ : Region).entry v).getD (a.entry v) := by
  have hn20 : n ≤ 2 ^ 20 := by
    have := size.isLt
    omega
  have hloop := bootMapRegion_loop False (kva k) va size pa perm hn
    (fun i t => ∃ a', t.npages = s.npages ∧ Describes k h X a' t ∧ Grown a a' (pageTables va i) ∧
      MapsRange va pa perm i a.entry a'.entry)
    ?_ ⟨a, rfl, hd, Grown.refl a, MapsRange.zero _⟩
  · obtain ⟨t, ht, a', hnp, h1, hg, hent⟩ := hloop.resolve_left fun hout => hout.1
    refine ⟨t, a', ht, hnp, h1, hg, fun v hv => ?_⟩
    exact Region.entry_getD (r := ⟨va, size, pa, perm⟩) (by rw [hn]; exact hent.outside)
      (by rw [hn]; exact hent.inside) hv
  · rintro i hi t ⟨a', hnp, h1, hg, hent⟩
    have hslot : pdx (va + BitVec.ofNat 32 (4096 * i)) ≠ selfSlot := by
      rw [pdx_vpnAt]
      exact hs i hi
    have hneed : (a'.missing {pdx (va + BitVec.ofNat 32 (4096 * i))}).card ≤ a'.free.length := by
      have hle : (a.missing (pageTables va (i + 1))).card ≤ a.free.length :=
        (Finset.card_le_card (Finset.filter_subset_filter _ (pageTables_mono hi))).trans hlen
      rw [pageTables_union, hg.missing_union, hg.pages] at hle
      omega
    obtain ⟨pte, u, a₂, hwalk, hnp2, h2, hg2, he⟩ :=
      h1.mapPage _ (pa + BitVec.ofNat 32 (4096 * i) ||| perm ||| pteP) hslot hneed
    refine .inr ⟨pte, u, hwalk, a₂, hnp2.trans hnp, h2, ?_, hent.succ (by omega) fun v _ => ?_⟩
    · rw [pageTables_union]
      exact hg.trans hg2
    · rw [he, pgnum_vpnAt, Function.update_apply]

theorem mapRegions (hd : Describes k h X a s) (rs : List Region)
    (hs : ∀ r ∈ rs, ∀ i < r.size.toNat / 4096, vpnAt r.va i / 1024 ≠ selfSlot)
    (hlen : (a.missing (regionsTables rs)).card ≤ a.free.length) :
    ∃ t a', rs.foldlM (fun s r => bootMapRegion (kva k) r.va r.size r.pa r.perm s) s = some t ∧
      t.npages = s.npages ∧ Describes k h X a' t ∧ Grown a a' (regionsTables rs) ∧
      ∀ v < 2 ^ 20, a'.entry v = regionsEntry rs (a.entry v) v := by
  induction rs generalizing s a with
  | nil => exact ⟨s, a, rfl, rfl, hd, by simpa [regionsTables] using Grown.refl a, fun _ _ => rfl⟩
  | cons r rs ih =>
    have htables : regionsTables (r :: rs) = pageTables r.va (r.size.toNat / 4096) ∪
        regionsTables rs := rfl
    rw [htables] at hlen ⊢
    have hfirst : (a.missing (pageTables r.va (r.size.toNat / 4096))).card ≤ a.free.length := by
      refine (Finset.card_le_card ?_).trans hlen
      exact Finset.filter_subset_filter _ Finset.subset_union_left
    obtain ⟨t, a₁, ht, hnp, h1, hg, hent⟩ :=
      hd.bootMapRegion_spec r.va r.size r.pa r.perm rfl (hs r (by simp)) hfirst
    have hrest : (a₁.missing (regionsTables rs)).card ≤ a₁.free.length := by
      rw [hg.missing_union, hg.pages] at hlen
      omega
    obtain ⟨u, a₂, hu, hnp2, h2, hg2, hent2⟩ := ih h1 (fun r' hr' => hs r' (by simp [hr'])) hrest
    refine ⟨u, a₂, ?_, hnp2.trans hnp, h2, hg.trans hg2, ?_⟩
    · rw [List.foldlM_cons, ht]
      exact hu
    · intro v hv
      rw [hent2 v hv, regionsEntry_cons, hent v hv]

end Describes

end NctuCourses.Osdi
