import NctuCourses.Osdi.Boot.KernRegions

namespace NctuCourses.Osdi

open Lib

/-- At most the links of the pages `l` differ. -/
structure Relinked (l : List Nat) (s t : Mem) : Prop where
  npages : t.npages = s.npages
  num : t.numFreePages = s.numFreePages
  ram : t.ram = s.ram
  ref : ∀ p, (t.pages p).ppRef = (s.pages p).ppRef
  off : ∀ p, p ∉ l → (t.pages p).ppLink = (s.pages p).ppLink

theorem Relinked.refl (l : List Nat) (s : Mem) : Relinked l s s :=
  ⟨rfl, rfl, rfl, fun _ => rfl, fun _ _ => rfl⟩

theorem Relinked.trans {l : List Nat} {s t u : Mem} (h : Relinked l s t) (h' : Relinked l t u) :
    Relinked l s u where
  npages := h'.npages.trans h.npages
  num := h'.num.trans h.num
  ram := h'.ram.trans h.ram
  ref p := (h'.ref p).trans (h.ref p)
  off p hp := (h'.off p hp).trans (h.off p hp)

theorem Relinked.perm {l m : List Nat} {s t : Mem} (h : Relinked l s t) (hp : l.Perm m) :
    Relinked m s t :=
  ⟨h.npages, h.num, h.ram, h.ref, fun p hm => h.off p fun hl => hm (hp.mem_iff.mp hl)⟩

/-- The page at the end of a list, if it has one, gets the link `x`. -/
def Mem.relink (s : Mem) (tail x : Option Nat) : Mem := tail.elim s fun q => s.setLink q x

section Relink

variable {l : List Nat} (s : Mem) (x : Option Nat)

theorem putTail_low (t : Halves) :
    putTail false x t s = ({ t with pp1 := if t.tp0 = none then x else t.pp1 },
      s.relink t.tp0 x) := by
  obtain ⟨pp1, pp2, tp0, tp1⟩ := t
  cases tp0 <;> simp [putTail, Mem.relink]

theorem putTail_high (t : Halves) :
    putTail true x t s = ({ t with pp2 := if t.tp1 = none then x else t.pp2 },
      s.relink t.tp1 x) := by
  obtain ⟨pp1, pp2, tp0, tp1⟩ := t
  cases tp1 <;> simp [putTail, Mem.relink]

theorem relink_last {a : Nat} (ha : l.getLast? = some a) :
    ((s.relink l.getLast? x).pages a).ppLink = x := by
  simp [Mem.relink, ha, Mem.setLink]

theorem relink_other {a : Nat} (ha : l.getLast? ≠ some a) :
    (s.relink l.getLast? x).pages a = s.pages a := by
  cases hl : l.getLast? with
  | none => rfl
  | some q =>
    have hne : a ≠ q := fun he => ha (by rw [hl, he])
    simp [Mem.relink, Mem.setLink, Function.update_of_ne hne]

theorem relink_notMem {a : Nat} (ha : a ∉ l) : (s.relink l.getLast? x).pages a = s.pages a :=
  relink_other s x fun he => ha (List.mem_of_getLast? he)

theorem chained_relink (h : Chained (fun p => (s.pages p).ppLink) l) (hnd : l.Nodup) :
    Chained (fun p => ((s.relink l.getLast? x).pages p).ppLink) l := by
  apply h.congr hnd
  intro a _ ha
  rw [relink_other s x ha]

theorem relinked {m : List Nat} (hm : ∀ a ∈ l, a ∈ m) : Relinked m s (s.relink l.getLast? x) := by
  cases hl : l.getLast? with
  | none => exact Relinked.refl m s
  | some q =>
    have hq : q ∈ m := hm q (List.mem_of_getLast? hl)
    refine ⟨rfl, rfl, rfl, ?_, ?_⟩
    · intro p
      by_cases hp : p = q
      · simp [Mem.relink, Mem.setLink, hp]
      · simp [Mem.relink, Mem.setLink, Function.update_of_ne hp]
    · intro p hp
      have hne : p ≠ q := fun he => hp (he ▸ hq)
      simp [Mem.relink, Mem.setLink, Function.update_of_ne hne]

end Relink

/-- The two lists that the loop of `check_page_free_list` builds, and the pages to come. -/
structure Halved (low high rest : List Nat) (cur : Option Nat) (t : Halves) (s : Mem) : Prop where
  pp1 : t.pp1 = low.head?
  tp0 : t.tp0 = low.getLast?
  pp2 : t.pp2 = high.head?
  tp1 : t.tp1 = high.getLast?
  lowChain : Chained (fun p => (s.pages p).ppLink) low
  highChain : Chained (fun p => (s.pages p).ppLink) high
  todo : Linked (fun p => (s.pages p).ppLink) cur rest
  nodup : (low ++ high ++ rest).Nodup

namespace Halved

variable {low high rest : List Nat} {cur : Option Nat} {t : Halves} {s : Mem} {pp : Nat}

theorem head_or (l : List Nat) (x : Option Nat) :
    (if l.getLast? = none then x else l.head?) = l.head?.or x := by
  cases l <;> simp

theorem head_snoc (l : List Nat) (a : Nat) : l.head?.or (some a) = (l ++ [a]).head? := by
  cases l <;> simp

theorem putLow (h : Halved low high (pp :: rest) cur t s) :
    Halved (low ++ [pp]) high rest ((s.relink t.tp0 (some pp)).pages pp).ppLink
      { t with pp1 := if t.tp0 = none then some pp else t.pp1, tp0 := some pp }
        (s.relink t.tp0 (some pp)) := by
  have hnd := h.nodup
  simp only [List.append_assoc, List.nodup_append, List.nodup_cons, List.mem_append, List.mem_cons]
    at hnd
  obtain ⟨hl, ⟨hh, ⟨hpp, hr⟩, hdis⟩, hdis'⟩ := hnd
  have hkeep : ∀ a, a ∈ high ∨ a ∈ pp :: rest →
      ((s.relink low.getLast? (some pp)).pages a).ppLink = (s.pages a).ppLink := by
    intro a ha
    rw [relink_notMem]
    intro hlow
    exact hdis' a hlow a (by simpa using ha) rfl
  rw [h.tp0]
  refine ⟨?_, ?_, h.pp2, h.tp1, ?_, ?_, ?_, ?_⟩
  · rw [h.pp1, head_or, head_snoc]
  · simp
  · exact (chained_relink s _ h.lowChain hl).snoc fun b hb => relink_last s _ hb
  · exact h.highChain.congr hh fun a ha _ => hkeep a (.inl ha)
  · rw [hkeep pp (by simp)]
    exact h.todo.2.congr fun a ha => hkeep a (.inr (List.mem_cons_of_mem pp ha))
  · have hp : (low ++ [pp] ++ high ++ rest).Perm (low ++ high ++ pp :: rest) := by
      simp only [List.append_assoc]
      apply List.Perm.append_left
      simpa using (@List.perm_middle _ pp high rest).symm
    exact hp.nodup_iff.mpr h.nodup

theorem putHigh (h : Halved low high (pp :: rest) cur t s) :
    Halved low (high ++ [pp]) rest ((s.relink t.tp1 (some pp)).pages pp).ppLink
      { t with pp2 := if t.tp1 = none then some pp else t.pp2, tp1 := some pp }
        (s.relink t.tp1 (some pp)) := by
  have hnd := h.nodup
  simp only [List.append_assoc, List.nodup_append, List.nodup_cons, List.mem_append, List.mem_cons]
    at hnd
  obtain ⟨hl, ⟨hh, ⟨hpp, hr⟩, hdis⟩, hdis'⟩ := hnd
  have hkeep : ∀ a, a ∈ low ∨ a ∈ pp :: rest →
      ((s.relink high.getLast? (some pp)).pages a).ppLink = (s.pages a).ppLink := by
    intro a ha
    rw [relink_notMem]
    intro hhigh
    cases ha with
    | inl ha => exact hdis' a ha a (.inl hhigh) rfl
    | inr ha => exact hdis a hhigh a (by simpa using ha) rfl
  rw [h.tp1]
  refine ⟨h.pp1, h.tp0, ?_, ?_, ?_, ?_, ?_, ?_⟩
  · rw [h.pp2, head_or, head_snoc]
  · simp
  · exact h.lowChain.congr hl fun a ha _ => hkeep a (.inl ha)
  · exact (chained_relink s _ h.highChain hh).snoc fun b hb => relink_last s _ hb
  · rw [hkeep pp (by simp)]
    exact h.todo.2.congr fun a ha => hkeep a (.inr (List.mem_cons_of_mem pp ha))
  · have he : low ++ (high ++ [pp]) ++ rest = low ++ high ++ pp :: rest := by simp
    rw [he]
    exact h.nodup

theorem splitLoop (pdxLimit : Nat) {n : Nat} (h : Halved low high rest cur t s)
    (hn : rest.length ≤ n) :
    ∃ t' s' low' high', splitLoop pdxLimit n cur t s = some (t', s') ∧
    Halved low' high' [] none t' s' ∧
      (low' ++ high').Perm (low ++ high ++ rest) ∧ Relinked (low ++ high ++ rest) s s' := by
  induction rest generalizing low high cur t s n with
  | nil =>
    obtain rfl : cur = none := h.todo
    refine ⟨t, s, low, high, ?_, h, by simp, Relinked.refl _ s⟩
    cases n <;> rfl
  | cons pp rest ih =>
    obtain rfl : cur = some pp := h.todo.1
    cases n with
    | zero => simp at hn
    | succ n =>
      have hn' : rest.length ≤ n := by simpa using hn
      by_cases hlim : pdxLimit ≤ pdx (page2pa pp)
      · obtain ⟨t', s', low', high', hrun, hfin, hperm, hrel⟩ := ih h.putHigh hn'
        have hall : low ++ (high ++ [pp]) ++ rest = low ++ high ++ pp :: rest := by simp
        rw [hall] at hperm hrel
        refine ⟨t', s', low', high', ?_, hfin, hperm, Relinked.trans ?_ hrel⟩
        · rw [Osdi.splitLoop]
          simp only [hlim, decide_true, putTail_high, if_true]
          exact hrun
        · rw [h.tp1]
          apply relinked
          simp +contextual
      · obtain ⟨t', s', low', high', hrun, hfin, hperm, hrel⟩ := ih h.putLow hn'
        have hall : (low ++ [pp] ++ high ++ rest).Perm (low ++ high ++ pp :: rest) := by
          simp only [List.append_assoc]
          apply List.Perm.append_left
          simpa using (@List.perm_middle _ pp high rest).symm
        refine ⟨t', s', low', high', ?_, hfin, hperm.trans hall, Relinked.trans ?_ (hrel.perm hall)⟩
        · rw [Osdi.splitLoop]
          simp only [hlim, decide_false, putTail_low, Bool.false_eq_true, if_false]
          exact hrun
        · rw [h.tp0]
          apply relinked
          simp +contextual

theorem join (h : Halved low high [] none t s) :
    Linked (fun p => (((s.relink t.tp1 none).relink t.tp0 t.pp2).pages p).ppLink)
      (low.head?.or high.head?)
      (low ++ high) := by
  have hnd := h.nodup
  simp only [List.append_nil, List.nodup_append] at hnd
  obtain ⟨hl, hh, hdis⟩ := hnd
  rw [h.tp0, h.tp1]
  have hlow : ∀ a ∈ low, (s.relink high.getLast? none).pages a = s.pages a := by
    intro a ha
    exact relink_notMem s _ fun ha' => hdis a ha a ha' rfl
  have hhigh : ∀ a ∈ high, ((s.relink high.getLast? none).relink low.getLast? t.pp2).pages a =
      (s.relink high.getLast? none).pages a := by
    intro a ha
    exact relink_notMem _ _ fun ha' => hdis a ha' a ha rfl
  have h1 : Linked (fun p => ((s.relink high.getLast? none).pages p).ppLink) high.head? high := by
    have hnil : Linked (fun p => ((s.relink high.getLast? none).pages p).ppLink) none [] := rfl
    simpa using (chained_relink s none h.highChain hh).linked hnil fun a ha => relink_last s _ ha
  have h2 : Linked (fun p =>
      (((s.relink high.getLast? none).relink low.getLast? t.pp2).pages p).ppLink) high.head?
      high := by
    apply h1.congr
    intro a ha
    rw [hhigh a ha]
  have h3 : Chained (fun p => ((s.relink high.getLast? none).pages p).ppLink) low := by
    apply h.lowChain.congr hl
    intro a ha _
    rw [hlow a ha]
  apply (chained_relink _ t.pp2 h3 hl).linked h2
  intro a ha
  rw [relink_last _ _ ha, h.pp2]

end Halved

theorem lowFirst_spec (pdxLimit : Nat) {s : Mem} {fl : List Nat} (hf : FreeList s fl) :
    ∃ t fl', lowFirst pdxLimit s = some t ∧ FreeList t fl' ∧ fl'.Perm fl ∧ t.npages = s.npages ∧
      t.ram = s.ram ∧ ∀ p, (t.pages p).ppRef = (s.pages p).ppRef := by
  have h0 : Halved [] [] fl s.pageFreeList ⟨none, none, none, none⟩ s :=
    ⟨rfl, rfl, rfl, rfl, List.IsChain.nil, List.IsChain.nil, hf.linked, hf.nodup⟩
  obtain ⟨t, u, low, high, hrun, h1, hperm, hrel⟩ := h0.splitLoop pdxLimit hf.length_le
  simp only [List.nil_append] at hperm hrel
  have hmem : ∀ a, a ∈ low ∨ a ∈ high → a ∈ fl := by
    intro a ha
    exact hperm.mem_iff.mp (List.mem_append.mpr ha)
  have hrel' : Relinked fl s ((u.relink t.tp1 none).relink t.tp0 t.pp2) := by
    apply hrel.trans
    rw [h1.tp0, h1.tp1]
    exact (relinked u none fun a ha => hmem a (.inr ha)).trans (relinked _ _ fun a ha =>
      hmem a (.inl ha))
  refine ⟨{ (u.relink t.tp1 none).relink t.tp0 t.pp2 with pageFreeList := low.head?.or high.head? },
    low ++ high, ?_, ⟨h1.join, ?_, ?_, ?_, ?_⟩, hperm, hrel'.npages, hrel'.ram, hrel'.ref⟩
  · rw [lowFirst, hrun]
    have hpp1 : (if t.tp0 = none then t.pp2 else t.pp1) = low.head?.or high.head? := by
      rw [h1.tp0, h1.pp1, h1.pp2, Halved.head_or]
    have hpp2 : (if t.tp1 = none then none else t.pp2) = t.pp2 := by
      rw [h1.tp1, h1.pp2]
      cases high <;> simp
    simp only [Option.bind_eq_bind, Option.bind_some, putTail_high, putTail_low, hpp2, hpp1]
  · intro p hp
    rw [show Mem.npages _ = s.npages from hrel'.npages]
    exact hf.lt p (hperm.mem_iff.mp hp)
  · rw [show Mem.numFreePages _ = s.numFreePages from hrel'.num, hf.num, hperm.length_eq]
  · intro p hp
    exact (hrel'.ref p).trans (hf.ref p (hperm.mem_iff.mp hp))
  · intro p hp
    have hp' : p ∉ fl := fun h => hp (hperm.mem_iff.mpr h)
    exact (hrel'.off p hp').trans (hf.off p hp')

theorem listFrom_eq {s : Mem} {n : Nat} {head : Option Nat} {l : List Nat}
    (hl : Linked (fun p => (s.pages p).ppLink) head l) (hn : l.length ≤ n) :
    listFrom s n head = some l := by
  induction l generalizing head n with
  | nil =>
    obtain rfl : head = none := hl
    cases n <;> rfl
  | cons p l ih =>
    obtain ⟨rfl, ht⟩ := hl
    cases n with
    | zero => simp at hn
    | succ n =>
      rw [listFrom, ih ht (by simpa using hn)]
      rfl

theorem FreeList.freePages {s : Mem} {fl : List Nat} (hf : FreeList s fl) : freePages s = some fl :=
  listFrom_eq hf.linked hf.length_le

theorem bind_eq {α β : Type} {o : Option α} {x : α} (h : o = some x) (f : α → Option β) :
    (o >>= f) = f x := by
  rw [h]
  rfl

theorem assert_true {p : Prop} [Decidable p] (hp : p) : assert p = some () := if_pos hp

theorem assert_bind {β : Type} {p : Prop} [Decidable p] (hp : p) (f : Unit → Option β) :
    (assert p >>= f) = f () :=
  bind_eq (assert_true hp) f

/-- The pages that may be on the free list when the kernel and its tables end at page `f`. -/
def Allowed (f p : Nat) : Prop := p ≠ 0 ∧ p ≠ 7 ∧ (p < 160 ∨ f ≤ p)

theorem page2pa_lt_extphysmem {p : Nat} (hp : p < 65536) : page2pa p < extphysmem ↔ p < 256 := by
  have hext : extphysmem.toNat = 1048576 := by decide
  rw [BitVec.lt_def, page2pa_toNat p (by omega), hext]
  omega

theorem kva_toNat {p : Nat} (hp : p < 65536) : (kva p).toNat = 4096 * p + 4026531840 := by
  have hkb : kernbase.toNat = 4026531840 := by decide
  rw [kva, BitVec.toNat_add, page2pa_toNat p (by omega), hkb]
  omega

theorem kva_le {p q : Nat} (hp : p < 65536) (hq : q < 65536) : kva p ≤ kva q ↔ p ≤ q := by
  rw [BitVec.le_def, kva_toNat hp, kva_toNat hq]
  omega

theorem forM_some {α : Type} {f : α → Option Unit} {l : List α} (h : ∀ x ∈ l, f x = some ()) :
    l.forM f = some () := by
  induction l with
  | nil => rfl
  | cons x l ih =>
    have hx : (x :: l).forM f = f x >>= fun _ => l.forM f := rfl
    rw [hx, bind_eq (h x (by simp))]
    exact ih fun y hy => h y (List.mem_cons_of_mem x hy)

theorem of_bind_eq_some {α β : Type} {o : Option α} {f : α → Option β} {y : β}
    (h : (o >>= f) = some y) :
    ∃ x, o = some x ∧ f x = some y := Option.bind_eq_some_iff.mp h

theorem of_assert_bind {β : Type} {p : Prop} [Decidable p] {f : Unit → Option β} {y : β}
    (h : (assert p >>= f) = some y) : p ∧ f () = some y := by
  by_cases hp : p
  · rw [assert_bind hp] at h
    exact ⟨hp, h⟩
  · rw [assert, if_neg hp] at h
    cases h

theorem of_forM_some {α : Type} {f : α → Option Unit} {l : List α} (h : l.forM f = some ()) :
    ∀ x ∈ l, f x = some () := by
  induction l with
  | nil => simp
  | cons y l ih =>
    have hy : (f y >>= fun _ => l.forM f) = some () := h
    obtain ⟨_, hfy, hl⟩ := of_bind_eq_some hy
    intro x hx
    cases List.mem_cons.mp hx with
    | inl he => exact he ▸ hfy
    | inr hx => exact ih hl x hx

theorem checkFreePage_allowed {n f p : Nat} (hn : n ≤ 65536) (hp : p < n) (hf : 256 < f)
    (hf' : f < 65536) (ha : Allowed f p) : checkFreePage n (kva f) p = some () := by
  obtain ⟨h0, h7, hr⟩ := ha
  have hne : ∀ w : Word, pgnum w ≠ p → page2pa p ≠ w := by
    intro w hw he
    exact hw (by rw [← he, pgnum_page2pa p (by omega)])
  have a0 : page2pa p ≠ 0#32 := hne _ (by rw [show pgnum 0#32 = 0 by decide]; omega)
  have a1 : page2pa p ≠ iophysmem := hne _ (by rw [show pgnum iophysmem = 160 by decide]; omega)
  have a2 : page2pa p ≠ extphysmem - pgsize :=
    hne _ (by rw [show pgnum (extphysmem - pgsize) = 255 by decide]; omega)
  have a3 : page2pa p ≠ extphysmem := hne _ (by rw [show pgnum extphysmem = 256 by decide]; omega)
  have a4 : page2pa p ≠ mpentryPaddr := hne _ (by rw [show pgnum mpentryPaddr = 7 by decide]; omega)
  rw [checkFreePage, assert_bind hp, assert_bind a0, assert_bind a1, assert_bind a2, assert_bind a3]
  have hlt := page2pa_lt_extphysmem (p := p) (by omega)
  by_cases h256 : page2pa p < extphysmem
  · rw [if_pos h256, bind_eq rfl, assert_true a4]
  · have hge : kva p ≥ kva f := (kva_le hf' (by omega)).mpr (by rw [hlt] at h256; omega)
    rw [if_neg h256, bind_eq (page2kva_of_lt hp), assert_bind hge, assert_true a4]

namespace FreeList

variable {s t : Mem} {fl : List Nat} {onlyLowMemory : Bool} {firstFreePage : Word}

theorem checkPageFreeList_eq (hf : FreeList s fl) (hne : fl ≠ []) (onlyLowMemory : Bool)
    (firstFreePage : Word) :
    ∃ s₁ fl', FreeList s₁ fl' ∧ fl'.Perm fl ∧ s₁.npages = s.npages ∧ s₁.ram = s.ram ∧
      (∀ p, (s₁.pages p).ppRef = (s.pages p).ppRef) ∧
      checkPageFreeList onlyLowMemory firstFreePage s = (do
        let t ← fl'.foldlM (poisonPage (if onlyLowMemory then 1 else npdentries)) s₁
        fl'.forM (checkFreePage t.npages firstFreePage)
        assert (0 < fl'.countP fun pp => page2pa pp < extphysmem)
        assert (0 < fl'.countP fun pp => ¬page2pa pp < extphysmem)
        some t) := by
  have hhead : s.pageFreeList ≠ none := fun he => hne (hf.linked.head_eq_none_iff.mp he)
  cases onlyLowMemory with
  | false =>
    refine ⟨s, fl, hf, List.Perm.refl _, rfl, rfl, fun _ => rfl, ?_⟩
    rw [checkPageFreeList, assert_bind hhead, if_neg Bool.false_ne_true, bind_eq rfl]
    beta_reduce
    rw [bind_eq hf.freePages]
  | true =>
    obtain ⟨s₁, fl', hs₁, hf', hp, hn, hram, href⟩ :=
      lowFirst_spec (if true = true then 1 else npdentries) hf
    refine ⟨s₁, fl', hf', hp, hn, hram, href, ?_⟩
    rw [checkPageFreeList, assert_bind hhead, if_pos rfl, bind_eq hs₁]
    beta_reduce
    rw [bind_eq hf'.freePages]

theorem ne_nil_of_check (hf : FreeList s fl)
    (h : checkPageFreeList onlyLowMemory firstFreePage s = some t) :
    fl ≠ [] := by
  intro hnil
  rw [checkPageFreeList] at h
  exact (of_assert_bind h).1 (hf.linked.head_eq_none_iff.mpr hnil)

theorem poison_npages {pdxLimit : Nat} {l : List Nat}
    (h : l.foldlM (poisonPage pdxLimit) s = some t) :
    t.npages = s.npages := by
  induction l generalizing s with
  | nil =>
    cases h
    rfl
  | cons p l ih =>
    rw [List.foldlM_cons] at h
    obtain ⟨u, hu, h⟩ := of_bind_eq_some h
    rw [ih h]
    rw [poisonPage] at hu
    split_ifs at hu
    · obtain ⟨k, _, rfl⟩ := Option.map_eq_some_iff.mp hu
      rfl
    · cases hu
      rfl

/-- What holds of the free list when `check_page_free_list` returns. -/
theorem passes (hf : FreeList s fl) (h : checkPageFreeList onlyLowMemory firstFreePage s = some t) :
    (∀ p ∈ fl, checkFreePage s.npages firstFreePage p = some ()) ∧
      (∃ p ∈ fl, page2pa p < extphysmem) ∧ ∃ p ∈ fl, ¬page2pa p < extphysmem := by
  obtain ⟨s₁, fl', _, hperm, hn, _, _, heq⟩ :=
    hf.checkPageFreeList_eq (hf.ne_nil_of_check h) onlyLowMemory firstFreePage
  rw [heq] at h
  obtain ⟨u, hu, h⟩ := of_bind_eq_some h
  rw [poison_npages hu, hn] at h
  obtain ⟨_, hall, h⟩ := of_bind_eq_some h
  obtain ⟨hlow, h⟩ := of_assert_bind h
  obtain ⟨hhigh, _⟩ := of_assert_bind h
  refine ⟨fun p hp => of_forM_some hall p (hperm.mem_iff.mpr hp), ?_, ?_⟩
  · obtain ⟨p, hp, hlt⟩ := List.countP_pos_iff.mp hlow
    exact ⟨p, hperm.mem_iff.mp hp, by simpa using hlt⟩
  · obtain ⟨p, hp, hge⟩ := List.countP_pos_iff.mp hhigh
    exact ⟨p, hperm.mem_iff.mp hp, by simpa using hge⟩

end FreeList

namespace Describes

variable {k : Nat} {h : Option Nat} {X : List Nat} {a : KernState} {s : Mem}

theorem freePages (hd : Describes k none [] a s) : freePages s = some a.free :=
  hd.free.freeList.freePages

theorem reorder (hd : Describes k none [] a s) {t : Mem} {fl : List Nat} (hf : FreeList t fl)
    (hp : fl.Perm a.free) (hn : t.npages = s.npages) (hram : t.ram = s.ram)
    (href : ∀ p, (t.pages p).ppRef = (s.pages p).ppRef) :
    Describes k none [] { a with free := fl } t where
  np := hn ▸ hd.np
  kern := ⟨hn ▸ hd.kern.1, fun hk => hd.kern.2.1 (hp.mem_iff.mp hk), by simp⟩
  free := hf.freeBut
  ref p := (href p).trans (hd.ref p)
  self := by
    rw [hram]
    exact hd.self
  row := by
    rw [hram]
    exact hd.row
  range := hd.range
  table i t' ht := by
    obtain ⟨h1, h2, h3, h4⟩ := hd.table i t' ht
    exact ⟨hn ▸ h1, h2, fun hm => h3 (hp.mem_iff.mp hm), h4⟩
  inj := hd.inj
  entry := by
    rw [hram]
    exact hd.entry
  absent := hd.absent
  data := by
    rw [hram]
    exact hd.data

/-- `memset` of the beginning of a page that is neither the directory nor a page table. -/
theorem memsetWords (hd : Describes k h X a s) {p : Nat} (hp : p < 2 ^ 20) (hk : p ≠ k)
    (ht : ∀ i, a.tables i ≠ some p) (n : Nat) (w : Word) :
    Describes k h X (a.setData p fun j => if j < n then w else s.ram p j)
      (memsetWords (kva p) n w s) := by
  have h1 := hd.setData hk ht fun j => if j < n then w else s.ram p j
  have he : Osdi.memsetWords (kva p) n w s =
      { s with ram := fun q j => if q = p then if j < n then w else s.ram p j else s.ram q j } := by
    rw [Osdi.memsetWords, kva_sub_kernbase, pgnum_page2pa p hp]
    congr 1
    funext q j
    by_cases hq : q = p
    · simp [hq]
    · simp [hq]
  rw [he]
  exact h1

theorem poison (hd : Describes k h X a s) (pdxLimit : Nat) {l : List Nat}
    (hl : ∀ p ∈ l, p ∈ a.free) :
    ∃ t g, l.foldlM (poisonPage pdxLimit) s = some t ∧ t.npages = s.npages ∧
      Describes k h X { a with data := g } t := by
  induction l generalizing s a with
  | nil => exact ⟨s, a.data, rfl, rfl, hd⟩
  | cons p l ih =>
    have hp := hl p (by simp)
    have hl' : ∀ q ∈ l, q ∈ a.free := fun q hq => hl q (List.mem_cons_of_mem p hq)
    have hstep : ∃ t g, poisonPage pdxLimit s p = some t ∧ t.npages = s.npages ∧
        Describes k h X { a with data := g } t := by
      rw [poisonPage]
      split_ifs
      · have hkp : p ≠ k := fun he => hd.kern.2.1 (he ▸ hp)
        have htp : ∀ i, a.tables i ≠ some p := fun i hi => (hd.table i p hi).2.2.1 hp
        rw [page2kva_of_lt (hd.free.lt p (.inl hp))]
        exact ⟨_, _, rfl, rfl, hd.memsetWords (hd.lt_of_free hp) hkp htp 32 _⟩
      · exact ⟨s, a.data, rfl, rfl, hd⟩
    obtain ⟨t, g, ht, hn, h1⟩ := hstep
    obtain ⟨u, g', hu, hn', h2⟩ := ih h1 hl'
    refine ⟨u, g', ?_, hn'.trans hn, h2⟩
    rw [List.foldlM_cons, ht]
    exact hu

/-- `check_page_free_list` changes no more than the order of the free list and
the contents of free pages. -/
theorem checkPageFreeList_eq (hd : Describes k none [] a s) (hne : a.free ≠ [])
    (onlyLowMemory : Bool) (firstFreePage : Word) :
    ∃ t fl g, t.npages = s.npages ∧ fl.Perm a.free ∧
    Describes k none [] { a with free := fl, data := g } t ∧
      checkPageFreeList onlyLowMemory firstFreePage s = (do
        fl.forM (checkFreePage s.npages firstFreePage)
        assert (0 < fl.countP fun pp => page2pa pp < extphysmem)
        assert (0 < fl.countP fun pp => ¬page2pa pp < extphysmem)
        some t) := by
  obtain ⟨s₁, fl, hf, hperm, hn₁, hram, href, heq⟩ :=
    hd.free.freeList.checkPageFreeList_eq hne onlyLowMemory firstFreePage
  obtain ⟨t, g, ht, hn, h2⟩ := (hd.reorder hf hperm hn₁ hram href).poison
    (if onlyLowMemory then 1 else npdentries) (l := fl) fun p hp => hp
  refine ⟨t, fl, g, hn.trans hn₁, hperm, h2, ?_⟩
  rw [heq, bind_eq ht, hn.trans hn₁]

theorem of_checkPageFreeList (hd : Describes k none [] a s) {onlyLowMemory : Bool}
    {firstFreePage : Word} {t : Mem}
    (h : checkPageFreeList onlyLowMemory firstFreePage s = some t) :
    ∃ fl g, t.npages = s.npages ∧ fl.Perm a.free ∧
    Describes k none [] { a with free := fl, data := g } t := by
  obtain ⟨u, fl, g, hn, hperm, hd', heq⟩ :=
    hd.checkPageFreeList_eq (hd.free.freeList.ne_nil_of_check h) onlyLowMemory firstFreePage
  rw [heq] at h
  obtain ⟨_, _, h⟩ := of_bind_eq_some h
  obtain ⟨_, h⟩ := of_assert_bind h
  obtain ⟨_, h⟩ := of_assert_bind h
  obtain rfl := Option.some.inj h
  exact ⟨fl, g, hn, hperm, hd'⟩

/-- `check_page_free_list` returns when the pages on the list may be there, and
there are pages of both kinds. -/
theorem checkPageFreeList (hd : Describes k none [] a s) {f : Nat} (hf : 256 < f) (hf' : f < 65536)
    (hall : ∀ p ∈ a.free, Allowed f p) (hlow : ∃ p ∈ a.free, p < 160) (hhigh : ∃ p ∈ a.free, f ≤ p)
    (onlyLowMemory : Bool) : ∃ t, checkPageFreeList onlyLowMemory (kva f) s = some t := by
  have hne : a.free ≠ [] := by
    obtain ⟨p, hp, _⟩ := hlow
    exact List.ne_nil_of_mem hp
  obtain ⟨t, fl, g, _, hperm, _, heq⟩ := hd.checkPageFreeList_eq hne onlyLowMemory (kva f)
  have hlt : ∀ p ∈ a.free, p < 65536 := fun p hp => (hd.free.lt p (.inl hp)).trans_le hd.np
  have hcheck : fl.forM (checkFreePage s.npages (kva f)) = some () := by
    apply forM_some
    intro p hp
    have hp := hperm.mem_iff.mp hp
    exact checkFreePage_allowed hd.np (hd.free.lt p (.inl hp)) hf hf' (hall p hp)
  have hcount : ∀ {q : Nat → Bool}, (∃ p ∈ a.free, q p = true) → 0 < fl.countP q := by
    intro q hq
    obtain ⟨p, hp, hqp⟩ := hq
    exact List.countP_pos_iff.mpr ⟨p, hperm.mem_iff.mpr hp, hqp⟩
  have hbase : 0 < fl.countP fun pp => page2pa pp < extphysmem := by
    apply hcount
    obtain ⟨p, hp, hp'⟩ := hlow
    exact ⟨p, hp, by simpa using (page2pa_lt_extphysmem (hlt p hp)).mpr (by omega)⟩
  have hext : 0 < fl.countP fun pp => ¬page2pa pp < extphysmem := by
    apply hcount
    obtain ⟨p, hp, hp'⟩ := hhigh
    have hge : ¬page2pa p < extphysmem := by
      rw [page2pa_lt_extphysmem (hlt p hp)]
      omega
    exact ⟨p, hp, by simpa using hge⟩
  refine ⟨t, ?_⟩
  rw [heq, bind_eq hcheck, assert_bind hbase, assert_bind hext]

end Describes

end NctuCourses.Osdi
