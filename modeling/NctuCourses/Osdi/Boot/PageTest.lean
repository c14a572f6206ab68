import NctuCourses.Osdi.Boot.AllocTest
import NctuCourses.Osdi.Boot.KernRegions

namespace NctuCourses.Osdi

/-- The entry of a page. -/
def mapped (p : Nat) (perm : Word) : Word := page2pa p ||| pteP ||| perm

theorem pgnum_mapped {p : Nat} {perm : Word} (hp : p < 2 ^ 20)
    (hperm : (pteP ||| perm).toNat < 4096) :
    pgnum (mapped p perm) = p := by
  rw [mapped, BitVec.or_assoc]
  exact pgnum_entry p _ hp hperm

@[simp] theorem present_mapped (p : Nat) (perm : Word) : present (mapped p perm) = true :=
  present_or_left (present_or_right (by decide))

theorem entry_and {f : Word} (p : Nat) (w : Word) (hf : f.toNat < 4096) :
    (page2pa p ||| w) &&& f = w &&& f := by
  have hlow : page2pa p &&& f = 0#32 := by
    apply BitVec.eq_of_getLsbD_eq
    intro i _
    rw [page2pa, BitVec.getLsbD_and, BitVec.getLsbD_shiftLeft, BitVec.getLsbD_zero]
    by_cases hi : i < 12
    · simp [hi]
    · have hbit : f.getLsbD i = false :=
        Nat.testBit_lt_two_pow (hf.trans_le (Nat.pow_le_pow_right (by decide)
          (Nat.le_of_not_lt hi) : 2 ^ 12 ≤ 2 ^ i))
      rw [hbit, Bool.and_false]
  rw [BitVec.and_or_distrib_right, hlow, BitVec.zero_or]

theorem mapped_and {f : Word} (p : Nat) (perm : Word) (hf : f.toNat < 4096) :
    mapped p perm &&& f = (pteP ||| perm) &&& f := by
  rw [mapped, BitVec.or_assoc, entry_and p _ hf]

namespace KernState

section Entry

variable {a : KernState} {p q v : Nat} {perm w : Word}

theorem insert_fresh (h : present (a.entry v) = false) :
    a.insert p v perm = (a.setRef p (a.ref p + 1)).setEntry v (mapped p perm) := by
  rw [insert, remove, if_neg (by simp [h])]
  rfl

theorem insert_again (hv : present (a.entry v) = true) (hp : pgnum (a.entry v) = p)
    (hr : a.ref p ≠ 0) :
    a.insert p v perm = a.setEntry v (mapped p perm) := by
  have hadd : a.ref p + 1 - 1 = a.ref p := BitVec.add_sub_cancel _ _
  rw [insert, remove, setRef_entry, if_pos hv, hp, decref, setRef_ref, Function.update_self,
    hadd, if_neg hr]
  simp [setRef, setEntry, mapped]

theorem insert_over (hv : present (a.entry v) = true) (hq : pgnum (a.entry v) = q) (hne : q ≠ p)
    (hr : a.ref q = 1) :
    a.insert p v perm = (((a.setRef p (a.ref p + 1)).setRef q 0).give q).setEntry v
      (mapped p perm) := by
  rw [insert, remove, setRef_entry, if_pos hv, hq, decref, setRef_ref,
    Function.update_of_ne hne, hr, if_pos (by decide)]
  simp [setRef, setEntry, give, mapped]

theorem remove_shared (hv : present (a.entry v) = true) (hp : pgnum (a.entry v) = p)
    (hr : a.ref p - 1 ≠ 0) :
    a.remove v = (a.setRef p (a.ref p - 1)).setEntry v 0#32 := by
  rw [remove, if_pos hv, hp, decref, if_neg hr]

theorem remove_last (hv : present (a.entry v) = true) (hp : pgnum (a.entry v) = p)
    (hr : a.ref p = 1) :
    a.remove v = ((a.setRef p 0).give p).setEntry v 0#32 := by
  rw [remove, if_pos hv, hp, decref, hr, if_pos (by decide)]
  rfl

theorem dropTable_undo {b : KernState} {i : Nat} (hi : a.tables i = none)
    (habs : ∀ v, v / 1024 = i → a.entry v = 0#32)
    (htables : b.tables = Function.update a.tables i (some p))
    (hentry : ∀ v, v / 1024 ≠ i → b.entry v = a.entry v) (href : Function.update b.ref p 0 = a.ref)
    (hfree : b.free = a.free) :
    (b.dropTable i p).setRef p 0 = { a with data := (b.dropTable i p).data } := by
  have hentry' : (fun v => if v / 1024 = i then 0#32 else b.entry v) = a.entry := by
    funext v
    by_cases hv : v / 1024 = i
    · rw [if_pos hv, habs v hv]
    · rw [if_neg hv, hentry v hv]
  have htables' : Function.update b.tables i none = a.tables := by
    rw [htables, Function.update_idem, Function.update_eq_self_iff, hi]
  simp only [setRef, dropTable, hentry', htables', href, hfree]

theorem newTable_undo {i : Nat} (hi : a.tables i = none)
    (habs : ∀ v, v / 1024 = i → a.entry v = 0#32) (hr : a.ref p = 0) :
    (((a.give p).newTable i p).dropTable i p).setRef p 0 =
      { a with data := (((a.give p).newTable i p).dropTable i p).data } := by
  refine dropTable_undo hi habs rfl (fun _ _ => rfl) ?_ rfl
  change Function.update (Function.update a.ref p (a.ref p + 1)) p 0 = a.ref
  rw [Function.update_idem, Function.update_eq_self_iff, hr]

end Entry

/-- `check_page` at work: `pp0` is the page table of slot 0, with the first two entries `e0` and
`e1`, and `pp1` and `pp2` have `r1` and `r2` references. -/
def testing (a : KernState) (p0 p1 p2 : Nat) (g : Nat → Nat → Word) (r1 r2 : BitVec 16)
    (e0 e1 : Word) (fl : List Nat) :
    KernState where
  tables := Function.update a.tables 0 (some p0)
  entry := Function.update (Function.update a.entry 0 e0) 1 e1
  ref := Function.update (Function.update (Function.update a.ref p0 1) p1 r1) p2 r2
  free := fl
  data := g

section Testing

variable {a : KernState} {k n p0 p1 p2 : Nat} {X : List Nat} {g : Nat → Nat → Word}
  {r1 r2 : BitVec 16} {e0 e1 : Word} {fl : List Nat}

@[simp] theorem testing_tables : (a.testing p0 p1 p2 g r1 r2 e0 e1 fl).tables 0 = some p0 := by
  simp [testing]

@[simp] theorem testing_entry0 : (a.testing p0 p1 p2 g r1 r2 e0 e1 fl).entry 0 = e0 := by
  simp [testing]

@[simp] theorem testing_entry1 : (a.testing p0 p1 p2 g r1 r2 e0 e1 fl).entry 1 = e1 := by
  simp [testing]

@[simp] theorem testing_ref2 : (a.testing p0 p1 p2 g r1 r2 e0 e1 fl).ref p2 = r2 := by
  simp [testing]

theorem testing_ref1 (h : p1 ≠ p2) : (a.testing p0 p1 p2 g r1 r2 e0 e1 fl).ref p1 = r1 := by
  simp [testing, h]

theorem testing_ref0 (h : p0 ≠ p1) (h' : p0 ≠ p2) :
    (a.testing p0 p1 p2 g r1 r2 e0 e1 fl).ref p0 = 1 := by
  simp [testing, h, h']

@[simp] theorem testing_setRef2 (r : BitVec 16) :
    (a.testing p0 p1 p2 g r1 r2 e0 e1 fl).setRef p2 r = a.testing p0 p1 p2 g r1 r e0 e1 fl := by
  simp [testing, setRef]

theorem testing_setRef1 (h : p1 ≠ p2) (r : BitVec 16) :
    (a.testing p0 p1 p2 g r1 r2 e0 e1 fl).setRef p1 r = a.testing p0 p1 p2 g r r2 e0 e1 fl := by
  simp [testing, setRef, Function.update_comm h]

@[simp] theorem testing_setEntry0 (w : Word) :
    (a.testing p0 p1 p2 g r1 r2 e0 e1 fl).setEntry 0 w = a.testing p0 p1 p2 g r1 r2 w e1 fl := by
  simp [testing, setEntry, Function.update_comm (show (0 : Nat) ≠ 1 by decide)]

@[simp] theorem testing_setEntry1 (w : Word) :
    (a.testing p0 p1 p2 g r1 r2 e0 e1 fl).setEntry 1 w = a.testing p0 p1 p2 g r1 r2 e0 w fl := by
  simp [testing, setEntry]

/-- The test begins: `pp0` is free, becomes the page table, and `pp1` is mapped at 0. -/
theorem testing_start (ht : a.Trio k X n p0 p1 p2) (hf : a.free = []) (h0 : a.entry 0 = 0#32)
    (h1 : a.entry 1 = 0#32) (perm : Word) : ((a.give p0).newTable 0 p0).insert p1 0 perm =
      a.testing p0 p1 p2 (Function.update a.data p0 fun _ => 0#32) 1 0
        (mapped p1 perm) 0#32 [] := by
  obtain ⟨h01, h02, h12⟩ := ht.ne
  have hentry : Function.update (Function.update a.entry 0 (mapped p1 perm)) 1 0#32 =
      Function.update a.entry 0 (mapped p1 perm) := by
    rw [Function.update_eq_self_iff, Function.update_of_ne (by decide), h1]
  have href : Function.update (Function.update (Function.update a.ref p0 1) p1 1) p2 0 =
      Function.update (Function.update a.ref p0 1) p1 1 := by
    rw [Function.update_eq_self_iff, Function.update_of_ne h12.symm,
      Function.update_of_ne h02.symm, ht.ref2]
  rw [insert_fresh (by simp [h0]), testing, hentry, href]
  simp [setRef, setEntry, newTable, give, hf, ht.ref0, ht.ref1, h01.symm]

/-- The test ends: nothing is mapped any more, and the page table is taken out of the directory. -/
theorem testing_end (ht : a.Trio k X n p0 p1 p2) (hf : a.free = []) (h0 : a.tables 0 = none)
    (habs : ∀ v, v / 1024 = 0 → a.entry v = 0#32) :
    ∃ g', ((a.testing p0 p1 p2 g 0 0 0#32 0#32 []).dropTable 0 p0).setRef p0 0 =
      { a with data := g' } := by
  obtain ⟨h01, h02, h12⟩ := ht.ne
  refine ⟨_, dropTable_undo h0 habs rfl ?_ ?_ hf.symm⟩
  · intro v hv
    simp only [testing]
    rw [Function.update_of_ne (by omega), Function.update_of_ne (by omega)]
  · funext q
    simp only [testing]
    by_cases hq0 : q = p0
    · rw [hq0, Function.update_self, ht.ref0]
    · by_cases hq2 : q = p2
      · rw [hq2, Function.update_of_ne h02.symm, Function.update_self, ht.ref2]
      · by_cases hq1 : q = p1
        · rw [hq1, Function.update_of_ne h01.symm, Function.update_of_ne h12,
            Function.update_self, ht.ref1]
        · rw [Function.update_of_ne hq0, Function.update_of_ne hq2, Function.update_of_ne hq1,
            Function.update_of_ne hq0]

@[simp] theorem testing_give (q : Nat) :
    (a.testing p0 p1 p2 g r1 r2 e0 e1 fl).give q = a.testing p0 p1 p2 g r1 r2 e0 e1 (q :: fl) := rfl

theorem testing_spare {p : Nat} (hp : a.Spare k X n p) (hne : p0 ≠ p) (hfl : p ∉ fl) :
    (a.testing p0 p1 p2 g r1 r2 e0 e1 fl).Spare k X n p where
  lt := hp.lt
  ne := hp.ne
  used := hfl
  apart := hp.apart
  notTable i := by
    by_cases hi : i = 0
    · rw [hi, testing_tables]
      simpa using hne
    · have hti := hp.notTable i
      simpa [testing, hi] using hti

end Testing

end KernState

theorem pteAddr_tableEntry {t : Nat} (ht : t < 2 ^ 20) : pteAddr (tableEntry t) = page2pa t := by
  apply BitVec.eq_of_toNat_eq
  rw [pteAddr_toNat, tableEntry_toNat ht, page2pa_toNat t ht]

namespace Describes

section Steps

variable {k : Nat} {h : Option Nat} {X : List Nat} {a : KernState} {s : Mem} {va : Word}
  {i v t p n : Nat}

theorem kaddr_tableEntry (hd : Describes k h X a s) (hp : p < s.npages) :
    kaddr s.npages (pteAddr (tableEntry p)) = some (kva p) := by
  have hnp := hd.np
  have hpg : pgnum (tableEntry p) = p := tableEntry_toNat (by omega)
  rw [kaddr_pteAddr (by rwa [hpg]), hpg]

theorem load_row (hd : Describes k h X a s) (ht : a.tables i = some t) :
    load s (slot (kva k) i) = tableEntry t := by
  rw [load_slot s k i hd.kern_lt (hd.range i t ht).1, hd.row_some ht]

theorem mustInsert (hd : Describes k h X a s) (hn : s.npages = n) (hi : pdx va = i)
    (hv : pgnum va = v) (perm : Word) (ht : a.tables i = some t) (hp : a.Spare k X n p)
    (hold : present (a.entry v) = true → a.Spare k X n (pgnum (a.entry v))) :
    ∃ u, mustInsert (kva k) p va perm s = some u ∧ u.npages = n ∧
    Describes k h X (a.insert p v perm) u := by
  subst hn
  subst hi
  subst hv
  obtain ⟨u, hu, hn, hdu⟩ := hd.pageInsert_some va perm ht hp hold
  refine ⟨u, ?_, hn, hdu⟩
  rw [Osdi.mustInsert, bind_eq hu]
  exact assert_bind rfl _

theorem mustInsert_fresh (hd : Describes k h X a s) (hn : s.npages = n) (hi : pdx va = i)
    (hv : pgnum va = v) (perm : Word) (ht : a.tables i = some t) (hp : a.Spare k X n p)
    (hold : present (a.entry v) = false) :
    ∃ u, Osdi.mustInsert (kva k) p va perm s = some u ∧ u.npages = n ∧
      Describes k h X ((a.setRef p (a.ref p + 1)).setEntry v (mapped p perm)) u := by
  rw [← KernState.insert_fresh hold]
  exact hd.mustInsert hn hi hv perm ht hp (by simp [hold])

theorem mustInsert_again (hd : Describes k h X a s) (hn : s.npages = n) (hi : pdx va = i)
    (hv : pgnum va = v) (perm : Word) (ht : a.tables i = some t) (hp : a.Spare k X n p)
    (hold : present (a.entry v) = true) (hpg : pgnum (a.entry v) = p) (hr : a.ref p ≠ 0) :
    ∃ u, Osdi.mustInsert (kva k) p va perm s = some u ∧ u.npages = n ∧
      Describes k h X (a.setEntry v (mapped p perm)) u := by
  rw [← KernState.insert_again hold hpg hr]
  exact hd.mustInsert hn hi hv perm ht hp fun _ => hpg.symm ▸ hp

theorem mustInsert_over {q : Nat} (hd : Describes k h X a s) (hn : s.npages = n) (hi : pdx va = i)
    (hv : pgnum va = v) (perm : Word) (ht : a.tables i = some t) (hp : a.Spare k X n p)
    (hq : a.Spare k X n q) (hold : present (a.entry v) = true) (hpg : pgnum (a.entry v) = q)
    (hne : q ≠ p) (hr : a.ref q = 1) :
    ∃ u, Osdi.mustInsert (kva k) p va perm s = some u ∧ u.npages = n ∧
      Describes k h X ((((a.setRef p (a.ref p + 1)).setRef q 0).give q).setEntry v
        (mapped p perm)) u := by
  rw [← KernState.insert_over hold hpg hne hr]
  exact hd.mustInsert hn hi hv perm ht hp fun _ => hpg.symm ▸ hq

theorem cannotInsert (hd : Describes k h X a s) (hi : pdx va = i) (p : Nat) (perm : Word)
    (hs : i ≠ selfSlot) (ht : a.tables i = none) (hf : a.free = []) :
    cannotInsert (kva k) p va perm s = some s := by
  subst hi
  rw [Osdi.cannotInsert, bind_eq (hd.pageInsert_full va p perm hs ht hf)]
  exact assert_bind (by decide) _

theorem entryOf (hd : Describes k h X a s) (hi : pdx va = i) (hv : pgnum va = v)
    (ht : a.tables i = some t) :
    entryOf (kva k) va s = some (a.entry v) := by
  subst hi
  subst hv
  rw [Osdi.entryOf, bind_eq (hd.walk_some va ht false), ← hd.load_pte va ht]
  rfl

theorem clearEntry (hd : Describes k h X a s) (hi : pdx va = i) (hv : pgnum va = v)
    (ht : a.tables i = some t) :
    ∃ u, clearEntry (kva k) va s = some u ∧ u.npages = s.npages ∧
    Describes k h X (a.setEntry v 0#32) u := by
  subst hi
  subst hv
  refine ⟨store (slot (kva t) (ptx va)) 0#32 s, ?_, rfl, hd.store_pte va ht 0#32⟩
  rw [Osdi.clearEntry, bind_eq (hd.walk_some va ht false)]
  rfl

theorem va2pa_present (hd : Describes k h X a s) (hs : pdx va ≠ selfSlot) (hv : pgnum va = v)
    (hpr : present (a.entry v) = true) (hp : pgnum (a.entry v) = p) :
    Osdi.checkVa2pa (kva k) va s = some (page2pa p) := by
  subst hv
  rw [hd.checkVa2pa va hs, if_pos hpr, hp]

theorem va2pa_absent (hd : Describes k h X a s) (hs : pdx va ≠ selfSlot) (hv : pgnum va = v)
    (hpr : a.entry v = 0#32) : Osdi.checkVa2pa (kva k) va s = some (~~~0#32) := by
  subst hv
  rw [hd.checkVa2pa va hs, hpr]
  rfl

theorem pageLookup_none (hd : Describes k h X a s) (hi : pdx va = i) (hs : i ≠ selfSlot)
    (ht : a.tables i = none) :
    pageLookup (kva k) va s = some none := by
  subst hi
  rw [pageLookup, bind_eq (hd.walk_none va hs ht)]

theorem pageRemove (hd : Describes k h X a s) (hn : s.npages = n) (hi : pdx va = i)
    (hv : pgnum va = v) (ht : a.tables i = some t)
    (hp : present (a.entry v) = true → a.Spare k X n (pgnum (a.entry v))) :
    ∃ u, pageRemove (kva k) va s = some u ∧ u.npages = n ∧ Describes k h X (a.remove v) u := by
  subst hn
  subst hi
  subst hv
  exact hd.pageRemove_some va ht hp

theorem pageRemove_shared (hd : Describes k h X a s) (hn : s.npages = n) (hi : pdx va = i)
    (hv : pgnum va = v) (ht : a.tables i = some t) (hp : a.Spare k X n p)
    (hold : present (a.entry v) = true) (hpg : pgnum (a.entry v) = p) (hr : a.ref p - 1 ≠ 0) :
    ∃ u, Osdi.pageRemove (kva k) va s = some u ∧ u.npages = n ∧
      Describes k h X ((a.setRef p (a.ref p - 1)).setEntry v 0#32) u := by
  rw [← KernState.remove_shared hold hpg hr]
  exact hd.pageRemove hn hi hv ht fun _ => hpg.symm ▸ hp

theorem pageRemove_last (hd : Describes k h X a s) (hn : s.npages = n) (hi : pdx va = i)
    (hv : pgnum va = v) (ht : a.tables i = some t) (hp : a.Spare k X n p)
    (hold : present (a.entry v) = true) (hpg : pgnum (a.entry v) = p) (hr : a.ref p = 1) :
    ∃ u, Osdi.pageRemove (kva k) va s = some u ∧ u.npages = n ∧
      Describes k h X (((a.setRef p 0).give p).setEntry v 0#32) u := by
  rw [← KernState.remove_last hold hpg hr]
  exact hd.pageRemove hn hi hv ht fun _ => hpg.symm ▸ hp

end Steps

section Test

variable {k : Nat} {h : Option Nat} {X : List Nat} {a : KernState} {s : Mem} {n p0 p1 p2 : Nat}

theorem pdx_zero : pdx 0#32 = 0 := by decide

theorem pdx_pgsize : pdx pgsize = 0 := by decide

theorem pgnum_zero : pgnum 0#32 = 0 := by decide

theorem pgnum_pgsize : pgnum pgsize = 1 := by decide

theorem lt_of_trio {b : KernState} (hd : Describes k h X b s) (hn : s.npages = n)
    (ht : a.Trio k X n p0 p1 p2) :
    p0 < 2 ^ 20 ∧ p1 < 2 ^ 20 ∧ p2 < 2 ^ 20 := by
  have hnp := hd.np
  have h0 := ht.spare0.lt
  have h1 := ht.spare1.lt
  have h2 := ht.spare2.lt
  omega

theorem checkInsert (hd : Describes k h X a s) (hn : s.npages = n) (hf : a.free = [])
    (h0 : a.tables 0 = none) (ht : a.Trio k X n p0 p1 p2) :
    ∃ t g, checkInsert (kva k) p0 p1 p2 s = some t ∧ t.npages = n ∧
      Describes k h X (a.testing p0 p1 p2 g 1 1 (mapped p1 pteW) (mapped p2 pteW) []) t := by
  subst hn
  obtain ⟨h01, h02, h12⟩ := ht.ne
  have hs0 : pdx 0#32 ≠ selfSlot := by decide
  have hs1 : pdx pgsize ≠ selfSlot := by decide
  have hlt := hd.lt_of_trio rfl ht
  have hpg1 : pgnum (mapped p1 pteW) = p1 := pgnum_mapped hlt.2.1 (by decide)
  have hpg2 : pgnum (mapped p2 pteW) = p2 := pgnum_mapped hlt.2.2 (by decide)
  obtain ⟨hfree, h1⟩ := hd.free_page ht.spare0 ht.ref0
  have hf1 : (a.give p0).free = [p0] := by simp [hf]
  obtain ⟨s₂, hs₂, hn₂, h2⟩ := h1.pageInsert_create 0#32 pteW hs0 h0 hf1 (ht.spare1.give h01.symm)
  rw [pdx_zero, pgnum_zero, KernState.testing_start ht hf (hd.absent 0 h0) (hd.absent 1 h0)] at h2
  have hm₂ : Osdi.mustInsert (kva k) p1 0#32 pteW (s.give p0) = some s₂ := by
    rw [Osdi.mustInsert, bind_eq hs₂]
    exact assert_bind rfl _
  obtain ⟨s₃, hs₃, hn₃, h3⟩ :=
    h2.mustInsert_fresh hn₂ pdx_pgsize pgnum_pgsize pteW KernState.testing_tables
    (KernState.testing_spare ht.spare2 h02 (by simp)) (by simp)
  simp only [KernState.testing_ref2, KernState.testing_setRef2, KernState.testing_setEntry1,
    zero_add] at h3
  obtain ⟨s₄, hs₄, hn₄, h4⟩ :=
    h3.mustInsert_again hn₃ pdx_pgsize pgnum_pgsize pteW KernState.testing_tables
    (KernState.testing_spare ht.spare2 h02 (by simp)) (by simp) (by simpa using hpg2) (by simp)
  rw [KernState.testing_setEntry1] at h4
  refine ⟨s₄, _, ?_, hn₄, h4⟩
  rw [Osdi.checkInsert, bind_eq (hd.pageLookup_none pdx_zero (by decide) h0), assert_bind rfl,
    bind_eq (hd.cannotInsert pdx_zero p1 pteW (by decide) h0 hf), bind_eq hfree, bind_eq hm₂,
    h2.load_row KernState.testing_tables, assert_bind (pteAddr_tableEntry hlt.1),
    assert_bind (h2.va2pa_present hs0 pgnum_zero (by simp) (by simpa using hpg1)),
    h2.ref p1, h2.ref p0, assert_bind (KernState.testing_ref1 h12),
    assert_bind (KernState.testing_ref0 h01 h02), bind_eq hs₃,
    assert_bind (h3.va2pa_present hs1 pgnum_pgsize (by simp) (by simpa using hpg2)),
    h3.ref p2, assert_bind KernState.testing_ref2, bind_eq (h3.noneLeft rfl),
    bind_eq hs₄, assert_bind (h4.va2pa_present hs1 pgnum_pgsize (by simp) (by simpa using hpg2)),
    h4.ref p2, assert_bind KernState.testing_ref2]
  exact bind_eq (h4.noneLeft rfl) _

theorem checkPermissions {g : Nat → Nat → Word}
    (hd : Describes k h X (a.testing p0 p1 p2 g 1 1 (mapped p1 pteW) (mapped p2 pteW) []) s)
    (hn : s.npages = n) (h1 : a.tables 1 = none) (ht : a.Trio k X n p0 p1 p2) :
    ∃ t, checkPermissions (kva k) p0 p1 p2 s = some t ∧ t.npages = n ∧
      Describes k h X (a.testing p0 p1 p2 g 2 0 (mapped p1 pteW) (mapped p1 pteW) []) t := by
  obtain ⟨h01, h02, h12⟩ := ht.ne
  have hs0 : pdx 0#32 ≠ selfSlot := by decide
  have hs1 : pdx pgsize ≠ selfSlot := by decide
  have hlt := hd.lt_of_trio hn ht
  have hpg1 : pgnum (mapped p1 pteW) = p1 := pgnum_mapped hlt.2.1 (by decide)
  have hpg2 : ∀ {perm : Word}, (pteP ||| perm).toNat < 4096 → pgnum (mapped p2 perm) = p2 :=
    pgnum_mapped hlt.2.2
  obtain ⟨s₁, hs₁, hn₁, hd1⟩ :=
    hd.mustInsert_again hn pdx_pgsize pgnum_pgsize (pteW ||| pteU) KernState.testing_tables
    (KernState.testing_spare ht.spare2 h02 (by simp)) (by simp)
      (by simpa using hpg2 (by decide)) (by simp)
  rw [KernState.testing_setEntry1] at hd1
  obtain ⟨s₂, hs₂, hn₂, hd2⟩ :=
    hd1.mustInsert_again hn₁ pdx_pgsize pgnum_pgsize pteW KernState.testing_tables
    (KernState.testing_spare ht.spare2 h02 (by simp)) (by simp)
      (by simpa using hpg2 (by decide)) (by simp)
  rw [KernState.testing_setEntry1] at hd2
  obtain ⟨s₃, hs₃, hn₃, hd3⟩ :=
    hd2.mustInsert_over hn₂ pdx_pgsize pgnum_pgsize pteW KernState.testing_tables
    (KernState.testing_spare ht.spare1 h01 (by simp))
    (KernState.testing_spare ht.spare2 h02 (by simp)) (by simp) (by simpa using hpg2 (by decide))
      h12.symm KernState.testing_ref2
  rw [KernState.testing_ref1 h12, KernState.testing_setRef1 h12, KernState.testing_setRef2,
    KernState.testing_give, KernState.testing_setEntry1, show (1 : BitVec 16) + 1 = 2 from rfl]
    at hd3
  obtain ⟨hal, hd4⟩ := hd3.mustAlloc_plain (p := p2) (l := []) rfl
  have hslot : (a.testing p0 p1 p2 g 1 1 (mapped p1 pteW) (mapped p2 pteW) []).tables 1 = none := by
    simpa [KernState.testing] using h1
  have hkaddr := hd.kaddr_tableEntry (hn ▸ ht.spare0.lt)
  have hwalk := hd.walk_some pgsize (t := p0)
    (by rw [pdx_pgsize]; exact KernState.testing_tables) false
  refine ⟨s₃.take 0#32 p2, ?_, hn₃, hd4⟩
  rw [Osdi.checkPermissions, pdx_pgsize, hd.load_row KernState.testing_tables,
    bind_eq hkaddr, bind_eq hwalk]
  dsimp only
  rw [assert_bind rfl, bind_eq hs₁,
    assert_bind (hd1.va2pa_present hs1 pgnum_pgsize (by simp) (by simpa using hpg2 (by decide))),
    hd1.ref p2, assert_bind KernState.testing_ref2,
    bind_eq (hd1.entryOf pdx_pgsize pgnum_pgsize KernState.testing_tables),
    KernState.testing_entry1, assert_bind (by rw [mapped_and _ _ (by decide)]; decide),
    hd1.load_row KernState.testing_tables,
    assert_bind (by rw [tableEntry, entry_and _ _ (by decide)]; decide), bind_eq hs₂,
    bind_eq (hd2.entryOf pdx_pgsize pgnum_pgsize KernState.testing_tables),
    KernState.testing_entry1, assert_bind (by rw [mapped_and _ _ (by decide)]; decide),
    assert_bind (by rw [mapped_and _ _ (by decide)]; decide),
    bind_eq (hd2.cannotInsert (i := 1) (by decide) p0 pteW (by decide) hslot rfl),
    bind_eq hs₃, bind_eq (hd3.entryOf pdx_pgsize pgnum_pgsize KernState.testing_tables),
    KernState.testing_entry1, assert_bind (by rw [mapped_and _ _ (by decide)]; decide),
    assert_bind (hd3.va2pa_present hs0 pgnum_zero (by simp) (by simpa using hpg1)),
    assert_bind (hd3.va2pa_present hs1 pgnum_pgsize (by simp) (by simpa using hpg1)),
    hd3.ref p1, hd3.ref p2, assert_bind (KernState.testing_ref1 h12),
    assert_bind KernState.testing_ref2, bind_eq hal]
  exact assert_bind rfl _

theorem checkRemove {g : Nat → Nat → Word}
    (hd : Describes k h X (a.testing p0 p1 p2 g 2 0 (mapped p1 pteW) (mapped p1 pteW) []) s)
    (hn : s.npages = n) (hf : a.free = []) (h0 : a.tables 0 = none)
    (habs : ∀ v, v / 1024 = 0 → a.entry v = 0#32) (ht : a.Trio k X n p0 p1 p2) :
    ∃ t g', checkRemove (kva k) p0 p1 p2 s = some t ∧ t.npages = n ∧
    Describes k h X { a with data := g' } t := by
  obtain ⟨h01, h02, h12⟩ := ht.ne
  have hs0 : pdx 0#32 ≠ selfSlot := by decide
  have hs1 : pdx pgsize ≠ selfSlot := by decide
  have hlt := hd.lt_of_trio hn ht
  have hpg1 : ∀ {perm : Word}, (pteP ||| perm).toNat < 4096 → pgnum (mapped p1 perm) = p1 :=
    pgnum_mapped hlt.2.1
  have hspare : ∀ {r1 r2 : BitVec 16} {e0 e1 : Word},
      (a.testing p0 p1 p2 g r1 r2 e0 e1 []).Spare k X n p1 :=
    KernState.testing_spare ht.spare1 h01 (by simp)
  have href : ∀ {r1 r2 : BitVec 16} {e0 e1 : Word} {fl : List Nat},
      (a.testing p0 p1 p2 g r1 r2 e0 e1 fl).ref p1 = r1 :=
    KernState.testing_ref1 h12
  obtain ⟨s₁, hs₁, hn₁, hd1⟩ :=
    hd.pageRemove_shared hn pdx_zero pgnum_zero KernState.testing_tables hspare (by simp)
    (by simpa using hpg1 (by decide)) (by rw [href]; decide)
  rw [href, KernState.testing_setRef1 h12, KernState.testing_setEntry0,
    show (2 : BitVec 16) - 1 = 1 from rfl] at hd1
  obtain ⟨s₂, hs₂, hn₂, hd2⟩ :=
    hd1.mustInsert_again hn₁ pdx_pgsize pgnum_pgsize 0#32 KernState.testing_tables hspare
    (by simp) (by simpa using hpg1 (by decide)) (by rw [href]; decide)
  rw [KernState.testing_setEntry1] at hd2
  obtain ⟨s₃, hs₃, hn₃, hd3⟩ :=
    hd2.pageRemove_last hn₂ pdx_pgsize pgnum_pgsize KernState.testing_tables hspare (by simp)
    (by simpa using hpg1 (by decide)) href
  rw [KernState.testing_setRef1 h12, KernState.testing_give, KernState.testing_setEntry1] at hd3
  obtain ⟨hal, hd4⟩ : _ ∧ Describes k h X (a.testing p0 p1 p2 g 0 0 0#32 0#32 [])
      (s₃.take 0#32 p1) :=
    hd3.mustAlloc_plain rfl
  have hd5 := (hd4.dropTable KernState.testing_tables).setRef (p := p0)
    (List.not_mem_nil) ht.spare0.apart 0
  obtain ⟨g', hg'⟩ := KernState.testing_end (g := g) ht hf h0 habs
  rw [hg'] at hd5
  refine ⟨(store (slot (kva k) 0) 0#32 (s₃.take 0#32 p1)).setRef p0 0, g', ?_, hn₃, hd5⟩
  have hlink : (s₂.pages p1).ppLink = none :=
    hd2.free.off p1 (by simp [KernState.testing]) ht.spare1.apart
  have href0 : ((store (slot (kva k) 0) 0#32 (s₃.take 0#32 p1)).pages p0).ppRef = 1 := by
    rw [(hd4.dropTable KernState.testing_tables).ref p0, KernState.dropTable_ref,
      KernState.testing_ref0 h01 h02]
  rw [Osdi.checkRemove, bind_eq hs₁, assert_bind (hd1.va2pa_absent hs0 pgnum_zero (by simp)),
    assert_bind (hd1.va2pa_present hs1 pgnum_pgsize (by simp) (by simpa using hpg1 (by decide))),
    hd1.ref p1, hd1.ref p2, assert_bind href, assert_bind KernState.testing_ref2,
    bind_eq hs₂, hd2.ref p1, assert_bind (by rw [href]; decide), assert_bind hlink,
    bind_eq hs₃, assert_bind (hd3.va2pa_absent hs0 pgnum_zero (by simp)),
    assert_bind (hd3.va2pa_absent hs1 pgnum_pgsize (by simp)), hd3.ref p1, hd3.ref p2,
    assert_bind href, assert_bind KernState.testing_ref2, bind_eq hal]
  dsimp only
  rw [assert_bind rfl, bind_eq (hd4.noneLeft rfl), hd4.load_row KernState.testing_tables,
    assert_bind (pteAddr_tableEntry hlt.1), assert_bind href0]

theorem walk_undo {i : Nat} {va : Word} (hd : Describes k h X a s) (hn : s.npages = n)
    (hf : a.free = []) (hi : pdx va = i) (hs : i ≠ selfSlot) (hi0 : a.tables i = none)
    (hp : a.Spare k X n p0) (hr : a.ref p0 = 0) :
    ∃ t g, pageFree p0 s = some (s.give p0) ∧
      pgdirWalk (kva k) va true (s.give p0) = some (some (slot (kva p0) (ptx va)), t) ∧
      t.npages = n ∧
      load t (slot (kva k) i) = tableEntry p0 ∧
      (∀ j < nptentries, load t (slot (kva p0) j) = 0#32) ∧
      Describes k h X { a with data := g } ((store (slot (kva k) i) 0#32 t).setRef p0 0) := by
  subst hn
  subst hi
  obtain ⟨hfree, h1⟩ := hd.free_page hp hr
  have hf1 : (a.give p0).free = [p0] := by simp [hf]
  obtain ⟨hwalk, h2⟩ := h1.walk_create va hs hi0 hf1
  have htab : ((a.give p0).newTable (pdx va) p0).tables (pdx va) = some p0 := by simp
  have h3 := (h2.dropTable htab).setRef (p := p0) (by simp [hf]) hp.apart 0
  have habs : ∀ v, v / 1024 = pdx va → a.entry v = 0#32 := fun v hv => hd.absent v (hv ▸ hi0)
  rw [KernState.newTable_undo hi0 habs hr] at h3
  refine ⟨_, _, hfree, hwalk, rfl, h2.load_row htab, ?_, h3⟩
  intro j hj
  rw [h2.load_entry htab hj]
  exact habs _ (by have : nptentries = 1024 := rfl; omega)

theorem checkWalk (hd : Describes k h X a s) (hn : s.npages = n) (hf : a.free = [])
    (h0 : a.tables 0 = none) (h1 : a.tables 1 = none) (hp : a.Spare k X n p0) (hr : a.ref p0 = 0) :
    ∃ t g, checkWalk (kva k) p0 s = some t ∧
    t.npages = n ∧ Describes k h X { a with data := g } t := by
  have hva : pdx (pgsize * BitVec.ofNat 32 npdentries + pgsize) = 1 := by decide
  have h20 : p0 < 2 ^ 20 := by
    have := hd.np
    have := hp.lt
    omega
  obtain ⟨s₁, g₁, hfree₁, hwalk₁, hn₁, hrow₁, _, hd1⟩ := hd.walk_undo hn hf hva (by decide) h1 hp hr
  have hd2 := hd1.memsetWords h20 hp.ne hp.notTable 1024 0xFFFFFFFF#32
  obtain ⟨s₂, g₂, hfree₂, hwalk₂, hn₂, hrow₂, hzero, hd3⟩ :=
    hd2.walk_undo (n := n) hn₁ hf pdx_zero (by decide) h0
    (hp.of_eq rfl rfl) hr
  have hkaddr : kaddr s₁.npages (pteAddr (tableEntry p0)) = some (kva p0) :=
    hd1.kaddr_tableEntry (hn₁.symm ▸ hp.lt)
  have hkva : page2kva ((store (slot (kva k) 1) 0#32 s₁).setRef p0 0).npages p0 = some (kva p0) :=
    page2kva_of_lt (by rw [show ((store (slot (kva k) 1) 0#32 s₁).setRef p0
      0).npages = n from hn₁]; exact hp.lt)
  refine ⟨_, g₂, ?_, ?_, hd3⟩
  · rw [Osdi.checkWalk, bind_eq hfree₁, bind_eq hwalk₁]
    dsimp only
    rw [hva, hrow₁, bind_eq hkaddr, assert_bind rfl, bind_eq hkva, bind_eq hfree₂, bind_eq hwalk₂]
    dsimp only
    rw [assert_bind]
    intro i hi
    rw [hzero i hi]
    rfl
  · exact hn₂

end Test

section Mmio

variable {k : Nat} {h : Option Nat} {X : List Nat} {a : KernState} {s : Mem}

theorem mmioMapRegion (hd : Describes k h X a s) (base size pa : Word) {i m : Nat}
    (hm : (roundup size pgsize).toNat / 4096 = m) (hi : pageTables base m = {i}) (hs : i ≠ selfSlot)
    (hlen : (a.missing {i}).card ≤ a.free.length) (hlim : base + roundup size pgsize < mmiolim) :
    ∃ t a', mmioMapRegion (kva k) base pa size s = some (base, base + roundup size pgsize, t) ∧
      t.npages = s.npages ∧ Describes k h X a' t ∧ Grown a a' {i} ∧
      ∀ v < 2 ^ 20, a'.entry v =
        ((⟨base, roundup size pgsize, pa, ptePcd ||| ptePwt ||| pteW⟩ : Region).entry v).getD
          (a.entry v) := by
  have hslots : ∀ j < m, vpnAt base j / 1024 ≠ selfSlot := by
    intro j hj
    have hmem : vpnAt base j / 1024 ∈ pageTables base m := mem_pageTables.mpr ⟨j, hj, rfl⟩
    rw [hi, Finset.mem_singleton] at hmem
    rwa [hmem]
  obtain ⟨t, a', ht, hn, hd', hg, hent⟩ := hd.bootMapRegion_spec base (roundup size pgsize) pa
    (ptePcd ||| ptePwt ||| pteW) hm hslots (by rwa [hi])
  rw [hi] at hg
  refine ⟨t, a', ?_, hn, hd', hg, hent⟩
  rw [Osdi.mmioMapRegion, bind_eq ht]
  exact assert_bind hlim _

/-- The reservations of the test take the first three pages of the region, and are cleared. -/
theorem checkMmio (hd : Describes k h X a s) (ht : a.tables 958 = none) (hf : a.free ≠ []) :
    ∃ t a', checkMmio (kva k) mmiobase s = some (mmiobase + 0x3000#32, t) ∧ t.npages = s.npages ∧
      Describes k h X a' t ∧ Grown a a' {958} ∧ ∀ v < 2 ^ 20, a'.entry v = a.entry v := by
  have hlen : (a.missing {958}).card ≤ a.free.length := by
    have hone := Finset.card_le_card (Finset.filter_subset (fun i => a.tables i = none) {958})
    have hpos := List.length_pos_iff.mpr hf
    rw [Finset.card_singleton] at hone
    rw [KernState.missing]
    omega
  obtain ⟨s₁, a₁, hs₁, hn₁, hd1, hg1, hent1⟩ :=
    hd.mmioMapRegion mmiobase 4097#32 0#32 (i := 958) rfl
    (by decide) (by decide) hlen (by decide)
  have hlen1 : (a₁.missing {958}).card ≤ a₁.free.length := by
    have hnone : a₁.missing {958} = ∅ := by
      have := (hg1.tables 958)
      simp [KernState.missing, Finset.filter_singleton, this]
    simp [hnone]
  obtain ⟨s₂, a₂, hs₂, hn₂, hd2, hg2, hent2⟩ :=
    hd1.mmioMapRegion (mmiobase + 0x2000#32) 4096#32 0#32
    (i := 958) rfl (by decide) (by decide) hlen1 (by decide)
  have habs : ∀ v, v / 1024 = 958 → a.entry v = 0#32 := fun v hv => hd.absent v (hv ▸ ht)
  have e0 : a₂.entry 980992 = 0x1B#32 := by
    rw [hent2 _ (by decide), hent1 _ (by decide)]
    rfl
  have e1 : a₂.entry 980993 = 0x101B#32 := by
    rw [hent2 _ (by decide), hent1 _ (by decide)]
    rfl
  have e2 : a₂.entry 980994 = 0x1B#32 := by
    rw [hent2 _ (by decide)]
    rfl
  have e3 : a₂.entry 980995 = 0#32 := by
    rw [hent2 _ (by decide), hent1 _ (by decide)]
    exact habs _ (by decide)
  obtain ⟨t, htab⟩ : ∃ t, a₂.tables 958 = some t := by
    apply Option.ne_none_iff_exists'.mp
    intro hnone
    simpa using (hg2.tables 958).mp hnone
  have i0 : pdx mmiobase = 958 := by decide
  have i1 : pdx (mmiobase + pgsize) = 958 := by decide
  have i2 : pdx (mmiobase + 0x2000#32) = 958 := by decide
  obtain ⟨s₃, hs₃, hn₃, hd3⟩ := hd2.clearEntry i0 (v := 980992) (by decide) htab
  obtain ⟨s₄, hs₄, hn₄, hd4⟩ := hd3.clearEntry i1 (v := 980993) (by decide) htab
  obtain ⟨s₅, hs₅, hn₅, hd5⟩ := hd4.clearEntry i2 (v := 980994) (by decide) htab
  have hbase : mmiobase + roundup 4097#32 pgsize = mmiobase + 0x2000#32 := by decide
  have hbase' : mmiobase + 0x2000#32 + roundup 4096#32 pgsize = mmiobase + 0x3000#32 := by decide
  rw [hbase] at hs₁
  rw [hbase'] at hs₂
  have hself : ∀ {va : Word}, pdx va = 958 → pdx va ≠ selfSlot := by
    intro va hva
    rw [hva]
    decide
  have m0 : Osdi.checkVa2pa (kva k) mmiobase s₂ = some 0#32 :=
    hd2.va2pa_present (v := 980992) (p := 0) (hself (by decide)) (by decide)
      (by rw [e0]; rfl) (by rw [e0]; rfl)
  have m1 : Osdi.checkVa2pa (kva k) (mmiobase + pgsize) s₂ = some pgsize :=
    hd2.va2pa_present (v := 980993) (p := 1) (hself (by decide)) (by decide)
      (by rw [e1]; rfl) (by rw [e1]; rfl)
  have m2 : Osdi.checkVa2pa (kva k) (mmiobase + 0x2000#32) s₂ = some 0#32 :=
    hd2.va2pa_present (v := 980994) (p := 0) (hself (by decide)) (by decide)
      (by rw [e2]; rfl) (by rw [e2]; rfl)
  have m3 : Osdi.checkVa2pa (kva k) (mmiobase + 0x2000#32 + pgsize) s₂ = some (~~~0#32) :=
    hd2.va2pa_absent (hself (by decide)) (by decide) e3
  have hg : Grown a a₂ {958} := by
    have := hg1.trans hg2
    rwa [Finset.union_self] at this
  refine ⟨s₅, _, ?_, by rw [hn₅, hn₄, hn₃, hn₂, hn₁], hd5, ⟨hg.tables, hg.suffix, hg.pages⟩, ?_⟩
  · rw [Osdi.checkMmio, bind_eq hs₁]
    dsimp only
    rw [bind_eq hs₂]
    dsimp only
    rw [assert_bind (by decide), assert_bind (by decide), assert_bind (by decide),
      assert_bind (by decide), assert_bind m0, assert_bind m1, assert_bind m2, assert_bind m3,
      bind_eq (hd2.entryOf i0 (v := 980992) (by decide) htab), e0, assert_bind (by decide),
      assert_bind (by decide), bind_eq hs₃, bind_eq hs₄, bind_eq hs₅]
  · intro v hv
    simp only [KernState.setEntry_entry, Function.update_apply]
    split_ifs with h2 h1 h0
    · rw [h2, habs _ (by decide)]
    · rw [h1, habs _ (by decide)]
    · rw [h0, habs _ (by decide)]
    · have hout : ∀ {base size : Word} {m : Nat}, size.toNat / 4096 = m →
          (∀ j < m, v ≠ vpnAt base j) →
          (⟨base, size, 0#32, ptePcd ||| ptePwt ||| pteW⟩ : Region).entry v = none := by
        intro base size m hm hne
        subst hm
        exact Region.entry_none hv hne
      have hpg : pgnum mmiobase = 980992 := by decide
      have hpg' : pgnum (mmiobase + 0x2000#32) = 980994 := by decide
      rw [hent2 v hv, hent1 v hv, hout (m := 1) rfl, hout (m := 2) rfl]
      · rfl
      · intro j hj
        rw [vpnAt, hpg]
        omega
      · intro j hj
        rw [vpnAt, hpg']
        omega

end Mmio

/-- `check_page` returns. The directory has one page table more, for the MMIO
region, and no entry has changed. -/
theorem checkPage {k : Nat} {a : KernState} {s : Mem} {p0 p1 p2 : Nat} {l : List Nat}
    (hd : Describes k none [] a s) (hf : a.free = p0 :: p1 :: p2 :: l) (h0 : a.tables 0 = none)
    (h1 : a.tables 1 = none) (h958 : a.tables 958 = none) :
    ∃ t a' g, checkPage (kva k) mmiobase s = some (mmiobase + 0x3000#32, t) ∧ t.npages = s.npages ∧
      Describes k none [] a' t ∧ Grown { a with free := p2 :: p1 :: p0 :: l, data := g } a' {958} ∧
      ∀ v < 2 ^ 20, a'.entry v = a.entry v := by
  obtain ⟨s₁, hs₁, hn₁, hd1, ht⟩ := hd.takeThree hf
  have hn₁' : ({ s₁ with pageFreeList := none } : Mem).npages = s.npages := hn₁
  have habs : ∀ v, v / 1024 = 0 → a.entry v = 0#32 := fun v hv => hd.absent v (hv ▸ h0)
  obtain ⟨s₂, g₂, hs₂, hn₂, hd2⟩ := hd1.checkInsert hn₁' rfl h0 ht
  obtain ⟨s₃, hs₃, hn₃, hd3⟩ := hd2.checkPermissions hn₂ h1 ht
  obtain ⟨s₄, g₄, hs₄, hn₄, hd4⟩ := hd3.checkRemove hn₃ rfl h0 habs ht
  obtain ⟨s₅, g₅, hs₅, hn₅, hd5⟩ := hd4.checkWalk hn₄ rfl h0 h1 (ht.spare0.of_eq rfl rfl) ht.ref0
  rw [← hn₅] at ht
  obtain ⟨s₆, hs₆, hn₆, hd6⟩ := hd5.giveThree rfl (ht.of_eq rfl rfl rfl)
  obtain ⟨t, a', hs₇, hn₇, hd7, hg, hent⟩ := hd6.checkMmio h958 (by simp)
  refine ⟨t, a', g₅, ?_, ?_, hd7, hg, hent⟩
  · rw [Osdi.checkPage, bind_eq hs₁]
    dsimp only
    rw [bind_eq (hd1.noneLeft rfl), bind_eq hs₂, bind_eq hs₃, bind_eq hs₄, bind_eq hs₅,
      bind_eq hs₆, hs₇]
  · rw [hn₇, hn₆, hn₅]

end Describes

end NctuCourses.Osdi
