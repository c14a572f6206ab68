import NctuCourses.Osdi.Boot.MemInit
import NctuCourses.Osdi.Task.AddrSpace

namespace NctuCourses.Osdi

open Lib

/-- The free list is `fl`, and the pages `X`, linked from `h`, are set aside: the self-tests steal
the rest of the free list for a while. -/
structure FreeBut (h : Option Nat) (X : List Nat) (s : Mem) (fl : List Nat) : Prop where
  linked : Linked (fun p => (s.pages p).ppLink) s.pageFreeList fl
  aside : Linked (fun p => (s.pages p).ppLink) h X
  disjoint : ∀ p ∈ fl, p ∉ X
  lt : ∀ p, p ∈ fl ∨ p ∈ X → p < s.npages
  num : s.numFreePages = BitVec.ofNat 32 (fl.length + X.length)
  ref : ∀ p, p ∈ fl ∨ p ∈ X → (s.pages p).ppRef = 0
  off : ∀ p, p ∉ fl → p ∉ X → (s.pages p).ppLink = none

theorem FreeList.freeBut {s : Mem} {fl : List Nat} (hf : FreeList s fl) : FreeBut none [] s fl where
  linked := hf.linked
  aside := rfl
  disjoint := by simp
  lt p hp := hf.lt p (by simpa using hp)
  num := by simpa using hf.num
  ref p hp := hf.ref p (by simpa using hp)
  off p hp _ := hf.off p hp

namespace FreeBut

variable {h : Option Nat} {X : List Nat} {s t : Mem} {fl : List Nat} {p : Nat}

theorem freeList (hf : FreeBut none [] s fl) : FreeList s fl where
  linked := hf.linked
  lt p hp := hf.lt p (.inl hp)
  num := by simpa using hf.num
  ref p hp := hf.ref p (.inl hp)
  off p hp := hf.off p hp (by simp)

theorem of_eq (hf : FreeBut h X s fl) (hn : t.npages = s.npages) (hp : t.pages = s.pages)
    (hl : t.pageFreeList = s.pageFreeList) (hnum : t.numFreePages = s.numFreePages) :
    FreeBut h X t fl where
  linked := by
    rw [hp, hl]
    exact hf.linked
  aside := by
    rw [hp]
    exact hf.aside
  disjoint := hf.disjoint
  lt := by
    rw [hn]
    exact hf.lt
  num := hnum.trans hf.num
  ref := by
    rw [hp]
    exact hf.ref
  off := by
    rw [hp]
    exact hf.off

theorem take (hf : FreeBut h X s (p :: fl)) (f : Word) : FreeBut h X (s.take f p) fl := by
  have hnd := List.nodup_cons.mp hf.linked.nodup
  have hpX : p ∉ X := hf.disjoint p (by simp)
  have hne : ∀ q, q ≠ p → (s.take f p).pages q = s.pages q := by
    intro q hq
    simp [Mem.take, Function.update_of_ne hq]
  have hmem : ∀ q, q ∈ fl ∨ q ∈ X → q ≠ p := by
    intro q hq he
    cases hq with
    | inl hq => exact hnd.1 (he ▸ hq)
    | inr hq => exact hpX (he ▸ hq)
  constructor
  · have hl : Linked (fun q => (s.pages q).ppLink) (s.pages p).ppLink fl := hf.linked.2
    apply hl.congr
    intro q hq
    rw [hne q (hmem q (.inl hq))]
  · apply hf.aside.congr
    intro q hq
    rw [hne q (hmem q (.inr hq))]
  · intro q hq
    exact hf.disjoint q (List.mem_cons_of_mem p hq)
  · intro q hq
    exact hf.lt q (hq.imp_left (List.mem_cons_of_mem p))
  · have hnum := hf.num
    rw [List.length_cons, Nat.add_right_comm, BitVec.ofNat_add] at hnum
    simp [Mem.take, hnum]
  · intro q hq
    rw [hne q (hmem q hq)]
    exact hf.ref q (hq.imp_left (List.mem_cons_of_mem p))
  · intro q hq hqX
    by_cases hqp : q = p
    · simp [Mem.take, hqp]
    · rw [hne q hqp]
      exact hf.off q (by simp [hqp, hq]) hqX

theorem give (hf : FreeBut h X s fl) (hp : p ∉ fl) (hX : p ∉ X) (hlt : p < s.npages)
    (hr : (s.pages p).ppRef = 0) : FreeBut h X (s.give p) (p :: fl) := by
  have hne : ∀ q, q ≠ p → (s.give p).pages q = s.pages q := by
    intro q hq
    simp [Mem.give, Function.update_of_ne hq]
  constructor
  · apply hf.linked.push
    · simp [Mem.give]
    · intro q hq
      rw [hne q fun he => hp (he ▸ hq)]
  · apply hf.aside.congr
    intro q hq
    rw [hne q fun he => hX (he ▸ hq)]
  · intro q hq
    cases List.mem_cons.mp hq with
    | inl hq => exact hq ▸ hX
    | inr hq => exact hf.disjoint q hq
  · intro q hq
    by_cases hqp : q = p
    · exact hqp ▸ hlt
    · exact hf.lt q (hq.imp_left fun hq => (List.mem_cons.mp hq).resolve_left hqp)
  · rw [List.length_cons, Nat.add_right_comm, BitVec.ofNat_add, ← hf.num]
    rfl
  · intro q hq
    by_cases hqp : q = p
    · simp [Mem.give, hqp, hr]
    · rw [hne q hqp]
      exact hf.ref q (hq.imp_left fun hq => (List.mem_cons.mp hq).resolve_left hqp)
  · intro q hq hqX
    rw [List.mem_cons, not_or] at hq
    rw [hne q hq.1]
    exact hf.off q hq.2 hqX

theorem setRef (hf : FreeBut h X s fl) (hp : p ∉ fl) (hX : p ∉ X) (r : BitVec 16) :
    FreeBut h X (s.setRef p r) fl := by
  have hlink : ∀ q, ((s.setRef p r).pages q).ppLink = (s.pages q).ppLink :=
    fun q => Mem.setRef_ppLink s p r q
  constructor
  · exact hf.linked.congr fun q _ => hlink q
  · exact hf.aside.congr fun q _ => hlink q
  · exact hf.disjoint
  · exact hf.lt
  · exact hf.num
  · intro q hq
    have hqp : q ≠ p := by
      intro he
      cases hq with
      | inl hq => exact hp (he ▸ hq)
      | inr hq => exact hX (he ▸ hq)
    rw [Mem.setRef_pages_ne s r hqp]
    exact hf.ref q hq
  · intro q hq hqX
    rw [hlink]
    exact hf.off q hq hqX

theorem steal (hf : FreeBut none [] s fl) :
    FreeBut s.pageFreeList fl { s with pageFreeList := none } [] where
  linked := rfl
  aside := hf.linked
  disjoint := by simp
  lt p hp := hf.lt p (by simpa using hp)
  num := by simpa using hf.num
  ref p hp := hf.ref p (by simpa using hp)
  off p _ hp := hf.off p hp (by simp)

theorem giveBack (hf : FreeBut h X s []) : FreeBut none [] { s with pageFreeList := h } X where
  linked := hf.aside
  aside := rfl
  disjoint := by simp
  lt p hp := hf.lt p (by simpa using hp)
  num := by simpa using hf.num
  ref p hp := hf.ref p (by simpa using hp)
  off p hp _ := hf.off p (by simp) hp

end FreeBut

/-- What memory holds while the kernel has one directory: the page of each page table, the entries,
the counters, the free list, and the words of all other pages. -/
structure KernState where
  tables : Nat → Option Nat
  entry : Nat → Word
  ref : Nat → BitVec 16
  free : List Nat
  data : Nat → Nat → Word

def tableEntry (t : Nat) : Word := page2pa t ||| (pteP ||| pteU ||| pteW)

/-- The slot of the directory that maps the directory itself. -/
def selfSlot : Nat := pdx uvpt

theorem selfSlot_eq : selfSlot = 957 := by decide

/-- The page `k` is the kernel's directory, and memory is as `a` says. -/
structure Describes (k : Nat) (h : Option Nat) (X : List Nat) (a : KernState) (s : Mem) : Prop where
  np : s.npages ≤ 65536
  kern : k < s.npages ∧ k ∉ a.free ∧ k ∉ X
  free : FreeBut h X s a.free
  ref : ∀ p, (s.pages p).ppRef = a.ref p
  self : s.ram k selfSlot = page2pa k ||| pteU ||| pteP
  row : ∀ i < 1024, i ≠ selfSlot → s.ram k i = (a.tables i).elim 0#32 tableEntry
  range : ∀ i t, a.tables i = some t → i < 1024 ∧ i ≠ selfSlot
  table : ∀ i t, a.tables i = some t → t < s.npages ∧ t ≠ k ∧ t ∉ a.free ∧ t ∉ X
  inj : ∀ i j t, a.tables i = some t → a.tables j = some t → i = j
  entry : ∀ i t, a.tables i = some t → ∀ j < 1024, s.ram t j = a.entry (1024 * i + j)
  absent : ∀ v, a.tables (v / 1024) = none → a.entry v = 0#32
  data : ∀ p, p ≠ k → (∀ i, a.tables i ≠ some p) → ∀ j < 1024, s.ram p j = a.data p j

/-- A page in use that is neither the directory nor a page table. -/
structure KernState.Spare (a : KernState) (k : Nat) (X : List Nat) (n p : Nat) : Prop where
  lt : p < n
  ne : p ≠ k
  used : p ∉ a.free
  apart : p ∉ X
  notTable : ∀ i, a.tables i ≠ some p

namespace KernState

variable (a : KernState)

@[simps] def take (f : Word) (p : Nat) : KernState :=
  { a with
    free := a.free.tail
    data := if f &&& allocZero != 0#32 then Function.update a.data p fun _ => 0#32 else a.data }

@[simps] def give (p : Nat) : KernState := { a with free := p :: a.free }

@[simps] def setRef (p : Nat) (r : BitVec 16) : KernState :=
  { a with ref := Function.update a.ref p r }

@[simps] def setEntry (v : Nat) (w : Word) : KernState :=
  { a with entry := Function.update a.entry v w }

@[simps] def newTable (i p : Nat) : KernState :=
  { a with
    tables := Function.update a.tables i (some p)
    ref := Function.update a.ref p (a.ref p + 1)
    free := a.free.tail
    data := Function.update a.data p fun _ => 0#32 }

/-- The slot is cleared, and its page is a page like any other again. -/
@[simps] def dropTable (i t : Nat) : KernState :=
  { a with
    tables := Function.update a.tables i none
    entry := fun v => if v / 1024 = i then 0#32 else a.entry v
    data := Function.update a.data t fun j => a.entry (1024 * i + j) }

@[simps] def setData (p : Nat) (f : Nat → Word) : KernState :=
  { a with data := Function.update a.data p f }

def decref (p : Nat) : KernState :=
  if a.ref p - 1 = 0 then (a.setRef p (a.ref p - 1)).give p else a.setRef p (a.ref p - 1)

def remove (v : Nat) : KernState :=
  if present (a.entry v) then (a.decref (pgnum (a.entry v))).setEntry v 0#32 else a

/-- A page mapped where there is a page table. -/
def insert (p v : Nat) (perm : Word) : KernState :=
  ((a.setRef p (a.ref p + 1)).remove v).setEntry v (page2pa p ||| pteP ||| perm)

end KernState

theorem tableEntry_toNat {t : Nat} (ht : t < 2 ^ 20) : pgnum (tableEntry t) = t :=
  pgnum_entry t _ ht (by decide)

theorem present_tableEntry (t : Nat) : present (tableEntry t) = true :=
  present_or_right (by decide)

namespace Describes

variable {k : Nat} {h : Option Nat} {X : List Nat} {a : KernState} {s : Mem}

theorem kern_lt (hd : Describes k h X a s) : k < 2 ^ 20 := by
  have := hd.kern.1
  have := hd.np
  omega

theorem lt_of_table (hd : Describes k h X a s) {i t : Nat} (ht : a.tables i = some t) :
    t < 2 ^ 20 := by
  have := (hd.table i t ht).1
  have := hd.np
  omega

theorem lt_of_free (hd : Describes k h X a s) {p : Nat} (hp : p ∈ a.free) : p < 2 ^ 20 := by
  have := hd.free.lt p (.inl hp)
  have := hd.np
  omega

theorem row_some (hd : Describes k h X a s) {i t : Nat} (ht : a.tables i = some t) :
    s.ram k i = tableEntry t := by
  obtain ⟨hi, hne⟩ := hd.range i t ht
  rw [hd.row i hi hne, ht]
  rfl

theorem row_none (hd : Describes k h X a s) {i : Nat} (hi : i < 1024) (hne : i ≠ selfSlot)
    (ht : a.tables i = none) : s.ram k i = 0#32 := by
  rw [hd.row i hi hne, ht]
  rfl

theorem pteAt (hd : Describes k h X a s) {v : Nat} (hv : v < 2 ^ 20) (hne : v / 1024 ≠ selfSlot) :
    s.pteAt k v = a.entry v := by
  cases ht : a.tables (v / 1024) with
  | none => rw [Mem.pteAt, hd.row_none (by omega) hne ht, hd.absent v ht, if_neg (by simp)]
  | some t =>
    have hv' : 1024 * (v / 1024) + v % 1024 = v := Nat.div_add_mod v 1024
    rw [Mem.pteAt, hd.row_some ht, if_pos (present_tableEntry t),
      tableEntry_toNat (hd.lt_of_table ht), hd.entry _ t ht _ (Nat.mod_lt v (by decide)), hv']

theorem load_entry (hd : Describes k h X a s) {i t j : Nat} (ht : a.tables i = some t)
    (hj : j < 1024) :
    load s (slot (kva t) j) = a.entry (1024 * i + j) := by
  rw [load_slot s t j (hd.lt_of_table ht) hj, hd.entry i t ht j hj]

theorem alloc_none (hd : Describes k h X a s) (hf : a.free = []) (f : Word) :
    pageAlloc f s = some (none, s) := by
  have hl := hd.free.linked
  rw [hf] at hl
  exact pageAlloc_empty hl f

theorem alloc (hd : Describes k h X a s) {p : Nat} {l : List Nat} (hf : a.free = p :: l)
    (f : Word) :
    pageAlloc f s = some (some p, s.take f p) ∧ Describes k h X (a.take f p) (s.take f p) := by
  have hmem : p ∈ a.free := by simp [hf]
  have hp20 := hd.lt_of_free hmem
  have hl := hd.free.linked
  rw [hf] at hl
  have hne : ∀ q, q ≠ p → ∀ j, (s.take f p).ram q j = s.ram q j :=
    fun q hq j => take_ram_ne hp20 hq j
  have htail : (a.take f p).free = l := by simp [KernState.take, hf]
  have hsub : ∀ q, q ∉ a.free → q ∉ (a.take f p).free := by
    intro q hq hq'
    rw [htail] at hq'
    exact hq (by simp [hf, hq'])
  have hkp : k ≠ p := fun he => hd.kern.2.1 (he ▸ hmem)
  have htp : ∀ i t, a.tables i = some t → t ≠ p :=
    fun i t ht he => (hd.table i t ht).2.2.1 (he ▸ hmem)
  refine ⟨pageAlloc_head hl.1 (hd.free.lt p (.inl hmem)) f, hd.np,
    ⟨hd.kern.1, hsub k hd.kern.2.1, hd.kern.2.2⟩, ?_, ?_, ?_, ?_, hd.range, ?_,
    hd.inj, ?_, hd.absent, ?_⟩
  · have hfree := hd.free
    rw [hf] at hfree
    rw [htail]
    exact hfree.take f
  · intro q
    rw [← show a.ref q = (a.take f p).ref q from rfl, ← hd.ref q]
    by_cases hq : q = p
    · simp [Mem.take, hq]
    · simp [Mem.take, Function.update_of_ne hq]
  · rw [hne k hkp]
    exact hd.self
  · intro i hi hs
    rw [hne k hkp]
    exact hd.row i hi hs
  · intro i t ht
    obtain ⟨h1, h2, h3, h4⟩ := hd.table i t ht
    exact ⟨h1, h2, hsub t h3, h4⟩
  · intro i t ht j hj
    rw [hne t (htp i t ht)]
    exact hd.entry i t ht j hj
  · intro q hq hqt j hj
    have hqd := hd.data q hq hqt j hj
    by_cases hqp : q = p
    · subst hqp
      simp only [Mem.take, KernState.take, pgnum_page2pa q hp20]
      split_ifs
      · simp [Mem.zeroPage]
      · exact hqd
    · rw [hne q hqp, hqd]
      simp only [KernState.take]
      split_ifs
      · rw [Function.update_of_ne hqp]
      · rfl

theorem free_page (hd : Describes k h X a s) {p : Nat} (hp : a.Spare k X s.npages p)
    (hr : a.ref p = 0) :
    pageFree p s = some (s.give p) ∧ Describes k h X (a.give p) (s.give p) := by
  have href : (s.pages p).ppRef = 0 := (hd.ref p).trans hr
  refine ⟨?_, hd.np, ⟨hd.kern.1, ?_, hd.kern.2.2⟩, hd.free.give hp.used hp.apart hp.lt href,
    ?_, hd.self, hd.row, hd.range, ?_, hd.inj, hd.entry, hd.absent, hd.data⟩
  · simp [pageFree, href, hd.free.off p hp.used hp.apart, Mem.give]
  · simp [KernState.give, hp.ne.symm, hd.kern.2.1]
  · intro q
    rw [← show a.ref q = (a.give p).ref q from rfl, ← hd.ref q]
    by_cases hq : q = p
    · simp [Mem.give, hq]
    · simp [Mem.give, Function.update_of_ne hq]
  · intro i t ht
    obtain ⟨h1, h2, h3, h4⟩ := hd.table i t ht
    have hne : t ≠ p := fun he => hp.notTable i (he ▸ ht)
    exact ⟨h1, h2, by simp [KernState.give, hne, h3], h4⟩

theorem setRef (hd : Describes k h X a s) {p : Nat} (hp : p ∉ a.free) (hX : p ∉ X) (r : BitVec 16) :
    Describes k h X (a.setRef p r) (s.setRef p r) := by
  refine ⟨hd.np, hd.kern, hd.free.setRef hp hX r, ?_, hd.self, hd.row, hd.range,
    hd.table, hd.inj, hd.entry, hd.absent, hd.data⟩
  intro q
  by_cases hq : q = p
  · simp [hq, KernState.setRef]
  · rw [Mem.setRef_pages_ne s r hq, hd.ref q]
    simp [KernState.setRef, Function.update_of_ne hq]

theorem setData (hd : Describes k h X a s) {p : Nat} (hk : p ≠ k) (ht : ∀ i, a.tables i ≠ some p)
    (f : Nat → Word) :
    Describes k h X (a.setData p f)
      { s with ram := fun q j => if q = p then f j else s.ram q j } := by
  refine ⟨hd.np, hd.kern, hd.free.of_eq rfl rfl rfl rfl, hd.ref, ?_, ?_, hd.range,
    hd.table, hd.inj, ?_, hd.absent, ?_⟩
  · simpa [hk.symm] using hd.self
  · intro i hi hs
    simpa [hk.symm] using hd.row i hi hs
  · intro i t hit j hj
    have hne : t ≠ p := fun he => ht i (he ▸ hit)
    simpa [hne] using hd.entry i t hit j hj
  · intro q hq hqt j hj
    by_cases hqp : q = p
    · simp [hqp]
    · simpa [hqp] using hd.data q hq hqt j hj

theorem storeEntry (hd : Describes k h X a s) {i t j : Nat} (ht : a.tables i = some t)
    (hj : j < 1024) (w : Word) :
    Describes k h X (a.setEntry (1024 * i + j) w) (store (slot (kva t) j) w s) := by
  rw [store_slot s t j w (hd.lt_of_table ht) hj]
  have hk : k ≠ t := (hd.table i t ht).2.1.symm
  refine ⟨hd.np, hd.kern, hd.free.of_eq rfl rfl rfl rfl, hd.ref, ?_, ?_, hd.range,
    hd.table, hd.inj, ?_, ?_, ?_⟩
  · simpa [Mem.setRam, hk] using hd.self
  · intro i' hi' hs
    simpa [Mem.setRam, hk] using hd.row i' hi' hs
  · intro i' t' ht' j' hj'
    have he := hd.entry i' t' ht' j' hj'
    by_cases hsame : t' = t ∧ j' = j
    · obtain ⟨rfl, rfl⟩ := hsame
      obtain rfl := hd.inj i' i t' ht' ht
      simp [Mem.setRam]
    · have hv : 1024 * i' + j' ≠ 1024 * i + j := by
        intro hv
        obtain ⟨rfl, rfl⟩ : i' = i ∧ j' = j := by omega
        exact hsame ⟨Option.some.inj (ht'.symm.trans ht), rfl⟩
      simpa [Mem.setRam, hsame, hv] using he
  · intro v hv
    have hne : v ≠ 1024 * i + j := by
      intro he
      have hi : v / 1024 = i := by omega
      rw [hi, KernState.setEntry_tables, ht] at hv
      cases hv
    simpa [hne] using hd.absent v hv
  · intro q hq hqt j' hj'
    have hne : q ≠ t := fun he => hqt i (he ▸ ht)
    simpa [Mem.setRam, hne] using hd.data q hq hqt j' hj'

theorem addTable (hd : Describes k h X a s) {i p : Nat} (hi : i < 1024) (hs : i ≠ selfSlot)
    (ht : a.tables i = none) (hp : a.Spare k X s.npages p) (hz : ∀ j < 1024, a.data p j = 0#32) :
    Describes k h X { a with tables := Function.update a.tables i (some p) }
      (s.setRam k i (tableEntry p)) := by
  have hold : ∀ i' t, Function.update a.tables i (some p) i' = some t → (i' = i ∧ t = p) ∨
      a.tables i' = some t := by
    intro i' t h'
    by_cases he : i' = i
    · rw [he, Function.update_self] at h'
      exact .inl ⟨he, (Option.some.inj h').symm⟩
    · rw [Function.update_of_ne he] at h'
      exact .inr h'
  refine ⟨hd.np, hd.kern, hd.free.of_eq rfl rfl rfl rfl, hd.ref, ?_, ?_, ?_, ?_, ?_, ?_, ?_, ?_⟩
  · simpa [Mem.setRam, hs.symm] using hd.self
  · intro i' hi' hs'
    by_cases he : i' = i
    · simp [Mem.setRam, he]
    · simpa [Mem.setRam, he] using hd.row i' hi' hs'
  · intro i' t h'
    cases hold i' t h' with
    | inl he => exact he.1 ▸ ⟨hi, hs⟩
    | inr h' => exact hd.range i' t h'
  · intro i' t h'
    cases hold i' t h' with
    | inl he =>
      rw [he.2]
      exact ⟨hp.lt, hp.ne, hp.used, hp.apart⟩
    | inr h' => exact hd.table i' t h'
  · intro i' j' t h1 h2
    cases hold i' t h1 with
    | inl he =>
      cases hold j' t h2 with
      | inl he' => rw [he.1, he'.1]
      | inr h2 => exact absurd (he.2 ▸ h2) (hp.notTable j')
    | inr h1 =>
      cases hold j' t h2 with
      | inl he' => exact absurd (he'.2 ▸ h1) (hp.notTable i')
      | inr h2 => exact hd.inj i' j' t h1 h2
  · intro i' t h' j hj
    have htk : t ≠ k := by
      cases hold i' t h' with
      | inl he => exact he.2 ▸ hp.ne
      | inr h' => exact (hd.table i' t h').2.1
    have hram : (s.setRam k i (tableEntry p)).ram t j = s.ram t j := by
      simp [Mem.setRam, htk]
    rw [hram]
    cases hold i' t h' with
    | inl he =>
      have habs : a.entry (1024 * i + j) = 0#32 := by
        apply hd.absent
        rw [show (1024 * i + j) / 1024 = i by omega]
        exact ht
      rw [he.1, he.2, hd.data p hp.ne hp.notTable j hj, hz j hj]
      exact habs.symm
    | inr h' => exact hd.entry i' t h' j hj
  · intro v hv
    apply hd.absent
    by_cases he : v / 1024 = i
    · rw [he]
      exact ht
    · simpa [he] using hv
  · intro q hq hqt j hj
    have hram : (s.setRam k i (tableEntry p)).ram q j = s.ram q j := by
      simp [Mem.setRam, hq]
    rw [hram]
    refine hd.data q hq (fun i' h' => hqt i' ?_) j hj
    have hne : i' ≠ i := by
      intro he
      rw [he, ht] at h'
      cases h'
    simpa [hne] using h'

/-- `pgdir[i] = 0` -/
theorem dropTable (hd : Describes k h X a s) {i t : Nat} (ht : a.tables i = some t) :
    Describes k h X (a.dropTable i t) (store (slot (kva k) i) 0#32 s) := by
  obtain ⟨hi, hs⟩ := hd.range i t ht
  rw [store_slot s k i _ hd.kern_lt hi]
  have hold : ∀ i' t', (a.dropTable i t).tables i' = some t' → i' ≠ i ∧ a.tables i' = some t' := by
    intro i' t' h'
    have hne : i' ≠ i := by
      intro he
      rw [he] at h'
      simp [KernState.dropTable] at h'
    exact ⟨hne, by simpa [KernState.dropTable, hne] using h'⟩
  refine ⟨hd.np, hd.kern, hd.free.of_eq rfl rfl rfl rfl, hd.ref, ?_, ?_, ?_, ?_, ?_, ?_, ?_, ?_⟩
  · simpa [Mem.setRam, hs.symm] using hd.self
  · intro i' hi' hs'
    by_cases he : i' = i
    · simp [Mem.setRam, he, KernState.dropTable]
    · simpa [Mem.setRam, he, KernState.dropTable] using hd.row i' hi' hs'
  · intro i' t' h'
    exact hd.range i' t' (hold i' t' h').2
  · intro i' t' h'
    exact hd.table i' t' (hold i' t' h').2
  · intro i' j' t' h1 h2
    exact hd.inj i' j' t' (hold i' t' h1).2 (hold j' t' h2).2
  · intro i' t' h' j hj
    obtain ⟨hne, h'⟩ := hold i' t' h'
    have htk := (hd.table i' t' h').2.1
    have hv : ¬(1024 * i' + j) / 1024 = i := by omega
    simpa [Mem.setRam, htk, KernState.dropTable, hv] using hd.entry i' t' h' j hj
  · intro v hv
    by_cases he : v / 1024 = i
    · simp [KernState.dropTable, he]
    · simp only [KernState.dropTable, Function.update_of_ne he] at hv
      simpa [KernState.dropTable, he] using hd.absent v hv
  · intro q hq hqt j hj
    have hram : (s.setRam k i 0#32).ram q j = s.ram q j := by
      simp [Mem.setRam, hq]
    rw [hram]
    by_cases hqt' : q = t
    · rw [hqt', hd.entry i t ht j hj]
      simp
    · have hnot : ∀ i', a.tables i' ≠ some q := by
        intro i' h'
        by_cases he : i' = i
        · rw [he, ht] at h'
          exact hqt' (Option.some.inj h').symm
        · exact hqt i' (by simpa [he] using h')
      simpa [hqt'] using hd.data q hq hnot j hj

section Walk

variable (va : Word)

theorem walk_some (hd : Describes k h X a s) {t : Nat} (ht : a.tables (pdx va) = some t)
    (create : Bool) :
    pgdirWalk (kva k) va create s = some (some (slot (kva t) (ptx va)), s) := by
  have hrow := hd.row_some ht
  have hpg : pgnum (s.ram k (pdx va)) = t := by rw [hrow, tableEntry_toNat (hd.lt_of_table ht)]
  have hp : present (s.ram k (pdx va)) = true := by
    rw [hrow]
    exact present_tableEntry t
  have hw : pgdirWalk (kva k) va create s =
      some (some (slot (kva (pgnum (s.ram k (pdx va)))) (ptx va)), s) :=
    pgdirWalk_present hd.kern_lt hp (by rw [hpg]; exact (hd.table _ t ht).1)
  rwa [hpg] at hw

theorem not_present (hd : Describes k h X a s) (hs : pdx va ≠ selfSlot)
    (ht : a.tables (pdx va) = none) :
    present (s.ram k (pdx va)) = false := by
  rw [hd.row_none (pdx_lt va) hs ht]
  rfl

theorem walk_none (hd : Describes k h X a s) (hs : pdx va ≠ selfSlot)
    (ht : a.tables (pdx va) = none) :
    pgdirWalk (kva k) va false s = some (none, s) :=
  pgdirWalk_absent hd.kern_lt (hd.not_present va hs ht)

theorem walk_full (hd : Describes k h X a s) (hs : pdx va ≠ selfSlot)
    (ht : a.tables (pdx va) = none) (hf : a.free = []) :
    pgdirWalk (kva k) va true s = some (none, s) := by
  have hl := hd.free.linked
  rw [hf] at hl
  exact pgdirWalk_create_empty hd.kern_lt (hd.not_present va hs ht) hl

theorem walk_create (hd : Describes k h X a s) (hs : pdx va ≠ selfSlot)
    (ht : a.tables (pdx va) = none) {p : Nat} {l : List Nat} (hf : a.free = p :: l) :
    pgdirWalk (kva k) va true s = some (some (slot (kva p) (ptx va)), s.newTable k (pdx va) p) ∧
      Describes k h X (a.newTable (pdx va) p) (s.newTable k (pdx va) p) := by
  have hmem : p ∈ a.free := by simp [hf]
  have hl := hd.free.linked
  rw [hf] at hl
  have hlt := hd.free.lt p (.inl hmem)
  have hnot : p ∉ l := (List.nodup_cons.mp hl.nodup).1
  have hX := hd.free.disjoint p hmem
  have hz : (allocZero &&& allocZero != 0#32) = true := by decide
  refine ⟨pgdirWalk_create_head hd.kern_lt (hd.not_present va hs ht) hl.1 hlt, ?_⟩
  have h1 := (hd.alloc hf allocZero).2
  have hused : p ∉ (a.take allocZero p).free := by simpa [hf] using hnot
  have h2 := h1.setRef hused hX ((s.pages p).ppRef + 1)
  have hspare : ((a.take allocZero p).setRef p ((s.pages p).ppRef + 1)).Spare k X s.npages p :=
    ⟨hlt, fun he => hd.kern.2.1 (he ▸ hmem), hused, hX, fun i hi => (hd.table i p hi).2.2.1 hmem⟩
  have hzero : ∀ j < 1024, ((a.take allocZero p).setRef p ((s.pages p).ppRef + 1)).data p j =
      0#32 := by
    intro j _
    simp only [KernState.setRef, KernState.take, hz, if_true, Function.update_self]
  have h3 := h2.addTable (pdx_lt va) hs ht hspare hzero
  rw [hd.ref p] at h3
  simp only [KernState.take, KernState.setRef, hz, if_true] at h3
  rw [Mem.newTable, hd.ref p]
  exact h3

theorem checkVa2pa (hd : Describes k h X a s) (hs : pdx va ≠ selfSlot) :
    checkVa2pa (kva k) va s = some (if present (a.entry (pgnum va)) then
      page2pa (pgnum (a.entry (pgnum va))) else ~~~0#32) := by
  have hpte : s.pteAt k (pgnum va) = a.entry (pgnum va) :=
    hd.pteAt (pgnum_lt va) (by rwa [pgnum_div])
  rw [checkVa2pa_eq hd.kern_lt, hpte]
  intro hp
  cases ht : a.tables (pdx va) with
  | none => simp [hd.not_present va hs ht] at hp
  | some t =>
    rw [hd.row_some ht, tableEntry_toNat (hd.lt_of_table ht)]
    exact (hd.table _ t ht).1

end Walk

section Insert

theorem decref (hd : Describes k h X a s) {p : Nat} (hp : a.Spare k X s.npages p) :
    ∃ t, pageDecref p s = some t ∧ t.npages = s.npages ∧ Describes k h X (a.decref p) t := by
  have h1 := hd.setRef hp.used hp.apart (a.ref p - 1)
  have hspare : (a.setRef p (a.ref p - 1)).Spare k X s.npages p :=
    ⟨hp.lt, hp.ne, hp.used, hp.apart, hp.notTable⟩
  rw [pageDecref, KernState.decref, hd.ref p]
  by_cases hr : a.ref p - 1 = 0
  · obtain ⟨hfree, h2⟩ := h1.free_page hspare
      (by rw [KernState.setRef_ref, Function.update_self, hr])
    rw [if_pos hr, if_pos hr]
    exact ⟨_, hfree, rfl, h2⟩
  · rw [if_neg hr, if_neg hr]
    exact ⟨_, rfl, rfl, h1⟩

@[simp] theorem decref_tables (a : KernState) (p : Nat) : (a.decref p).tables = a.tables := by
  rw [KernState.decref]
  split <;> rfl

@[simp] theorem decref_entry (a : KernState) (p : Nat) : (a.decref p).entry = a.entry := by
  rw [KernState.decref]
  split <;> rfl

@[simp] theorem remove_tables (a : KernState) (v : Nat) : (a.remove v).tables = a.tables := by
  rw [KernState.remove]
  split
  · exact decref_tables a _
  · rfl

variable (va : Word)

theorem load_pte (hd : Describes k h X a s) {t : Nat} (ht : a.tables (pdx va) = some t) :
    load s (slot (kva t) (ptx va)) = a.entry (pgnum va) := by
  rw [hd.load_entry ht (ptx_lt va), ← pgnum_eq_pdx_ptx]

theorem store_pte (hd : Describes k h X a s) {t : Nat} (ht : a.tables (pdx va) = some t)
    (w : Word) :
    Describes k h X (a.setEntry (pgnum va) w) (store (slot (kva t) (ptx va)) w s) := by
  have h1 := hd.storeEntry ht (ptx_lt va) w
  rwa [← pgnum_eq_pdx_ptx] at h1

theorem pageRemove_absent (hd : Describes k h X a s) {t : Nat} (ht : a.tables (pdx va) = some t)
    (hpr : present (a.entry (pgnum va)) = false) : pageRemove (kva k) va s = some s := by
  simp [pageRemove, pageLookup, hd.walk_some va ht false, hd.load_pte va ht, hpr]

theorem pageRemove_some (hd : Describes k h X a s) {t : Nat} (ht : a.tables (pdx va) = some t)
    (hp : present (a.entry (pgnum va)) = true → a.Spare k X s.npages (pgnum (a.entry (pgnum va)))) :
    ∃ u, pageRemove (kva k) va s = some u ∧ u.npages = s.npages ∧
    Describes k h X (a.remove (pgnum va)) u := by
  rw [KernState.remove]
  cases hpr : present (a.entry (pgnum va)) with
  | false => exact ⟨s, hd.pageRemove_absent va ht hpr, rfl, hd⟩
  | true =>
    have hspare := hp hpr
    have hlook : pageLookup (kva k) va s = some
        (some (pgnum (a.entry (pgnum va)), slot (kva t) (ptx va))) := by
      simp [pageLookup, hd.walk_some va ht false, hd.load_pte va ht, hpr, pa2page_pteAddr hspare.lt]
    obtain ⟨u, hu, hn, hdu⟩ := hd.decref hspare
    have ht' : (a.decref (pgnum (a.entry (pgnum va)))).tables (pdx va) = some t := by
      rw [decref_tables]
      exact ht
    refine ⟨store (slot (kva t) (ptx va)) 0#32 u, ?_, hn, hdu.store_pte va ht' 0#32⟩
    simp only [pageRemove, hlook, Option.bind_eq_bind, Option.bind_some, hu, Option.map_some]

theorem pageInsert_some (hd : Describes k h X a s) {t p : Nat} (perm : Word)
    (ht : a.tables (pdx va) = some t) (hp : a.Spare k X s.npages p)
    (hold : present (a.entry (pgnum va)) = true →
      a.Spare k X s.npages (pgnum (a.entry (pgnum va)))) :
    ∃ u, pageInsert (kva k) p va perm s = some (0, u) ∧ u.npages = s.npages ∧
      Describes k h X (a.insert p (pgnum va) perm) u := by
  have hwalk := hd.walk_some va ht true
  have h1 := hd.setRef hp.used hp.apart (a.ref p + 1)
  obtain ⟨u, hu, hn, hdu⟩ := h1.pageRemove_some va ht fun hpr =>
    ⟨(hold hpr).lt, (hold hpr).ne, (hold hpr).used, (hold hpr).apart, (hold hpr).notTable⟩
  have ht' : ((a.setRef p (a.ref p + 1)).remove (pgnum va)).tables (pdx va) = some t := by
    rw [remove_tables]
    exact ht
  refine ⟨store (slot (kva t) (ptx va)) (page2pa p ||| pteP ||| perm) u, ?_,
    hn, hdu.store_pte va ht' _⟩
  have hload : load (s.setRef p (a.ref p + 1)) (slot (kva t) (ptx va)) = a.entry (pgnum va) :=
    h1.load_pte va ht
  simp only [pageInsert, hwalk, Option.bind_eq_bind, Option.bind_some, hd.ref p, hload]
  cases hpr : present (a.entry (pgnum va)) with
  | false =>
    have hu' := h1.pageRemove_absent va ht hpr
    rw [hu] at hu'
    obtain rfl := Option.some.inj hu'
    rfl
  | true =>
    rw [if_pos rfl, hu]
    rfl

theorem pageInsert_full (hd : Describes k h X a s) (p : Nat) (perm : Word) (hs : pdx va ≠ selfSlot)
    (ht : a.tables (pdx va) = none) (hf : a.free = []) :
    pageInsert (kva k) p va perm s = some (-eNoMem, s) := by
  simp [pageInsert, hd.walk_full va hs ht hf]

theorem pageInsert_create (hd : Describes k h X a s) {p q : Nat} {l : List Nat} (perm : Word)
    (hs : pdx va ≠ selfSlot) (ht : a.tables (pdx va) = none) (hf : a.free = q :: l)
    (hp : a.Spare k X s.npages p) :
    ∃ u, pageInsert (kva k) p va perm s = some (0, u) ∧ u.npages = s.npages ∧
      Describes k h X ((a.newTable (pdx va) q).insert p (pgnum va) perm) u := by
  obtain ⟨hwalk, h1⟩ := hd.walk_create va hs ht hf
  have hpq : p ≠ q := fun he => hp.used (by simp [hf, he])
  have ht1 : (a.newTable (pdx va) q).tables (pdx va) = some q := by simp
  have hspare : (a.newTable (pdx va) q).Spare k X (s.newTable k (pdx va) q).npages p := by
    refine ⟨hp.lt, hp.ne, ?_, hp.apart, ?_⟩
    · have := hp.used
      simp only [hf, List.mem_cons, not_or] at this
      simpa [hf] using this.2
    · intro i
      by_cases hi : i = pdx va
      · simpa [hi] using hpq.symm
      · simpa [hi] using hp.notTable i
  have habs : (a.newTable (pdx va) q).entry (pgnum va) = 0#32 := by
    simp only [KernState.newTable_entry]
    apply hd.absent
    rwa [pgnum_div]
  obtain ⟨u, hu, hn, hdu⟩ := h1.pageInsert_some va perm ht1 hspare (by rw [habs]; simp)
  refine ⟨u, ?_, hn, hdu⟩
  have hwalk1 := h1.walk_some va ht1 true
  rw [pageInsert, hwalk1] at hu
  rw [pageInsert, hwalk]
  exact hu

end Insert

end Describes

end NctuCourses.Osdi
