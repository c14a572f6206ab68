import NctuCourses.Lib.Linked
import NctuCourses.Lib.Run
import NctuCourses.Osdi.Mem.Layout

namespace NctuCourses.Osdi

open Lib

/-- Two bytes of CMOS memory, a size in kilobytes. -/
def nvramRead (cmos : Nat → BitVec 8) (r : Nat) : Nat :=
  (cmos r).toNat ||| (cmos (r + 1)).toNat <<< 8

def nvramBaselo : Nat := 0x15
def nvramExtlo : Nat := 0x17

/-- The pair of `npages` and `npages_basemem`. -/
def i386DetectMemory (cmos : Nat → BitVec 8) : Word × Word :=
  let npagesBasemem := BitVec.ofNat 32 (nvramRead cmos nvramBaselo * 1024 / 4096)
  let npagesExtmem := BitVec.ofNat 32 (nvramRead cmos nvramExtlo * 1024 / 4096)
  if npagesExtmem ≠ 0#32 then (extphysmem / pgsize + npagesExtmem, npagesBasemem)
  else (npagesBasemem, npagesBasemem)

/-- The CMOS sizes keep physical memory below 65 MB, so every page has an address
in the kernel's linear map. -/
theorem i386DetectMemory_le (cmos : Nat → BitVec 8) :
    (i386DetectMemory cmos).1.toNat ≤ 16639 := by
  have hread : ∀ r, nvramRead cmos r < 65536 := fun r => by
    have h1 := (cmos r).isLt
    have h2 := (cmos (r + 1)).isLt
    refine Nat.or_lt_two_pow (n := 16) (by omega) ?_
    rw [Nat.shiftLeft_eq]
    omega
  have hb := hread nvramBaselo
  have he := hread nvramExtlo
  have hext : (extphysmem / pgsize).toNat = 256 := by decide
  simp only [i386DetectMemory]
  split_ifs
  · simp only [BitVec.toNat_add, BitVec.toNat_ofNat, hext]
    omega
  · simp only [BitVec.toNat_ofNat]
    omega

/-- What `i386_detect_memory` and `boot_alloc` have left when `page_init` runs. -/
structure Boot where
  npages : Word
  npagesBasemem : Word
  nextfree : Word

/-- `pages` is cleared by `mem_init`, and `num_free_pages` starts as zeroed static storage. -/
def bootMem (b : Boot) (ram : Nat → Nat → Word) : Mem :=
  ⟨b.npages.toNat, fun _ => ⟨none, 0⟩, none, 0, ram⟩

def Mem.reserve (s : Mem) (i : Nat) : Mem :=
  { s with pages := Function.update s.pages i ⟨none, 1⟩ }

def Mem.release (s : Mem) (i : Nat) : Mem :=
  { s with
    pages := Function.update s.pages i ⟨s.pageFreeList, 0⟩
    pageFreeList := some i
    numFreePages := s.numFreePages + 1 }

/-- One round of the loop in `page_init`. -/
def pageInitStep (b : Boot) (s : Mem) (i : Nat) : Option Mem :=
  if i = 0 then some (s.reserve i)
  else if i < b.npagesBasemem.toNat ∧ i = pgnum mpentryPaddr then some (s.reserve i)
  else if i < b.npagesBasemem.toNat then some (s.release i)
  else if i < pgnum extphysmem then some (s.reserve i)
  else (paddr b.nextfree).map fun pa => if i < pgnum pa then s.reserve i else s.release i

def pageInit (b : Boot) (s : Mem) : Option Mem :=
  (List.range s.npages).foldlM (pageInitStep b) { s with pageFreeList := none }

def allocZero : Word := 1#32

/-- `none` is a panic; a returned `none` is the null pointer. -/
def pageAlloc (allocFlags : Word) (s : Mem) : Option (Option Nat × Mem) :=
  match s.pageFreeList with
  | none => some (none, s)
  | some pp => do
    let s := { s with pageFreeList := (s.pages pp).ppLink }
    let s ← if allocFlags &&& allocZero != 0#32 then
        (page2kva s.npages pp).map (fun k => memsetPage k s)
      else some s
    some (some pp, { s with
      pages := Function.update s.pages pp { s.pages pp with ppLink := none }
      numFreePages := s.numFreePages - 1 })

def pageFree (pp : Nat) (s : Mem) : Option Mem :=
  -- the two assertions at the head of page_free
  if (s.pages pp).ppRef ≠ 0 then none
  else if (s.pages pp).ppLink ≠ none then none
  else some { s with
    pages := Function.update s.pages pp { s.pages pp with ppLink := s.pageFreeList }
    pageFreeList := some pp
    numFreePages := s.numFreePages + 1 }

def Mem.setRef (s : Mem) (pp : Nat) (r : BitVec 16) : Mem :=
  { s with pages := Function.update s.pages pp { s.pages pp with ppRef := r } }

theorem Mem.setRef_pages_ne (s : Mem) {p q : Nat} (r : BitVec 16) (hp : p ≠ q) :
    (s.setRef q r).pages p = s.pages p := by
  simp [Mem.setRef, Function.update_of_ne hp]

@[simp] theorem Mem.setRef_ppLink (s : Mem) (q : Nat) (r : BitVec 16) (p : Nat) :
    ((s.setRef q r).pages p).ppLink = (s.pages p).ppLink := by
  by_cases hp : p = q
  · simp [Mem.setRef, hp]
  · rw [s.setRef_pages_ne r hp]

@[simp] theorem Mem.setRef_ppRef (s : Mem) (q : Nat) (r : BitVec 16) :
    ((s.setRef q r).pages q).ppRef = r := by
  simp [Mem.setRef]

def pageDecref (pp : Nat) (s : Mem) : Option Mem :=
  let r := (s.pages pp).ppRef - 1
  let s := s.setRef pp r
  if r = 0 then pageFree pp s else some s

/-- `page_free_list` threads exactly the pages of the list, the counter agrees with it, and no
page outside the list carries a link. -/
structure FreeList (s : Mem) (fl : List Nat) : Prop where
  linked : Linked (fun p => (s.pages p).ppLink) s.pageFreeList fl
  lt : ∀ p ∈ fl, p < s.npages
  num : s.numFreePages = BitVec.ofNat 32 fl.length
  ref : ∀ p ∈ fl, (s.pages p).ppRef = 0
  off : ∀ p, p ∉ fl → (s.pages p).ppLink = none

namespace FreeList

variable {s : Mem} {fl : List Nat}

theorem nodup (h : FreeList s fl) : fl.Nodup := h.linked.nodup

theorem unique {fl' : List Nat} (h : FreeList s fl) (h' : FreeList s fl') : fl = fl' :=
  h.linked.unique h'.linked

theorem length_le (h : FreeList s fl) : fl.length ≤ s.npages := by
  have hs : fl ⊆ List.range s.npages := fun p hp => List.mem_range.mpr (h.lt p hp)
  simpa using (h.nodup.subperm hs).length_le

theorem reserve (h : FreeList s fl) {i : Nat} (hi : i ∉ fl) : FreeList (s.reserve i) fl := by
  have hne : ∀ p ∈ fl, p ≠ i := fun p hp e => hi (e ▸ hp)
  refine ⟨h.linked.congr ?_, h.lt, h.num, ?_, ?_⟩
  · intro p hp
    simp [Mem.reserve, Function.update_of_ne (hne p hp)]
  · intro p hp
    simpa [Mem.reserve, Function.update_of_ne (hne p hp)] using h.ref p hp
  · intro p hp
    by_cases hpi : p = i
    · subst hpi; simp [Mem.reserve]
    · simpa [Mem.reserve, Function.update_of_ne hpi] using h.off p hp

theorem release (h : FreeList s fl) {i : Nat} (hi : i ∉ fl) (hlt : i < s.npages) :
    FreeList (s.release i) (i :: fl) := by
  have hne : ∀ p ∈ fl, p ≠ i := fun p hp e => hi (e ▸ hp)
  refine ⟨h.linked.push ?_ ?_, ?_, ?_, ?_, ?_⟩
  · simp [Mem.release]
  · intro p hp
    simp [Mem.release, Function.update_of_ne (hne p hp)]
  · intro p hp
    rcases List.mem_cons.mp hp with rfl | hp
    · exact hlt
    · exact h.lt p hp
  · rw [List.length_cons, BitVec.ofNat_add, ← h.num]
    rfl
  · intro p hp
    rcases List.mem_cons.mp hp with rfl | hp
    · simp [Mem.release]
    · simpa [Mem.release, Function.update_of_ne (hne p hp)] using h.ref p hp
  · intro p hp
    have hp' : p ≠ i ∧ p ∉ fl := by simpa using hp
    simpa [Mem.release, Function.update_of_ne hp'.1] using h.off p hp'.2

theorem setRam (h : FreeList s fl) (p i : Nat) (w : Word) : FreeList (s.setRam p i w) fl :=
  ⟨h.linked, h.lt, h.num, h.ref, h.off⟩

theorem setRef (h : FreeList s fl) {q : Nat} (hq : q ∉ fl) (r : BitVec 16) :
    FreeList (s.setRef q r) fl := by
  refine ⟨h.linked.congr fun p _ => Mem.setRef_ppLink s q r p, h.lt, h.num, ?_, ?_⟩
  · intro p hp
    have hne : p ≠ q := fun e => hq (e ▸ hp)
    rw [Mem.setRef_pages_ne s r hne]
    exact h.ref p hp
  · intro p hp
    rw [Mem.setRef_ppLink]
    exact h.off p hp

end FreeList

/-- The pages that `page_init` puts on the free list. -/
def madeFree (b : Boot) (i : Nat) : Bool :=
  i != 0 &&
    if i < b.npagesBasemem.toNat then i != pgnum mpentryPaddr
    else decide (pgnum extphysmem ≤ i) && decide (pgnum (b.nextfree - kernbase) ≤ i)

theorem length_madeFree (b : Boot) {k : Nat} (hbase : b.npagesBasemem.toNat ≤ k)
    (hext : pgnum extphysmem ≤ k) (hnext : pgnum (b.nextfree - kernbase) ≤ k) :
    b.npages.toNat - k ≤ ((List.range b.npages.toNat).filter (madeFree b)).reverse.length := by
  have hpos : 0 < pgnum extphysmem := by decide
  have hsub : List.range' k (b.npages.toNat - k) ⊆ ((List.range b.npages.toNat).filter
      (madeFree b)).reverse := by
    intro p hp
    obtain ⟨hlo, hhi⟩ := List.mem_range'_1.mp hp
    have hfree : madeFree b p = true := by
      rw [madeFree, if_neg (by omega)]
      simp only [Bool.and_eq_true, bne_iff_ne, decide_eq_true_eq]
      omega
    exact List.mem_reverse.mpr (List.mem_filter.mpr ⟨List.mem_range.mpr (by omega), hfree⟩)
  simpa using (List.subperm_of_subset List.nodup_range' hsub).length_le

theorem paddr_of_le {k : Word} (h : kernbase ≤ k) : paddr k = some (k - kernbase) := by
  have hn : ¬ k < kernbase := BitVec.not_lt.mpr h
  simp [paddr, hn]

theorem pageInitStep_eq (b : Boot) (s : Mem) (i : Nat) (hn : kernbase ≤ b.nextfree) :
    pageInitStep b s i = some (if madeFree b i then s.release i else s.reserve i) := by
  unfold pageInitStep madeFree
  rw [paddr_of_le hn]
  by_cases h0 : i = 0
  · simp [h0]
  by_cases hb : i < b.npagesBasemem.toNat
  · by_cases hm : i = pgnum mpentryPaddr
    · simp [← hm, h0, hb]
    · simp [h0, hb, hm]
  by_cases he : i < pgnum extphysmem
  · have hle : ¬ pgnum extphysmem ≤ i := by omega
    simp [h0, hb, he, hle]
  · have hle : pgnum extphysmem ≤ i := by omega
    by_cases hf : i < pgnum (b.nextfree - kernbase)
    · simp [h0, hb, he, hle, hf]
    · have hg : pgnum (b.nextfree - kernbase) ≤ i := by omega
      simp [h0, hb, he, hle, hf, hg]

/-- After `n` rounds the list holds the free pages below `n`, last one first. -/
private theorem pageInit_rounds (b : Boot) (ram : Nat → Nat → Word) (hn : kernbase ≤ b.nextfree)
    (n : Nat) (hle : n ≤ b.npages.toNat) :
    ∃ s, (List.range n).foldlM (pageInitStep b) (bootMem b ram) = some s ∧
      s.npages = b.npages.toNat ∧ s.ram = ram ∧
      FreeList s ((List.range n).filter (madeFree b)).reverse ∧
      ∀ p < n, madeFree b p = false → (s.pages p).ppRef = 1 := by
  induction n with
  | zero =>
    refine ⟨bootMem b ram, rfl, rfl, rfl, ⟨rfl, by simp, rfl, by simp, fun _ _ => rfl⟩, by simp⟩
  | succ n ih =>
    obtain ⟨s, hs, hnp, hram, hfl, href⟩ := ih (by omega)
    have hnot : n ∉ ((List.range n).filter (madeFree b)).reverse := by simp
    rw [List.range_succ, List.foldlM_append, hs]
    simp only [Option.bind_eq_bind, Option.bind_some, List.foldlM_cons, List.foldlM_nil,
      pageInitStep_eq b s n hn, List.filter_append]
    cases hm : madeFree b n with
    | true =>
      refine ⟨s.release n, by simp, hnp, hram, ?_, ?_⟩
      · simpa [List.filter, hm] using hfl.release hnot (by omega)
      · intro p hp hf
        have hne : p ≠ n := by rintro rfl; simp [hm] at hf
        simpa [Mem.release, Function.update_of_ne hne] using href p (by omega) hf
    | false =>
      refine ⟨s.reserve n, by simp, hnp, hram, ?_, ?_⟩
      · simpa [List.filter, hm] using hfl.reserve hnot
      · intro p hp hf
        by_cases hne : p = n
        · simp [Mem.reserve, hne]
        · simpa [Mem.reserve, Function.update_of_ne hne] using href p (by omega) hf

theorem pageInit_spec (b : Boot) (ram : Nat → Nat → Word) (hn : kernbase ≤ b.nextfree) :
    ∃ s, pageInit b (bootMem b ram) = some s ∧ s.npages = b.npages.toNat ∧ s.ram = ram ∧
      FreeList s ((List.range b.npages.toNat).filter (madeFree b)).reverse ∧
      ∀ p < b.npages.toNat, madeFree b p = false → (s.pages p).ppRef = 1 :=
  pageInit_rounds b ram hn b.npages.toNat le_rfl

/-- The state after `page_alloc` has taken the head `p` of the list. -/
def Mem.take (s : Mem) (allocFlags : Word) (p : Nat) : Mem where
  npages := s.npages
  pages := Function.update s.pages p { s.pages p with ppLink := none }
  pageFreeList := (s.pages p).ppLink
  numFreePages := s.numFreePages - 1
  ram := if allocFlags &&& allocZero != 0#32 then (s.zeroPage (pgnum (page2pa p))).ram else s.ram

theorem take_ram_ne {s : Mem} {f : Word} {p q : Nat} (hp : p < 2 ^ 20) (hne : q ≠ p) (i : Nat) :
    (s.take f p).ram q i = s.ram q i := by
  simp only [Mem.take, pgnum_page2pa p hp]
  split_ifs <;> simp [Mem.zeroPage, hne]

theorem take_ram_self {s : Mem} {p : Nat} (hp : p < 2 ^ 20) (i : Nat) :
    (s.take allocZero p).ram p i = 0#32 := by
  have hz : (allocZero &&& allocZero != 0#32) = true := by decide
  simp only [Mem.take, hz, if_true, Mem.zeroPage, pgnum_page2pa p hp]

theorem pageAlloc_empty {s : Mem} (hl : s.pageFreeList = none) (f : Word) :
    pageAlloc f s = some (none, s) := by
  simp [pageAlloc, hl]

theorem pageAlloc_head {s : Mem} {p : Nat} (hl : s.pageFreeList = some p) (hp : p < s.npages)
    (f : Word) :
    pageAlloc f s = some (some p, s.take f p) := by
  simp only [pageAlloc, hl, page2kva_of_lt hp, Option.map_some, memsetPage, kva_sub_kernbase]
  cases hf : f &&& allocZero != 0#32 <;> simp [Mem.take, hf, Mem.zeroPage]

theorem pageAlloc_nil {s : Mem} (h : FreeList s []) (f : Word) : pageAlloc f s = some (none, s) :=
  pageAlloc_empty h.linked f

theorem pageAlloc_cons {s : Mem} {p : Nat} {fl : List Nat} (h : FreeList s (p :: fl)) (f : Word) :
    pageAlloc f s = some (some p, s.take f p) :=
  pageAlloc_head h.linked.1 (h.lt p (by simp)) f

theorem FreeList.take {s : Mem} {p : Nat} {fl : List Nat} (h : FreeList s (p :: fl)) (f : Word) :
    FreeList (s.take f p) fl := by
  have hnd := List.nodup_cons.mp h.nodup
  have hne : ∀ q ∈ fl, q ≠ p := fun q hq e => hnd.1 (e ▸ hq)
  refine ⟨?_, ?_, ?_, ?_, ?_⟩
  · have hl : Linked (fun q => (s.pages q).ppLink) (s.pages p).ppLink fl := h.linked.2
    refine hl.congr ?_
    intro q hq
    simp [Mem.take, Function.update_of_ne (hne q hq)]
  · intro q hq
    exact h.lt q (by simp [hq])
  · have hnum := h.num
    rw [List.length_cons, BitVec.ofNat_add] at hnum
    simp [Mem.take, hnum]
  · intro q hq
    simpa [Mem.take, Function.update_of_ne (hne q hq)] using h.ref q (by simp [hq])
  · intro q hq
    by_cases hqp : q = p
    · simp [Mem.take, hqp]
    · simpa [Mem.take, Function.update_of_ne hqp] using h.off q (by simp [hqp, hq])

/-- The state after `page_free` has put `p` in front of the list. -/
def Mem.give (s : Mem) (p : Nat) : Mem :=
  { s with
    pages := Function.update s.pages p { s.pages p with ppLink := s.pageFreeList }
    pageFreeList := some p
    numFreePages := s.numFreePages + 1 }

theorem pageFree_eq {s : Mem} {fl : List Nat} {p : Nat} (h : FreeList s fl) (hp : p ∉ fl)
    (hr : (s.pages p).ppRef = 0) : pageFree p s = some (s.give p) := by
  simp [pageFree, hr, h.off p hp, Mem.give]

theorem FreeList.give {s : Mem} {fl : List Nat} {p : Nat} (h : FreeList s fl) (hp : p ∉ fl)
    (hlt : p < s.npages) (hr : (s.pages p).ppRef = 0) : FreeList (s.give p) (p :: fl) := by
  have he : s.give p = s.release p := by
    have hpi : ({ s.pages p with ppLink := s.pageFreeList } : PageInfo) = ⟨s.pageFreeList, 0⟩ := by
      rw [← hr]
    simp [Mem.give, Mem.release, hpi]
  rw [he]
  exact h.release hp hlt

/-- An inversion of `page_free`: both assertions held. -/
theorem pageFree_some {s t : Mem} {p : Nat} (h : pageFree p s = some t) :
    (s.pages p).ppRef = 0 ∧ (s.pages p).ppLink = none ∧ t = s.give p := by
  unfold pageFree at h
  split_ifs at h with h1 h2
  exact ⟨by simpa using h1, by simpa using h2, (Option.some.inj h).symm⟩

/-- One call of the allocator's interface. -/
inductive AllocOp where
  | alloc (allocFlags : Word)
  | free (pp : Nat)

/-- A call in a program that frees only pages it holds: `out` are the pages handed out by
`page_alloc` and not freed since. -/
def AllocStep : Mem × Finset Nat → AllocOp → Mem × Finset Nat → Prop
  | (s, out), .alloc f, (t, out') =>
      ∃ r, pageAlloc f s = some (r, t) ∧ out' = r.elim out (insert · out)
  | (s, out), .free pp, (t, out') =>
      pp ∈ out ∧ (s.pages pp).ppRef = 0 ∧ pageFree pp s = some t ∧ out' = out.erase pp

/-- The allocator invariant: free pages and pages handed out partition the pool. -/
structure AllocInv (n : Nat) (pool : List Nat) (s : Mem) (out : Finset Nat) (fl : List Nat) :
    Prop where
  npages : s.npages = n
  free : FreeList s fl
  disjoint : ∀ p ∈ out, p ∉ fl
  cover : ∀ p, p ∈ out ∨ p ∈ fl ↔ p ∈ pool
  lt : ∀ p ∈ pool, p < n

theorem AllocInv.step {n : Nat} {pool : List Nat} {s t : Mem} {out out' : Finset Nat}
    {fl : List Nat} {e : AllocOp} (h : AllocInv n pool s out fl)
    (hs : AllocStep (s, out) e (t, out')) :
    ∃ fl', AllocInv n pool t out' fl' := by
  cases e with
  | alloc f =>
    obtain ⟨r, hr, rfl⟩ := hs
    cases fl with
    | nil =>
      rw [pageAlloc_nil h.free] at hr
      obtain ⟨rfl, rfl⟩ := Prod.mk.inj (Option.some.inj hr)
      exact ⟨[], h⟩
    | cons p fl =>
      rw [pageAlloc_cons h.free] at hr
      obtain ⟨rfl, rfl⟩ := Prod.mk.inj (Option.some.inj hr)
      have hnd := List.nodup_cons.mp h.free.nodup
      refine ⟨fl, h.npages, h.free.take f, ?_, ?_, h.lt⟩
      · intro q hq
        rcases Finset.mem_insert.mp hq with rfl | hq
        · exact hnd.1
        · exact fun hf => h.disjoint q hq (by simp [hf])
      · intro q
        rw [← h.cover q]
        simp only [Option.elim_some, Finset.mem_insert, List.mem_cons]
        tauto
  | free pp =>
    obtain ⟨hmem, href, hfree, rfl⟩ := hs
    obtain ⟨_, _, rfl⟩ := pageFree_some hfree
    have hnot := h.disjoint pp hmem
    have hpool : pp ∈ pool := (h.cover pp).mp (.inl hmem)
    refine ⟨pp :: fl, h.npages, h.free.give hnot (h.npages ▸ h.lt pp hpool) href, ?_, ?_, h.lt⟩
    · intro q hq
      obtain ⟨hne, hq⟩ := Finset.mem_erase.mp hq
      simp [hne, h.disjoint q hq]
    · intro q
      rw [← h.cover q]
      by_cases hq : q = pp
      · subst hq; simp [hmem]
      · simp [hq]

theorem AllocInv.reach {n : Nat} {pool : List Nat} {s₀ s : Mem} {out : Finset Nat} {fl₀ : List Nat}
    {es : List AllocOp} (h0 : AllocInv n pool s₀ ∅ fl₀) (h : Reach AllocStep (s₀, ∅) es (s, out)) :
    ∃ fl, AllocInv n pool s out fl :=
  h.invariant (I := fun x => ∃ fl, AllocInv n pool x.1 x.2 fl) ⟨fl₀, h0⟩
    (fun _ _ _ ⟨_, hi⟩ hs => hi.step hs)

theorem madeFree_ranges (b : Boot) (hbase : b.npagesBasemem.toNat ≤ pgnum iophysmem) {p : Nat}
    (h : madeFree b p = true) :
    p ≠ 0 ∧ p ≠ pgnum mpentryPaddr ∧ ¬ (pgnum iophysmem ≤ p ∧ p < pgnum extphysmem) ∧
      ¬ (pgnum extphysmem ≤ p ∧ p < pgnum (b.nextfree - kernbase)) := by
  have hio : pgnum iophysmem = 160 := by decide
  have hext : pgnum extphysmem = 256 := by decide
  have hmp : pgnum mpentryPaddr = 7 := by decide
  simp only [madeFree, hext, hmp, Bool.and_eq_true, bne_iff_ne, ne_eq] at h
  obtain ⟨h0, h⟩ := h
  rw [hio] at hbase ⊢
  rw [hext, hmp]
  split_ifs at h with hb
  · have h7 : p ≠ 7 := by simpa using h
    omega
  · have hr : 256 ≤ p ∧ pgnum (b.nextfree - kernbase) ≤ p := by simpa using h
    omega

/-- For every run of `page_alloc` and `page_free` after `page_init`: the free list is a finite list
without repetition whose length is `num_free_pages`; `page_alloc` fails only on the empty list and
never hands out a page twice; free pages and pages handed out are together the pages `page_init`
made free; and none of the pages it reserved is ever handed out. -/
theorem pageAllocator_invariant (b : Boot) (ram : Nat → Nat → Word)
    (hbase : b.npagesBasemem.toNat ≤ pgnum iophysmem)
    (hnext : kernbase + extphysmem ≤ b.nextfree) :
    ∃ s₀ pool, pageInit b (bootMem b ram) = some s₀ ∧ FreeList s₀ pool ∧
      ∀ es s out, Reach AllocStep (s₀, ∅) es (s, out) →
        ∃ fl, FreeList s fl ∧ fl.Nodup ∧ s.numFreePages.toNat = fl.length ∧
          (∀ f, ∃ r t, pageAlloc f s = some (r, t) ∧ (r = none ↔ fl = []) ∧
            ∀ p, r = some p → p ∉ out) ∧
          (∀ p ∈ out, (s.pages p).ppRef = 0 → ∃ t, pageFree p s = some t) ∧
          (∀ p ∈ out, p ∉ fl) ∧ (∀ p, p ∈ out ∨ p ∈ fl ↔ p ∈ pool) ∧
          ∀ p ∈ out, p ≠ 0 ∧ p ≠ pgnum mpentryPaddr ∧
            ¬ (pgnum iophysmem ≤ p ∧ p < pgnum extphysmem) ∧
            ¬ (pgnum extphysmem ≤ p ∧ p < pgnum (b.nextfree - kernbase)) := by
  have hk : kernbase ≤ b.nextfree := by
    have he : (kernbase + extphysmem).toNat = 4027580416 := by decide
    have hb : kernbase.toNat = 4026531840 := by decide
    rw [BitVec.le_def] at hnext ⊢
    omega
  obtain ⟨s₀, hs₀, hnp, _, hfl, _⟩ := pageInit_spec b ram hk
  refine ⟨s₀, _, hs₀, hfl, ?_⟩
  intro es s out hreach
  have h0 : AllocInv b.npages.toNat ((List.range b.npages.toNat).filter (madeFree b)).reverse s₀ ∅
      ((List.range b.npages.toNat).filter (madeFree b)).reverse :=
    ⟨hnp, hfl, by simp, by simp, hnp ▸ hfl.lt⟩
  obtain ⟨fl, hinv⟩ := AllocInv.reach h0 hreach
  refine ⟨fl, hinv.free, hinv.free.nodup, ?_, ?_, ?_, hinv.disjoint, hinv.cover, ?_⟩
  · have hlen := hinv.free.length_le
    have hlt := b.npages.isLt
    rw [hinv.npages] at hlen
    rw [hinv.free.num, BitVec.toNat_ofNat]
    omega
  · intro f
    cases fl with
    | nil => exact ⟨none, s, pageAlloc_nil hinv.free f, by simp, by simp⟩
    | cons p fl =>
      refine ⟨some p, s.take f p, pageAlloc_cons hinv.free f, by simp, ?_⟩
      rintro q hq hout
      obtain rfl := Option.some.inj hq
      exact hinv.disjoint p hout (by simp)
  · intro p hp hr
    exact ⟨_, pageFree_eq hinv.free (hinv.disjoint p hp) hr⟩
  · intro p hp
    have hpool := (hinv.cover p).mp (.inl hp)
    apply madeFree_ranges b hbase
    simpa using (List.mem_filter.mp (List.mem_reverse.mp hpool)).2

theorem pageAllocator_invariant_run :
    let b : Boot := ⟨12#32, 10#32, 0xF0200000#32⟩
    ∃ s₀ s, pageInit b (bootMem b fun _ _ => 0#32) = some s₀ ∧
      Reach AllocStep (s₀, ∅) [.alloc 1#32, .alloc 0#32, .free 9] (s, {8}) ∧
      ∃ fl, FreeList s fl ∧ s.numFreePages.toNat = fl.length ∧ 8 ∉ fl := by
  intro b
  obtain ⟨s₀, pool, hs₀, hfl, hall⟩ := pageAllocator_invariant b (fun _ _ => 0#32)
    (by decide) (by decide)
  obtain ⟨s₀', hs₀', _, _, hfl', _⟩ := pageInit_spec b (fun _ _ => 0#32) (by decide)
  obtain rfl : s₀' = s₀ := Option.some.inj (hs₀'.symm.trans hs₀)
  have hp : FreeList s₀' (9 :: 8 :: [6, 5, 4, 3, 2, 1]) := by
    have he : ((List.range b.npages.toNat).filter (madeFree b)).reverse =
        [9, 8, 6, 5, 4, 3, 2, 1] := by decide
    rwa [he] at hfl'
  let s₁ := s₀'.take 1#32 9
  let s₂ := s₁.take 0#32 8
  have h1 : FreeList s₁ (8 :: [6, 5, 4, 3, 2, 1]) := hp.take 1#32
  have h2 : FreeList s₂ [6, 5, 4, 3, 2, 1] := h1.take 0#32
  have hr : (s₂.pages 9).ppRef = 0 := by simpa [s₂, s₁, Mem.take] using hp.ref 9 (by simp)
  have r1 : Reach AllocStep (s₀', ∅) [.alloc 1#32] (s₁, {9}) :=
    Reach.init.snoc ⟨some 9, pageAlloc_cons hp _, rfl⟩
  have r2 : Reach AllocStep (s₀', ∅) [.alloc 1#32, .alloc 0#32] (s₂, {8, 9}) :=
    r1.snoc ⟨some 8, pageAlloc_cons h1 _, rfl⟩
  have hrun : Reach AllocStep (s₀', ∅) [.alloc 1#32, .alloc 0#32, .free 9] (s₂.give 9, {8}) :=
    r2.snoc ⟨by decide, hr, pageFree_eq h2 (by decide) hr, by decide⟩
  obtain ⟨fl, hf, _, hn, _, _, hd, _⟩ := hall _ _ _ hrun
  exact ⟨s₀', s₂.give 9, hs₀, hrun, fl, hf, hn, hd 8 (by simp)⟩

/-- A call of `page_alloc` or `page_free` that returns, with any page of the array as argument. -/
def CallStep (s : Mem) : AllocOp → Mem → Prop
  | .alloc f, t => ∃ r, pageAlloc f s = some (r, t)
  | .free pp, t => pp < s.npages ∧ pageFree pp s = some t

/-- The call does not free the page at the end of the free list. -/
def SparesLast (s : Mem) : AllocOp → Prop
  | .alloc _ => True
  | .free pp => ∀ fl, FreeList s fl → fl.getLast? ≠ some pp

theorem FreeList.callStep {s t : Mem} {fl : List Nat} {e : AllocOp} (h : FreeList s fl)
    (hs : CallStep s e t) (hc : SparesLast s e) : ∃ fl', FreeList t fl' := by
  cases e with
  | alloc f =>
    obtain ⟨r, hr⟩ := hs
    cases fl with
    | nil =>
      rw [pageAlloc_nil h] at hr
      obtain ⟨_, rfl⟩ := Prod.mk.inj (Option.some.inj hr)
      exact ⟨[], h⟩
    | cons p fl =>
      rw [pageAlloc_cons h] at hr
      obtain ⟨_, rfl⟩ := Prod.mk.inj (Option.some.inj hr)
      exact ⟨fl, h.take f⟩
  | free pp =>
    obtain ⟨hlt, hfree⟩ := hs
    obtain ⟨href, hlink, rfl⟩ := pageFree_some hfree
    -- a free page without a link is the last one, which the condition excludes
    have hnot : pp ∉ fl := fun hp => hc fl h ((h.linked.next_eq_none_iff hp).mp hlink)
    exact ⟨pp :: fl, h.give hnot hlt href⟩

theorem FreeList.pageFree_eq_none_iff {s : Mem} {fl : List Nat} {p : Nat} (h : FreeList s fl)
    (hp : p ∈ fl) : pageFree p s = none ↔ fl.getLast? ≠ some p := by
  have hlink : (s.pages p).ppLink = none ↔ fl.getLast? = some p := h.linked.next_eq_none_iff hp
  simp only [pageFree, h.ref p hp]
  split_ifs with h1 h2
  · simp at h1
  · simpa [hlink] using h2
  · simpa [hlink] using h2

/-- Freeing the last page of the list again links it back to the head. -/
theorem FreeList.give_last {s : Mem} {fl : List Nat} {p : Nat} (h : FreeList s fl)
    (hlast : fl.getLast? = some p) (fl' : List Nat) :
    ¬ Linked (fun q => ((s.give p).pages q).ppLink) (s.give p).pageFreeList fl' := by
  apply h.linked.not_of_cycle hlast
  · intro q hq
    simp [Mem.give, Function.update_of_ne hq]
  · simp [Mem.give]

/-- In every run of `page_alloc` and `page_free` after `page_init` in which no call
frees the page at the end of the free list, the list stays finite, and `page_free` of a
page on it stops at an assertion if and only if that page is not the last one. Freeing
the last one again closes a cycle. -/
theorem doubleFree_caught (b : Boot) (ram : Nat → Nat → Word) (hnext : kernbase ≤ b.nextfree) :
    ∃ s₀, pageInit b (bootMem b ram) = some s₀ ∧
      ∀ es s, Reach (fun s e t => CallStep s e t ∧ SparesLast s e) s₀ es s →
        ∃ fl, FreeList s fl ∧ fl.Nodup ∧ ∀ p ∈ fl,
          (pageFree p s = none ↔ fl.getLast? ≠ some p) ∧
          ∀ t, pageFree p s = some t → t.numFreePages = s.numFreePages + 1 ∧
            ∀ fl', ¬ Linked (fun q => (t.pages q).ppLink) t.pageFreeList fl' := by
  obtain ⟨s₀, hs₀, _, _, hfl, _⟩ := pageInit_spec b ram hnext
  refine ⟨s₀, hs₀, ?_⟩
  intro es s hreach
  obtain ⟨fl, h⟩ : ∃ fl, FreeList s fl := by
    refine hreach.invariant (I := fun s => ∃ fl, FreeList s fl) ⟨_, hfl⟩ ?_
    intro s e t hi hs
    obtain ⟨fl, hi⟩ := hi
    exact hi.callStep hs.1 hs.2
  refine ⟨fl, h, h.nodup, ?_⟩
  intro p hp
  have hiff := h.pageFree_eq_none_iff hp
  refine ⟨hiff, ?_⟩
  intro t ht
  have hlast : fl.getLast? = some p := by
    by_contra hne
    rw [hiff.mpr hne] at ht
    simp at ht
  obtain ⟨_, _, rfl⟩ := pageFree_some ht
  exact ⟨rfl, h.give_last hlast⟩

theorem doubleFree_caught_run :
    let b : Boot := ⟨12#32, 10#32, 0xF0200000#32⟩
    ∃ s₀ s, pageInit b (bootMem b fun _ _ => 0#32) = some s₀ ∧
      Reach (fun s e t => CallStep s e t ∧ SparesLast s e) s₀ [.alloc 1#32, .free 9] s ∧
      FreeList s [9, 8, 6, 5, 4, 3, 2, 1] ∧ pageFree 8 s = none := by
  intro b
  obtain ⟨s₀, hs₀, hall⟩ := doubleFree_caught b (fun _ _ => 0#32) (by decide)
  obtain ⟨s₀', hs₀', hnp, _, hfl, _⟩ := pageInit_spec b (fun _ _ => 0#32) (by decide)
  obtain rfl : s₀' = s₀ := Option.some.inj (hs₀'.symm.trans hs₀)
  have hp : FreeList s₀' (9 :: [8, 6, 5, 4, 3, 2, 1]) := by
    have he : ((List.range b.npages.toNat).filter (madeFree b)).reverse =
        [9, 8, 6, 5, 4, 3, 2, 1] := by decide
    rwa [he] at hfl
  have h1 : FreeList (s₀'.take 1#32 9) [8, 6, 5, 4, 3, 2, 1] := hp.take 1#32
  have hr : ((s₀'.take 1#32 9).pages 9).ppRef = 0 := by
    simpa [Mem.take] using hp.ref 9 (by simp)
  have hlt : 9 < (s₀'.take 1#32 9).npages := by
    rw [show (s₀'.take 1#32 9).npages = s₀'.npages from rfl, hnp]
    decide
  have hspare : SparesLast (s₀'.take 1#32 9) (.free 9) := by
    intro fl hf
    rw [hf.unique h1]
    decide
  have r1 : Reach (fun s e t => CallStep s e t ∧ SparesLast s e) s₀' [.alloc 1#32]
      (s₀'.take 1#32 9) := Reach.init.snoc ⟨⟨some 9, pageAlloc_cons hp _⟩, trivial⟩
  have r2 : Reach (fun s e t => CallStep s e t ∧ SparesLast s e) s₀' [.alloc 1#32, .free 9]
      ((s₀'.take 1#32 9).give 9) :=
    r1.snoc ⟨⟨hlt, pageFree_eq h1 (by decide) hr⟩, hspare⟩
  have h2 : FreeList ((s₀'.take 1#32 9).give 9) [9, 8, 6, 5, 4, 3, 2, 1] :=
    h1.give (by decide) hlt hr
  obtain ⟨fl, hf, _, hiff⟩ := hall _ _ r2
  obtain rfl := hf.unique h2
  exact ⟨s₀', _, hs₀, r2, h2, (hiff 8 (by decide)).1.mpr (by decide)⟩

/-- Page 1 is the last page that `page_init` links to, so its own link is the null pointer: freeing
it although it is free passes both assertions, and the list never ends any more. -/
theorem doubleFree_last :
    let b : Boot := ⟨12#32, 10#32, 0xF0200000#32⟩
    ∃ s₀ fl t, pageInit b (bootMem b fun _ _ => 0#32) = some s₀ ∧ FreeList s₀ fl ∧ 1 ∈ fl ∧
      pageFree 1 s₀ = some t ∧ t.numFreePages ≠ s₀.numFreePages ∧
      ∀ fl', ¬ Linked (fun q => (t.pages q).ppLink) t.pageFreeList fl' := by
  intro b
  obtain ⟨s₀, hs₀, _, _, hfl, _⟩ := pageInit_spec b (fun _ _ => 0#32) (by decide)
  have he : ((List.range b.npages.toNat).filter (madeFree b)).reverse =
      [9, 8, 6, 5, 4, 3, 2, 1] := by decide
  rw [he] at hfl
  have hlink : (s₀.pages 1).ppLink = none := (hfl.linked.next_eq_none_iff (by simp)).mpr rfl
  have hfree : pageFree 1 s₀ = some (s₀.give 1) := by
    simp [pageFree, hfl.ref 1 (by simp), hlink, Mem.give]
  refine ⟨s₀, _, s₀.give 1, hs₀, hfl, by simp, hfree, ?_, hfl.give_last rfl⟩
  rw [show (s₀.give 1).numFreePages = s₀.numFreePages + 1 from rfl, hfl.num]
  decide

end NctuCourses.Osdi
