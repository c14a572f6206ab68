import NctuCourses.Osdi.Mem.PageAlloc

namespace NctuCourses.Osdi

def eNoMem : Int := 4

/-- The pointer returned is the kernel address of the entry, or the null pointer. -/
def pgdirWalk (pgdir va : Word) (create : Bool) (s : Mem) : Option (Option Word × Mem) :=
  let pde := slot pgdir (pdx va)
  if present (load s pde) then
    (kaddr s.npages (pteAddr (load s pde))).map fun k => (some (slot k (ptx va)), s)
  else if !create then some (none, s)
  else do
    let (r, s) ← pageAlloc allocZero s
    match r with
    | none => some (none, s)
    | some pp =>
      let s := s.setRef pp ((s.pages pp).ppRef + 1)
      let k ← page2kva s.npages pp
      some (some (slot k (ptx va)), store pde (page2pa pp ||| pteP ||| pteU ||| pteW) s)

/-- The page mapped at `va`, with the entry that `pte_store` receives. -/
def pageLookup (pgdir va : Word) (s : Mem) : Option (Option (Nat × Word)) := do
  let (r, s) ← pgdirWalk pgdir va false s
  match r with
  | none => some none
  | some pte =>
    if present (load s pte) then
      (pa2page s.npages (pteAddr (load s pte))).map fun pp => some (pp, pte)
    else some none

-- tlb_invalidate only executes invlpg and has no part in the model
def pageRemove (pgdir va : Word) (s : Mem) : Option Mem := do
  match ← pageLookup pgdir va s with
  | none => some s
  | some (pp, pte) => (pageDecref pp s).map (store pte 0#32)

def pageInsert (pgdir : Word) (pp : Nat) (va perm : Word) (s : Mem) : Option (Int × Mem) := do
  let (r, s) ← pgdirWalk pgdir va true s
  match r with
  | none => some (-eNoMem, s)
  | some pte =>
    let s := s.setRef pp ((s.pages pp).ppRef + 1)
    let s ← if present (load s pte) then pageRemove pgdir va s else some s
    some (0, store pte (page2pa pp ||| pteP ||| perm) s)

def checkVa2pa (pgdir va : Word) (s : Mem) : Option Word :=
  let pde := load s (slot pgdir (pdx va))
  if !present pde then some (~~~0#32)
  else (kaddr s.npages (pteAddr pde)).map fun p =>
    if !present (load s (slot p (ptx va))) then ~~~0#32
    else pteAddr (load s (slot p (ptx va)))

/-- The page table entry that directory `d` has for page number `v`; zero where the
directory has no page table. -/
def Mem.pteAt (s : Mem) (d v : Nat) : Word :=
  if present (s.ram d (v / 1024)) then s.ram (pgnum (s.ram d (v / 1024))) (v % 1024) else 0#32

/-- The state after `pgdir_walk` has put the fresh page `p` into slot `i` of directory `d`. -/
def Mem.newTable (s : Mem) (d i p : Nat) : Mem :=
  ((s.take allocZero p).setRef p ((s.pages p).ppRef + 1)).setRam d i
    (page2pa p ||| (pteP ||| pteU ||| pteW))

section NewTable

variable {s : Mem} {d i p : Nat} {fl : List Nat}

theorem newTable_ram {q j : Nat} (hp : p < 2 ^ 20) (hqp : q ≠ p) : (s.newTable d i p).ram q j =
    if q = d ∧ j = i then page2pa p ||| (pteP ||| pteU ||| pteW) else s.ram q j := by
  have h : ((s.take allocZero p).setRef p ((s.pages p).ppRef + 1)).ram q j = s.ram q j :=
    take_ram_ne (s := s) (f := allocZero) hp hqp j
  simp only [Mem.newTable, Mem.setRam, h]

theorem newTable_ram_self (hp : p < 2 ^ 20) (hpd : p ≠ d) (j : Nat) :
    (s.newTable d i p).ram p j = 0#32 := by
  have h : ((s.take allocZero p).setRef p ((s.pages p).ppRef + 1)).ram p j = 0#32 :=
    take_ram_self (s := s) hp j
  simp only [Mem.newTable, Mem.setRam, h, hpd, false_and, if_false]

theorem newTable_ref (h : FreeList s (p :: fl)) (q : Nat) :
    ((s.newTable d i p).pages q).ppRef = if q = p then 1 else (s.pages q).ppRef := by
  have h0 : (s.pages p).ppRef = 0 := h.ref p (by simp)
  by_cases hq : q = p
  · simp [Mem.newTable, Mem.setRam, hq, h0]
  · simp [Mem.newTable, Mem.setRam, Mem.setRef, Mem.take, hq]

theorem FreeList.newTable (h : FreeList s (p :: fl)) : FreeList (s.newTable d i p) fl :=
  ((h.take allocZero).setRef (List.nodup_cons.mp h.nodup).1 _).setRam d i _

end NewTable

theorem pgnum_div (va : Word) : pgnum va / 1024 = pdx va := by
  have h := ptx_lt va
  rw [pgnum_eq_pdx_ptx]
  omega

theorem pgnum_mod (va : Word) : pgnum va % 1024 = ptx va := by
  have h := ptx_lt va
  rw [pgnum_eq_pdx_ptx]
  omega

theorem load_pte {s : Mem} {d : Nat} {va : Word} (hp : present (s.ram d (pdx va)) = true) :
    load s (slot (kva (pgnum (s.ram d (pdx va)))) (ptx va)) = s.pteAt d (pgnum va) := by
  rw [load_slot s _ _ (pgnum_lt _) (ptx_lt va), Mem.pteAt, pgnum_div, pgnum_mod, if_pos hp]

theorem pteAt_absent {s : Mem} {d : Nat} {va : Word} (hp : present (s.ram d (pdx va)) = false) :
    s.pteAt d (pgnum va) = 0#32 := by
  simp [Mem.pteAt, pgnum_div, hp]

section Walk

variable {s : Mem} {d : Nat} {va : Word} (hd : d < 2 ^ 20)

include hd

theorem pgdirWalk_present {create : Bool} (hp : present (s.ram d (pdx va)) = true)
    (ht : pgnum (s.ram d (pdx va)) < s.npages) :
    pgdirWalk (kva d) va create s =
      some (some (slot (kva (pgnum (s.ram d (pdx va)))) (ptx va)), s) := by
  simp [pgdirWalk, load_slot s d _ hd (pdx_lt va), hp, kaddr_pteAddr ht]

theorem pgdirWalk_absent (hp : present (s.ram d (pdx va)) = false) :
    pgdirWalk (kva d) va false s = some (none, s) := by
  simp [pgdirWalk, load_slot s d _ hd (pdx_lt va), hp]

theorem pgdirWalk_create_empty (hp : present (s.ram d (pdx va)) = false)
    (hl : s.pageFreeList = none) :
    pgdirWalk (kva d) va true s = some (none, s) := by
  simp [pgdirWalk, load_slot s d _ hd (pdx_lt va), hp, pageAlloc_empty hl]

theorem pgdirWalk_create_head {p : Nat} (hp : present (s.ram d (pdx va)) = false)
    (hl : s.pageFreeList = some p) (hlt : p < s.npages) :
    pgdirWalk (kva d) va true s =
      some (some (slot (kva p) (ptx va)), s.newTable d (pdx va) p) := by
  have hr : ((s.take allocZero p).pages p).ppRef = (s.pages p).ppRef := by simp [Mem.take]
  have hk : page2kva ((s.take allocZero p).setRef p ((s.pages p).ppRef + 1)).npages p =
      some (kva p) := page2kva_of_lt hlt
  simp only [pgdirWalk, load_slot s d _ hd (pdx_lt va), hp, Bool.false_eq_true, if_false,
    Bool.not_true, pageAlloc_head hl hlt, Option.bind_eq_bind, Option.bind_some, hr, hk,
    store_slot _ d _ _ hd (pdx_lt va), Mem.newTable, BitVec.or_assoc]

theorem pgdirWalk_create_nil (hp : present (s.ram d (pdx va)) = false) (hf : FreeList s []) :
    pgdirWalk (kva d) va true s = some (none, s) :=
  pgdirWalk_create_empty hd hp hf.linked

theorem pgdirWalk_create_cons {p : Nat} {fl : List Nat}
    (hp : present (s.ram d (pdx va)) = false) (hf : FreeList s (p :: fl)) :
    pgdirWalk (kva d) va true s =
      some (some (slot (kva p) (ptx va)), s.newTable d (pdx va) p) :=
  pgdirWalk_create_head hd hp hf.linked.1 (hf.lt p (by simp))

theorem pageLookup_none (h : present (s.pteAt d (pgnum va)) = false)
    (ht : present (s.ram d (pdx va)) = true → pgnum (s.ram d (pdx va)) < s.npages) :
    pageLookup (kva d) va s = some none := by
  cases hp : present (s.ram d (pdx va)) with
  | false => simp [pageLookup, pgdirWalk_absent hd hp]
  | true => simp [pageLookup, pgdirWalk_present hd hp (ht hp), load_pte hp, h]

theorem pageLookup_some (h : present (s.pteAt d (pgnum va)) = true)
    (ht : pgnum (s.ram d (pdx va)) < s.npages) (hq : pgnum (s.pteAt d (pgnum va)) < s.npages) :
    pageLookup (kva d) va s = some (some (pgnum (s.pteAt d (pgnum va)),
      slot (kva (pgnum (s.ram d (pdx va)))) (ptx va))) := by
  have hp : present (s.ram d (pdx va)) = true := by
    by_contra hn
    rw [pteAt_absent (by simpa using hn)] at h
    simp at h
  simp [pageLookup, pgdirWalk_present hd hp ht, load_pte hp, h, pa2page_pteAddr hq]

theorem checkVa2pa_eq
    (ht : present (s.ram d (pdx va)) = true → pgnum (s.ram d (pdx va)) < s.npages) :
    checkVa2pa (kva d) va s = some (if present (s.pteAt d (pgnum va)) then
      page2pa (pgnum (s.pteAt d (pgnum va))) else ~~~0#32) := by
  cases hp : present (s.ram d (pdx va)) with
  | false => simp [checkVa2pa, load_slot s d _ hd (pdx_lt va), hp, pteAt_absent hp]
  | true =>
    have he : pteAddr (s.pteAt d (pgnum va)) = page2pa (pgnum (s.pteAt d (pgnum va))) := by
      apply BitVec.eq_of_toNat_eq
      rw [pteAddr_toNat, page2pa_toNat _ (pgnum_lt _)]
    simp only [checkVa2pa, load_slot s d _ hd (pdx_lt va), hp, kaddr_pteAddr (ht hp),
      load_pte hp, he, Option.map_some]
    cases present (s.pteAt d (pgnum va)) <;> simp

end Walk

end NctuCourses.Osdi
