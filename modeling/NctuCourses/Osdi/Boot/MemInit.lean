import NctuCourses.Osdi.Task.Task

namespace NctuCourses.Osdi

/-- What the linker and the machine fix before `mem_init` runs. -/
structure Platform where
  cmos : Nat → BitVec 8
  kernEnd : Word
  bootstack : Word
  percpuKstacks : Word
  ram : Nat → Nat → Word

/-- A failed assertion is a panic. -/
def assert (p : Prop) [Decidable p] : Option Unit := if p then some () else none

/-- The address of the chunk and the new value of `nextfree`. -/
def bootAlloc (kernEnd n nextfree : Word) : Word × Word :=
  let nextfree := if nextfree = 0#32 then roundup kernEnd pgsize else nextfree
  if n = 0#32 then (nextfree, nextfree) else (nextfree, nextfree + roundup n pgsize)

/-- The pages that a loop `for (; pp; pp = pp->pp_link)` visits. More than
`npages` of them are a cycle. -/
def listFrom (s : Mem) : Nat → Option Nat → Option (List Nat)
  | _, none => some []
  | 0, some _ => none
  | n + 1, some pp => (listFrom s n (s.pages pp).ppLink).map (pp :: ·)

def freePages (s : Mem) : Option (List Nat) := listFrom s s.npages s.pageFreeList

/-- `pp1` and `pp2` with the pointers `tp` into the two lists; `none` is
the address of the variable. -/
structure Halves where
  pp1 : Option Nat
  pp2 : Option Nat
  tp0 : Option Nat
  tp1 : Option Nat

def Mem.setLink (s : Mem) (pp : Nat) (l : Option Nat) : Mem :=
  { s with pages := Function.update s.pages pp { s.pages pp with ppLink := l } }

/-- `*tp[pagetype] = pp` -/
def putTail (pagetype : Bool) (pp : Option Nat) (t : Halves) (s : Mem) : Halves × Mem :=
  if pagetype then
    match t.tp1 with
    | none => ({ t with pp2 := pp }, s)
    | some q => (t, s.setLink q pp)
  else
    match t.tp0 with
    | none => ({ t with pp1 := pp }, s)
    | some q => (t, s.setLink q pp)

def splitLoop (pdxLimit : Nat) : Nat → Option Nat → Halves → Mem → Option (Halves × Mem)
  | _, none, t, s => some (t, s)
  | 0, some _, _, _ => none
  | n + 1, some pp, t, s =>
    let pagetype := decide (pdxLimit ≤ pdx (page2pa pp))
    let (t, s) := putTail pagetype (some pp) t s
    let t := if pagetype then { t with tp1 := some pp } else { t with tp0 := some pp }
    splitLoop pdxLimit n (s.pages pp).ppLink t s

/-- Pages with lower addresses come first. The variables are not initialised; `tp`
says where the first stores go. -/
def lowFirst (pdxLimit : Nat) (s : Mem) : Option Mem := do
  let (t, s) ← splitLoop pdxLimit s.npages s.pageFreeList ⟨none, none, none, none⟩ s
  let (t, s) := putTail true none t s
  let (t, s) := putTail false t.pp2 t s
  some { s with pageFreeList := t.pp1 }

/-- `memset` of `n` words, which start a page. -/
def memsetWords (kva : Word) (n : Nat) (w : Word) (s : Mem) : Mem :=
  { s with ram := fun q j => if q = pgnum (kva - kernbase) ∧ j < n then w else s.ram q j }

def poisonPage (pdxLimit : Nat) (s : Mem) (pp : Nat) : Option Mem :=
  if pdx (page2pa pp) < pdxLimit then
    (page2kva s.npages pp).map fun k => memsetWords k 32 0x97979797#32 s
  else some s

/-- The assertions on a page of the free list. A pointer into `pages` is
an index, so it is aligned. -/
def checkFreePage (npages : Nat) (firstFreePage : Word) (pp : Nat) : Option Unit := do
  assert (pp < npages)
  assert (page2pa pp ≠ 0#32)
  assert (page2pa pp ≠ iophysmem)
  assert (page2pa pp ≠ extphysmem - pgsize)
  assert (page2pa pp ≠ extphysmem)
  if page2pa pp < extphysmem then some ()
  else
    let k ← page2kva npages pp
    assert (k ≥ firstFreePage)
  assert (page2pa pp ≠ mpentryPaddr)

def checkPageFreeList (onlyLowMemory : Bool) (firstFreePage : Word) (s : Mem) : Option Mem := do
  let pdxLimit := if onlyLowMemory then 1 else npdentries
  assert (s.pageFreeList ≠ none)
  let s ← if onlyLowMemory then lowFirst pdxLimit s else some s
  let l ← freePages s
  let s ← l.foldlM (poisonPage pdxLimit) s
  l.forM (checkFreePage s.npages firstFreePage)
  assert (0 < l.countP fun pp => page2pa pp < extphysmem)
  assert (0 < l.countP fun pp => ¬page2pa pp < extphysmem)
  some s

/-- `assert((pp = page_alloc(allocFlags)))` -/
def mustAlloc (allocFlags : Word) (s : Mem) : Option (Nat × Mem) := do
  let (r, s) ← pageAlloc allocFlags s
  let pp ← r
  some (pp, s)

/-- `assert(!page_alloc(0))` -/
def noneLeft (s : Mem) : Option Mem := do
  let (r, s) ← pageAlloc 0#32 s
  assert (r = none)
  some s

/-- Three pages are allocated and are different. -/
def allocThree (s : Mem) : Option (Nat × Nat × Nat × Mem) := do
  let (pp0, s) ← mustAlloc 0#32 s
  let (pp1, s) ← mustAlloc 0#32 s
  let (pp2, s) ← mustAlloc 0#32 s
  assert (pp1 ≠ pp0)
  assert (pp2 ≠ pp1 ∧ pp2 ≠ pp0)
  some (pp0, pp1, pp2, s)

def freeThree (pp0 pp1 pp2 : Nat) (s : Mem) : Option Mem := do
  let s ← pageFree pp0 s
  let s ← pageFree pp1 s
  pageFree pp2 s

def checkPageAlloc (pages : Word) (s : Mem) : Option Mem := do
  assert (pages ≠ 0#32)
  let l ← freePages s
  let (pp0, pp1, pp2, s) ← allocThree s
  assert (page2pa pp0 < BitVec.ofNat 32 s.npages * pgsize)
  assert (page2pa pp1 < BitVec.ofNat 32 s.npages * pgsize)
  assert (page2pa pp2 < BitVec.ofNat 32 s.npages * pgsize)
  -- temporarily steal the rest of the free pages
  let fl := s.pageFreeList
  let s ← noneLeft { s with pageFreeList := none }
  let s ← freeThree pp0 pp1 pp2 s
  let (pp0, pp1, pp2, s) ← allocThree s
  let s ← noneLeft s
  let k ← page2kva s.npages pp0
  let s ← pageFree pp0 (memsetWords k 1024 0x01010101#32 s)
  let (pp, s) ← mustAlloc allocZero s
  assert (pp0 = pp)
  let c ← page2kva s.npages pp
  assert (∀ i < nptentries, load s (slot c i) = 0#32)
  -- give free list back
  let s ← freeThree pp0 pp1 pp2 { s with pageFreeList := fl }
  let l' ← freePages s
  assert (l.length = l'.length)
  some s

/-- `assert(page_insert(pgdir, pp, va, perm) == 0)` -/
def mustInsert (pgdir : Word) (pp : Nat) (va perm : Word) (s : Mem) : Option Mem := do
  let (e, s) ← pageInsert pgdir pp va perm s
  assert (e = 0)
  some s

/-- `assert(page_insert(pgdir, pp, va, perm) < 0)` -/
def cannotInsert (pgdir : Word) (pp : Nat) (va perm : Word) (s : Mem) : Option Mem := do
  let (e, s) ← pageInsert pgdir pp va perm s
  assert (e < 0)
  some s

/-- `*pgdir_walk(pgdir, va, 0)` -/
def entryOf (pgdir va : Word) (s : Mem) : Option Word := do
  let (r, s) ← pgdirWalk pgdir va false s
  let pte ← r
  some (load s pte)

/-- `*pgdir_walk(pgdir, va, 0) = 0` -/
def clearEntry (pgdir va : Word) (s : Mem) : Option Mem := do
  let (r, s) ← pgdirWalk pgdir va false s
  let pte ← r
  some (store pte 0#32 s)

/-- The part of `check_page` that maps and unmaps pages. -/
def checkInsert (kernPgdir : Word) (pp0 pp1 pp2 : Nat) (s : Mem) : Option Mem := do
  let r ← pageLookup kernPgdir 0#32 s
  assert (r = none)
  let s ← cannotInsert kernPgdir pp1 0#32 pteW s
  -- free pp0 and try again: pp0 should be used for page table
  let s ← pageFree pp0 s
  let s ← mustInsert kernPgdir pp1 0#32 pteW s
  assert (pteAddr (load s (slot kernPgdir 0)) = page2pa pp0)
  assert (checkVa2pa kernPgdir 0#32 s = some (page2pa pp1))
  assert ((s.pages pp1).ppRef = 1)
  assert ((s.pages pp0).ppRef = 1)
  let s ← mustInsert kernPgdir pp2 pgsize pteW s
  assert (checkVa2pa kernPgdir pgsize s = some (page2pa pp2))
  assert ((s.pages pp2).ppRef = 1)
  let s ← noneLeft s
  let s ← mustInsert kernPgdir pp2 pgsize pteW s
  assert (checkVa2pa kernPgdir pgsize s = some (page2pa pp2))
  assert ((s.pages pp2).ppRef = 1)
  let s ← noneLeft s
  some s

/-- The part of `check_page` that changes permissions. -/
def checkPermissions (kernPgdir : Word) (pp0 pp1 pp2 : Nat) (s : Mem) : Option Mem := do
  let ptep ← kaddr s.npages (pteAddr (load s (slot kernPgdir (pdx pgsize))))
  let (r, s) ← pgdirWalk kernPgdir pgsize false s
  assert (r = some (slot ptep (ptx pgsize)))
  let s ← mustInsert kernPgdir pp2 pgsize (pteW ||| pteU) s
  assert (checkVa2pa kernPgdir pgsize s = some (page2pa pp2))
  assert ((s.pages pp2).ppRef = 1)
  let w ← entryOf kernPgdir pgsize s
  assert (w &&& pteU ≠ 0#32)
  assert (load s (slot kernPgdir 0) &&& pteU ≠ 0#32)
  let s ← mustInsert kernPgdir pp2 pgsize pteW s
  let w ← entryOf kernPgdir pgsize s
  assert (w &&& pteW ≠ 0#32)
  assert (w &&& pteU = 0#32)
  let s ← cannotInsert kernPgdir pp0 ptsize pteW s
  let s ← mustInsert kernPgdir pp1 pgsize pteW s
  let w ← entryOf kernPgdir pgsize s
  assert (w &&& pteU = 0#32)
  assert (checkVa2pa kernPgdir 0#32 s = some (page2pa pp1))
  assert (checkVa2pa kernPgdir pgsize s = some (page2pa pp1))
  assert ((s.pages pp1).ppRef = 2)
  assert ((s.pages pp2).ppRef = 0)
  let (pp, s) ← mustAlloc 0#32 s
  assert (pp = pp2)
  some s

/-- The part of `check_page` that takes the pages back. -/
def checkRemove (kernPgdir : Word) (pp0 pp1 pp2 : Nat) (s : Mem) : Option Mem := do
  let s ← pageRemove kernPgdir 0#32 s
  assert (checkVa2pa kernPgdir 0#32 s = some (~~~0#32))
  assert (checkVa2pa kernPgdir pgsize s = some (page2pa pp1))
  assert ((s.pages pp1).ppRef = 1)
  assert ((s.pages pp2).ppRef = 0)
  -- test re-inserting pp1 at PGSIZE
  let s ← mustInsert kernPgdir pp1 pgsize 0#32 s
  assert ((s.pages pp1).ppRef ≠ 0)
  assert ((s.pages pp1).ppLink = none)
  let s ← pageRemove kernPgdir pgsize s
  assert (checkVa2pa kernPgdir 0#32 s = some (~~~0#32))
  assert (checkVa2pa kernPgdir pgsize s = some (~~~0#32))
  assert ((s.pages pp1).ppRef = 0)
  assert ((s.pages pp2).ppRef = 0)
  let (pp, s) ← mustAlloc 0#32 s
  assert (pp = pp1)
  let s ← noneLeft s
  -- forcibly take pp0 back
  assert (pteAddr (load s (slot kernPgdir 0)) = page2pa pp0)
  let s := store (slot kernPgdir 0) 0#32 s
  assert ((s.pages pp0).ppRef = 1)
  some (s.setRef pp0 0)

/-- The part of `check_page` about `pgdir_walk`. -/
def checkWalk (kernPgdir : Word) (pp0 : Nat) (s : Mem) : Option Mem := do
  let s ← pageFree pp0 s
  let va := pgsize * BitVec.ofNat 32 npdentries + pgsize
  let (ptep, s) ← pgdirWalk kernPgdir va true s
  let ptep1 ← kaddr s.npages (pteAddr (load s (slot kernPgdir (pdx va))))
  assert (ptep = some (slot ptep1 (ptx va)))
  let s := (store (slot kernPgdir (pdx va)) 0#32 s).setRef pp0 0
  let k ← page2kva s.npages pp0
  let s ← pageFree pp0 (memsetWords k 1024 0xFFFFFFFF#32 s)
  let (_, s) ← pgdirWalk kernPgdir 0#32 true s
  assert (∀ i < nptentries, present (load s (slot k i)) = false)
  some ((store (slot kernPgdir 0) 0#32 s).setRef pp0 0)

/-- The address, the next value of the static variable `base`, and the memory. -/
def mmioMapRegion (kernPgdir base pa size : Word) (s : Mem) : Option (Word × Word × Mem) := do
  let s ← bootMapRegion kernPgdir base (roundup size pgsize) pa (ptePcd ||| ptePwt ||| pteW) s
  assert (base + roundup size pgsize < mmiolim)
  some (base, base + roundup size pgsize, s)

/-- The part of `check_page` about `mmio_map_region`. -/
def checkMmio (kernPgdir base : Word) (s : Mem) : Option (Word × Mem) := do
  let (mm1, base, s) ← mmioMapRegion kernPgdir base 0#32 4097#32 s
  let (mm2, base, s) ← mmioMapRegion kernPgdir base 0#32 4096#32 s
  assert (mm1 ≥ mmiobase ∧ mm1 + 8096#32 < mmiolim)
  assert (mm2 ≥ mmiobase ∧ mm2 + 8096#32 < mmiolim)
  assert (mm1 % pgsize = 0#32 ∧ mm2 % pgsize = 0#32)
  assert (mm1 + 8096#32 ≤ mm2)
  assert (checkVa2pa kernPgdir mm1 s = some 0#32)
  assert (checkVa2pa kernPgdir (mm1 + pgsize) s = some pgsize)
  assert (checkVa2pa kernPgdir mm2 s = some 0#32)
  assert (checkVa2pa kernPgdir (mm2 + pgsize) s = some (~~~0#32))
  let w ← entryOf kernPgdir mm1 s
  assert (w &&& (pteW ||| ptePwt ||| ptePcd) ≠ 0#32)
  assert (w &&& pteU = 0#32)
  let s ← clearEntry kernPgdir mm1 s
  let s ← clearEntry kernPgdir (mm1 + pgsize) s
  let s ← clearEntry kernPgdir mm2 s
  some (base, s)

def checkPage (kernPgdir base : Word) (s : Mem) : Option (Word × Mem) := do
  let (pp0, pp1, pp2, s) ← allocThree s
  -- temporarily steal the rest of the free pages
  let fl := s.pageFreeList
  let s ← noneLeft { s with pageFreeList := none }
  let s ← checkInsert kernPgdir pp0 pp1 pp2 s
  let s ← checkPermissions kernPgdir pp0 pp1 pp2 s
  let s ← checkRemove kernPgdir pp0 pp1 pp2 s
  let s ← checkWalk kernPgdir pp0 s
  -- give free list back
  let s ← freeThree pp0 pp1 pp2 { s with pageFreeList := fl }
  checkMmio kernPgdir base s

def checkKernPgdir (kernPgdir pages percpuKstacks : Word) (s : Mem) : Option Unit := do
  assert (∀ j < ((roundup extphysmem pgsize - iophysmem) / pgsize).toNat,
    checkVa2pa kernPgdir (iophysmem + BitVec.ofNat 32 j * pgsize) s =
      some (iophysmem + BitVec.ofNat 32 j * pgsize))
  let pagesPa ← paddr pages
  assert (∀ j < (roundup (BitVec.ofNat 32 s.npages * sizeofPageInfo) pgsize / pgsize).toNat,
    checkVa2pa kernPgdir (upages + BitVec.ofNat 32 j * pgsize) s = some
      (pagesPa + BitVec.ofNat 32 j * pgsize))
  assert (∀ j < (BitVec.ofNat 32 s.npages * pgsize / pgsize).toNat,
    checkVa2pa kernPgdir (kernbase + BitVec.ofNat 32 j * pgsize) s = some
      (BitVec.ofNat 32 j * pgsize))
  assert (∀ n < maxCpu,
    let base := kstacktop - (kstksize + kstkgap) * (BitVec.ofNat 32 n + 1#32)
    (∀ j < (kstksize / pgsize).toNat, checkVa2pa kernPgdir
      (base + kstkgap + BitVec.ofNat 32 j * pgsize) s =
      (paddr (percpuKstacks + BitVec.ofNat 32 n * kstksize)).map (· + BitVec.ofNat 32 j * pgsize)) ∧
    ∀ j < (kstkgap / pgsize).toNat, checkVa2pa kernPgdir (base + BitVec.ofNat 32 j * pgsize) s =
      some (~~~0#32))
  assert (∀ i < npdentries,
    let pde := load s (slot kernPgdir i)
    if i ∈ [pdx iophysmem, pdx uvpt, pdx (kstacktop - 1#32), pdx upages, pdx mmiobase]
      then present pde = true
    else if i ≥ pdx kernbase then present pde = true ∧ pde &&& pteW ≠ 0#32
    else pde = 0#32)

/-- The word at a virtual address that the installed directory maps. -/
def loadVirtual (pgdir va : Word) (s : Mem) : Option Word := do
  let pa ← checkVa2pa pgdir va s
  let k ← kaddr s.npages pa
  some (load s (k + va % pgsize))

def storeVirtual (pgdir va w : Word) (s : Mem) : Option Mem := do
  let pa ← checkVa2pa pgdir va s
  let k ← kaddr s.npages pa
  some (store (k + va % pgsize) w s)

def checkPageInstalledPgdir (kernPgdir : Word) (s : Mem) : Option Mem := do
  let (pp0, s) ← mustAlloc 0#32 s
  let (pp1, s) ← mustAlloc 0#32 s
  let (pp2, s) ← mustAlloc 0#32 s
  let s ← pageFree pp0 s
  let k1 ← page2kva s.npages pp1
  let k2 ← page2kva s.npages pp2
  let s := memsetWords k2 1024 0x02020202#32 (memsetWords k1 1024 0x01010101#32 s)
  let (_, s) ← pageInsert kernPgdir pp1 extphysmem pteW s
  assert ((s.pages pp1).ppRef = 1)
  assert (loadVirtual kernPgdir extphysmem s = some 0x01010101#32)
  let (_, s) ← pageInsert kernPgdir pp2 extphysmem pteW s
  assert (loadVirtual kernPgdir extphysmem s = some 0x02020202#32)
  assert ((s.pages pp2).ppRef = 1)
  assert ((s.pages pp1).ppRef = 0)
  let s ← storeVirtual kernPgdir extphysmem 0x03030303#32 s
  assert (load s k2 = 0x03030303#32)
  let s ← pageRemove kernPgdir extphysmem s
  assert ((s.pages pp2).ppRef = 0)
  some s

/-- The mappings of `mem_init` at fixed addresses. -/
def staticRegions (pagesPa bootPa : Word) (npages : Nat) : List Region :=
  [⟨upages, roundup (sizeofPageInfo * BitVec.ofNat 32 npages) pgsize, pagesPa, pteU ||| pteP⟩,
    ⟨kstacktop - kstksize, roundup kstksize pgsize, bootPa, pteW⟩,
    ⟨kernbase, roundup (0xffffffff#32 - kernbase) pgsize, 0#32, pteW⟩,
    ⟨iophysmem, roundup (extphysmem - iophysmem) pgsize, iophysmem, pteW ||| pteP⟩]

def memInitMp (kernPgdir percpuKstacks : Word) (s : Mem) : Option Mem :=
  (List.range maxCpu).foldlM (fun s i => do
    let kstacktopI := kstacktop - BitVec.ofNat 32 i * (kstksize + kstkgap)
    let pa ← paddr (percpuKstacks + BitVec.ofNat 32 i * kstksize)
    bootMapRegion kernPgdir (kstacktopI - kstksize) (roundup kstksize pgsize) pa pteW s) s

/-- The variables that `mem_init` and `lapic_init` set; `mmioBase` is the static
variable of `mmio_map_region`. -/
structure Booted where
  mem : Mem
  kernPgdir : Word
  pages : Word
  mmioBase : Word
  lapic : Word

def memInit (M : Platform) : Option Booted := do
  let (npages, npagesBasemem) := i386DetectMemory M.cmos
  let (kernPgdir, nextfree) := bootAlloc M.kernEnd pgsize 0#32
  let (pages, nextfree) := bootAlloc M.kernEnd (sizeofPageInfo * npages) nextfree
  let b : Boot := ⟨npages, npagesBasemem, nextfree⟩
  let kernPa ← paddr kernPgdir
  let s := memsetPage kernPgdir (bootMem b M.ram)
  let s := store (slot kernPgdir (pdx uvpt)) (kernPa ||| pteU ||| pteP) s
  let s ← pageInit b s
  let s ← checkPageFreeList true nextfree s
  let s ← checkPageAlloc pages s
  let (mmioBase, s) ← checkPage kernPgdir mmiobase s
  let pagesPa ← paddr pages
  let bootPa ← paddr M.bootstack
  let s ← (staticRegions pagesPa bootPa s.npages).foldlM
    (fun s r => bootMapRegion kernPgdir r.va r.size r.pa r.perm s) s
  let s ← memInitMp kernPgdir M.percpuKstacks s
  checkKernPgdir kernPgdir pages M.percpuKstacks s
  let s ← checkPageFreeList false nextfree s
  let s ← checkPageInstalledPgdir kernPgdir s
  some ⟨s, kernPgdir, pages, mmioBase, 0#32⟩

/-- The mapping of `lapic_init`; the rest of it programs the device. -/
def lapicInit (lapicaddr : Word) (B : Booted) : Option Booted :=
  if lapicaddr = 0#32 then some B
  else if B.lapic = 0#32 then do
    let (lapic, mmioBase, s) ← mmioMapRegion B.kernPgdir B.mmioBase lapicaddr 4096#32 B.mem
    some { B with mem := s, mmioBase := mmioBase, lapic := lapic }
  else some B

end NctuCourses.Osdi
