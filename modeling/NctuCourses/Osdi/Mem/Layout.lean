import Mathlib.Data.BitVec
import Mathlib.Tactic.IntervalCases

namespace NctuCourses.Osdi

/-- The kernel is a 32-bit program: addresses, page table entries and `size_t` are words. -/
abbrev Word := BitVec 32

def pgsize : Word := 0x1000#32
def ptsize : Word := 0x400000#32
def npdentries : Nat := 1024
def nptentries : Nat := 1024

def kernbase : Word := 0xF0000000#32
def iophysmem : Word := 0x0A0000#32
def extphysmem : Word := 0x100000#32
def mpentryPaddr : Word := 0x7000#32

def pteP : Word := 0x001#32
def pteW : Word := 0x002#32
def pteU : Word := 0x004#32
def ptePwt : Word := 0x008#32
def ptePcd : Word := 0x010#32

def pgnum (la : Word) : Nat := (la >>> 12).toNat
def pdx (la : Word) : Nat := ((la >>> 22) &&& 0x3FF#32).toNat
def ptx (la : Word) : Nat := ((la >>> 12) &&& 0x3FF#32).toNat
def pteAddr (pte : Word) : Word := pte &&& ~~~0xFFF#32

def rounddown (a n : Word) : Word := a - a % n
def roundup (a n : Word) : Word := rounddown (a + n - 1#32) n

/-- The test `*pte & PTE_P`. -/
def present (pte : Word) : Bool := pte &&& pteP != 0#32

theorem pgnum_eq (la : Word) : pgnum la = la.toNat / 4096 := by
  simp [pgnum, Nat.shiftRight_eq_div_pow]

theorem pgnum_lt (la : Word) : pgnum la < 2 ^ 20 := by
  have h := la.isLt
  rw [pgnum_eq]
  omega

private theorem and_low10 (n : Nat) : n &&& 0x3FF = n % 1024 :=
  Nat.and_two_pow_sub_one_eq_mod n 10

theorem pdx_eq (la : Word) : pdx la = la.toNat / 4194304 := by
  have h := la.isLt
  simp only [pdx, BitVec.toNat_and, BitVec.toNat_ushiftRight, Nat.shiftRight_eq_div_pow,
    BitVec.toNat_ofNat]
  rw [show 1023 % 2 ^ 32 = 1023 from rfl, and_low10]
  omega

theorem ptx_eq (la : Word) : ptx la = la.toNat / 4096 % 1024 := by
  simp only [ptx, BitVec.toNat_and, BitVec.toNat_ushiftRight, Nat.shiftRight_eq_div_pow,
    BitVec.toNat_ofNat]
  rw [show 1023 % 2 ^ 32 = 1023 from rfl, and_low10]

theorem pdx_lt (la : Word) : pdx la < 1024 := by
  have h := la.isLt
  rw [pdx_eq]
  omega

theorem ptx_lt (la : Word) : ptx la < 1024 := by
  rw [ptx_eq]
  omega

/-- The page of an address is given by its directory index and its table index. -/
theorem pgnum_eq_pdx_ptx (la : Word) : pgnum la = 1024 * pdx la + ptx la := by
  rw [pgnum_eq, pdx_eq, ptx_eq]
  omega

theorem pteAddr_toNat (pte : Word) : (pteAddr pte).toNat = 4096 * pgnum pte := by
  have h : pteAddr pte = (pte >>> 12) <<< 12 := by
    apply BitVec.eq_of_getLsbD_eq
    intro i hi
    simp only [pteAddr, BitVec.getLsbD_and, BitVec.getLsbD_not, BitVec.getLsbD_shiftLeft,
      BitVec.getLsbD_ushiftRight]
    interval_cases i <;> simp
  have hlt := pte.isLt
  rw [h, pgnum_eq]
  simp only [BitVec.toNat_shiftLeft, BitVec.toNat_ushiftRight, Nat.shiftLeft_eq,
    Nat.shiftRight_eq_div_pow]
  omega

theorem pgnum_pteAddr (pte : Word) : pgnum (pteAddr pte) = pgnum pte := by
  rw [pgnum_eq, pteAddr_toNat]
  omega

/-- `struct PageInfo`; a pointer into `pages` is its index, and `NULL` is `none`. -/
structure PageInfo where
  ppLink : Option Nat
  ppRef : BitVec 16

/-- The memory side of the kernel: the `PageInfo` array with its free list, and physical memory
as 1024 words for each page. -/
structure Mem where
  npages : Nat
  pages : Nat → PageInfo
  pageFreeList : Option Nat
  numFreePages : Word
  ram : Nat → Nat → Word

def page2pa (pp : Nat) : Word := BitVec.ofNat 32 pp <<< 12

/-- `none` stands for a panic. -/
def pa2page (npages : Nat) (pa : Word) : Option Nat :=
  if npages ≤ pgnum pa then none else some (pgnum pa)

def kaddr (npages : Nat) (pa : Word) : Option Word :=
  if npages ≤ pgnum pa then none else some (pa + kernbase)

def paddr (kva : Word) : Option Word :=
  if kva < kernbase then none else some (kva - kernbase)

def page2kva (npages pp : Nat) : Option Word := kaddr npages (page2pa pp)

/-- The address `&a[i]` of a `uint32_t` array. -/
def slot (a : Word) (i : Nat) : Word := a + BitVec.ofNat 32 (4 * i)

/-- The kernel reaches physical memory through its linear map at `KERNBASE`. -/
def load (s : Mem) (kva : Word) : Word :=
  s.ram (pgnum (kva - kernbase)) ((kva - kernbase).toNat % 4096 / 4)

def Mem.setRam (s : Mem) (p i : Nat) (w : Word) : Mem :=
  { s with ram := fun q j => if q = p ∧ j = i then w else s.ram q j }

def store (kva w : Word) (s : Mem) : Mem :=
  s.setRam (pgnum (kva - kernbase)) ((kva - kernbase).toNat % 4096 / 4) w

def Mem.zeroPage (s : Mem) (p : Nat) : Mem :=
  { s with ram := fun q j => if q = p then 0#32 else s.ram q j }

/-- `memset(kva, 0, PGSIZE)` at a page-aligned address. -/
def memsetPage (kva : Word) (s : Mem) : Mem := s.zeroPage (pgnum (kva - kernbase))

/-- The kernel virtual address at which physical page `p` is reached. -/
def kva (p : Nat) : Word := page2pa p + kernbase

theorem page2pa_toNat (p : Nat) (hp : p < 2 ^ 20) : (page2pa p).toNat = 4096 * p := by
  simp only [page2pa, BitVec.toNat_shiftLeft, BitVec.toNat_ofNat, Nat.shiftLeft_eq]
  omega

theorem pgnum_page2pa (p : Nat) (hp : p < 2 ^ 20) : pgnum (page2pa p) = p := by
  rw [pgnum_eq, page2pa_toNat p hp]
  omega

theorem pgnum_page2pa_le (p : Nat) : pgnum (page2pa p) ≤ p := by
  rw [pgnum_eq]
  simp only [page2pa, BitVec.toNat_shiftLeft, BitVec.toNat_ofNat, Nat.shiftLeft_eq]
  omega

theorem page2kva_of_lt {n p : Nat} (hp : p < n) : page2kva n p = some (kva p) := by
  have h := pgnum_page2pa_le p
  have hn : ¬ n ≤ pgnum (page2pa p) := by omega
  simp [page2kva, kaddr, hn, kva]

theorem kaddr_pteAddr {n : Nat} {pte : Word} (h : pgnum pte < n) :
    kaddr n (pteAddr pte) = some (kva (pgnum pte)) := by
  have hn : ¬ n ≤ pgnum (pteAddr pte) := by rw [pgnum_pteAddr]; omega
  have he : pteAddr pte = page2pa (pgnum pte) := by
    apply BitVec.eq_of_toNat_eq
    rw [pteAddr_toNat, page2pa_toNat _ (pgnum_lt pte)]
  simp only [kaddr, hn, if_false, kva, ← he]

theorem pa2page_pteAddr {n : Nat} {pte : Word} (h : pgnum pte < n) :
    pa2page n (pteAddr pte) = some (pgnum pte) := by
  have hn : ¬ n ≤ pgnum pte := by omega
  simp [pa2page, pgnum_pteAddr, hn]

theorem kva_sub_kernbase (p : Nat) : kva p - kernbase = page2pa p := by
  simp [kva]

private theorem slot_offset (p i : Nat) (hp : p < 2 ^ 20) (hi : i < 1024) :
    (slot (kva p) i - kernbase).toNat = 4096 * p + 4 * i := by
  have h : slot (kva p) i - kernbase = page2pa p + BitVec.ofNat 32 (4 * i) := by
    simp only [slot, kva]
    rw [add_right_comm, add_sub_cancel_right]
  rw [h, BitVec.toNat_add, page2pa_toNat p hp, BitVec.toNat_ofNat]
  omega

theorem load_slot (s : Mem) (p i : Nat) (hp : p < 2 ^ 20) (hi : i < 1024) :
    load s (slot (kva p) i) = s.ram p i := by
  rw [load, pgnum_eq, slot_offset p i hp hi]
  congr 1 <;> omega

theorem store_slot (s : Mem) (p i : Nat) (w : Word) (hp : p < 2 ^ 20) (hi : i < 1024) :
    store (slot (kva p) i) w s = s.setRam p i w := by
  rw [store, pgnum_eq, slot_offset p i hp hi]
  congr 1 <;> omega

theorem entry_toNat (p : Nat) (f : Word) (hp : p < 2 ^ 20) (hf : f.toNat < 4096) :
    (page2pa p ||| f).toNat = 4096 * p + f.toNat := by
  rw [BitVec.toNat_or, page2pa_toNat p hp]
  exact (Nat.two_pow_add_eq_or_of_lt (i := 12) hf p).symm

theorem pgnum_entry (p : Nat) (f : Word) (hp : p < 2 ^ 20) (hf : f.toNat < 4096) :
    pgnum (page2pa p ||| f) = p := by
  rw [pgnum_eq, entry_toNat p f hp hf]
  omega

theorem page2pa_pgnum {pa : Word} (hpa : pa.toNat % 4096 = 0) : page2pa (pgnum pa) = pa := by
  apply BitVec.eq_of_toNat_eq
  rw [page2pa_toNat _ (pgnum_lt pa), pgnum_eq]
  omega

theorem page2pa_pgnum_or {pa f : Word} (hpa : pa.toNat % 4096 = 0) (hf : f.toNat < 4096) :
    page2pa (pgnum (pa ||| f)) = pa := by
  have hp := page2pa_pgnum hpa
  have he := pgnum_entry _ f (pgnum_lt pa) hf
  rw [hp] at he
  rw [he, hp]

theorem present_iff (w : Word) : present w = true ↔ w.getLsbD 0 = true := by
  have h : w &&& pteP = if w.getLsbD 0 then 1#32 else 0#32 := by
    apply BitVec.eq_of_getLsbD_eq
    intro i hi
    simp only [pteP, BitVec.getLsbD_and]
    by_cases h0 : i = 0
    · subst h0
      cases w.getLsbD 0 <;> simp
    · have h1 : (0x001#32).getLsbD i = false := by
        interval_cases i <;> simp_all
      rw [h1]
      cases w.getLsbD 0 <;> simp [h1]
  rw [present, h]
  cases w.getLsbD 0 <;> simp

@[simp] theorem present_zero : present 0#32 = false := by decide

theorem present_or_left {v w : Word} (h : present v = true) : present (v ||| w) = true := by
  rw [present_iff] at h ⊢
  simp [h]

theorem present_or_right {v w : Word} (h : present w = true) : present (v ||| w) = true := by
  rw [present_iff] at h ⊢
  simp [h]

@[simp] theorem present_pteP : present pteP = true := by decide

theorem entry_low (p : Nat) (f : Word) (hf : f.toNat < 4096) :
    (page2pa p ||| pteP ||| f) &&& 0xFFF#32 = f ||| pteP := by
  have hlow : f &&& 0xFFF#32 = f := by
    apply BitVec.eq_of_toNat_eq
    rw [BitVec.toNat_and, show (0xFFF#32).toNat = 2 ^ 12 - 1 from rfl,
      Nat.and_two_pow_sub_one_eq_mod, Nat.mod_eq_of_lt hf]
  have hpage : page2pa p &&& 0xFFF#32 = 0#32 := by
    apply BitVec.eq_of_toNat_eq
    rw [BitVec.toNat_and, show (0xFFF#32).toNat = 2 ^ 12 - 1 from rfl,
      Nat.and_two_pow_sub_one_eq_mod]
    simp only [page2pa, BitVec.toNat_shiftLeft, BitVec.toNat_ofNat, Nat.shiftLeft_eq]
    omega
  have hp : pteP &&& 0xFFF#32 = pteP := by decide
  rw [BitVec.and_comm, BitVec.and_or_distrib_left, BitVec.and_or_distrib_left,
    BitVec.and_comm _ (page2pa p), BitVec.and_comm _ pteP, BitVec.and_comm _ f, hpage, hp, hlow,
    BitVec.zero_or, BitVec.or_comm]

end NctuCourses.Osdi
