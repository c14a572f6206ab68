import NctuCourses.Lib.BitField
import NctuCourses.Osdi.Fat.Window

namespace NctuCourses.Osdi.Fat

open NctuCourses.Lib
open NctuCourses.Osdi.Fs (FResult)

def ldWord (ptr : Nat → BitVec 8) (i : Nat) : BitVec 16 :=
  (ptr (i + 1)).setWidth 16 <<< 8 ||| (ptr i).setWidth 16

def ldDword (ptr : Nat → BitVec 8) (i : Nat) : BitVec 32 :=
  (((ptr (i + 3)).setWidth 32 <<< 8 ||| (ptr (i + 2)).setWidth 32) <<< 8 |||
    (ptr (i + 1)).setWidth 32) <<< 8 |||
    (ptr i).setWidth 32

def stWord (s : Sector) (i : Nat) (val : BitVec 16) : Sector :=
  (s.put i (val.setWidth 8)).put (i + 1) ((val >>> 8).setWidth 8)

def stDword (s : Sector) (i : Nat) (val : BitVec 32) : Sector :=
  (((s.put i (val.setWidth 8)).put (i + 1) ((val >>> 8).setWidth 8)).put (i + 2)
    ((val >>> 16).setWidth 8)).put (i + 3) ((val >>> 24).setWidth 8)

def getFat (g : Geometry) (clst : Nat) : StateM Fatfs Nat := do
  if clst < 2 ∨ clst ≥ g.nFatent then return 1
  match g.fsType with
  | .fat12 =>
    let bc := clst + clst / 2
    if (← moveWindow g (g.fatbase + bc / ss)) ≠ .ok then return allOnes
    let wc := ((← get).win.byte bc).setWidth 32
    let bc := bc + 1
    if (← moveWindow g (g.fatbase + bc / ss)) ≠ .ok then return allOnes
    let wc := wc ||| ((← get).win.byte bc).setWidth 32 <<< 8
    return (if clst % 2 = 1 then wc >>> 4 else wc &&& 0xFFF).toNat
  | .fat16 =>
    if (← moveWindow g (g.fatbase + clst / (ss / 2))) ≠ .ok then return allOnes
    return (ldWord (← get).win.byte (clst * 2 % ss)).toNat
  | .fat32 =>
    if (← moveWindow g (g.fatbase + clst / (ss / 4))) ≠ .ok then return allOnes
    return (ldDword (← get).win.byte (clst * 4 % ss) &&& 0x0FFFFFFF).toNat

/-- The first byte of a 12-bit entry, with the neighbour's bits kept. -/
def fat12Low (clst : Nat) (val : BitVec 32) (p : BitVec 8) : BitVec 8 :=
  if clst % 2 = 1 then p &&& 0x0F#8 ||| val.setWidth 8 <<< 4 else val.setWidth 8

/-- The second byte of a 12-bit entry, with the neighbour's bits kept. -/
def fat12High (clst : Nat) (val : BitVec 32) (p : BitVec 8) : BitVec 8 :=
  if clst % 2 = 1 then (val >>> 4).setWidth 8
  else p &&& 0xF0#8 ||| (val >>> 8).setWidth 8 &&& 0x0F#8

def putFat (g : Geometry) (clst val : Nat) : StateM Fatfs FResult := do
  if ¬ (clst ≥ 2 ∧ clst < g.nFatent) then return .intErr
  let val := BitVec.ofNat 32 val
  match g.fsType with
  | .fat12 =>
    let bc := clst + clst / 2
    let res ← moveWindow g (g.fatbase + bc / ss)
    if res ≠ .ok then return res
    store fun win => win.put bc (fat12Low clst val (win.byte bc))
    let bc := bc + 1
    let res ← moveWindow g (g.fatbase + bc / ss)
    if res ≠ .ok then return res
    store fun win => win.put bc (fat12High clst val (win.byte bc))
    return .ok
  | .fat16 =>
    let res ← moveWindow g (g.fatbase + clst / (ss / 2))
    if res ≠ .ok then return res
    store fun win => stWord win (clst * 2 % ss) (val.setWidth 16)
    return .ok
  | .fat32 =>
    let res ← moveWindow g (g.fatbase + clst / (ss / 4))
    if res ≠ .ok then return res
    store fun win => stDword win (clst * 4 % ss)
      (val &&& 0x0FFFFFFF ||| ldDword win.byte (clst * 4 % ss) &&& 0xF0000000)
    return .ok

/-- The bytes of the first FAT. -/
def fatBytes (g : Geometry) (d : Nat → Sector) (b : Nat) : BitVec 8 :=
  (d (g.fatbase + b / 512)).byte b

/-- The value of a FAT entry. -/
def entry (g : Geometry) (d : Nat → Sector) (c : Nat) : Nat :=
  field (fatBytes g d) (g.fsType.bits * c) g.fsType.width

def Geometry.InFat (g : Geometry) (s : Nat) : Prop := g.fatbase ≤ s ∧ s < g.fatbase + g.fsize

section Words

variable (b : Nat → BitVec 8) (i : Nat)

theorem reads_word : Reads b (8 * i) 16 (ldWord b i) :=
  (reads_byte (by decide) (i + 1)).cons (by decide)

theorem reads_dword : Reads b (8 * i) 32 (ldDword b i) :=
  (((reads_byte (by decide) (i + 3)).cons (by decide)).cons (by decide)).cons (by decide)

theorem placed_word (v : BitVec 16) : Placed b
    (Function.update (Function.update b i (v.setWidth 8)) (i + 1) ((v >>> 8).setWidth 8))
      (8 * i) 16 v.toNat :=
  (placed_low v i).snoc (w := 1)

theorem placed_dword (v : BitVec 32) : Placed b
    (Function.update (Function.update (Function.update (Function.update b i (v.setWidth 8))
      (i + 1) ((v >>> 8).setWidth 8)) (i + 2) ((v >>> 16).setWidth 8)) (i + 3)
      ((v >>> 24).setWidth 8)) (8 * i) 32 v.toNat :=
  (((placed_low v i).snoc (w := 1)).snoc (w := 2)).snoc (w := 3)

end Words

theorem Sector.byte_congr (s : Sector) {i j : Nat} (h : i % 512 = j % 512) : s.byte i = s.byte j :=
  congrArg s (Fin.ext h)

section OnSector

variable {s : Sector} {b : Nat → BitVec 8} {n : Nat} (hs : ∀ i, i / 512 = n / 512 → s.byte i = b i)

include hs

theorem ldWord_sector (hn : n % 2 = 0) : ldWord s.byte (n % 512) = ldWord b n := by
  unfold ldWord
  rw [← hs n rfl, ← hs (n + 1) (by omega), s.byte_congr (Nat.mod_mod n 512),
    s.byte_congr (Nat.mod_add_mod n 512 1)]

theorem ldDword_sector (hn : n % 4 = 0) : ldDword s.byte (n % 512) = ldDword b n := by
  unfold ldDword
  rw [← hs n rfl, ← hs (n + 1) (by omega), ← hs (n + 2) (by omega), ← hs (n + 3) (by omega),
    s.byte_congr (Nat.mod_mod n 512), s.byte_congr (Nat.mod_add_mod n 512 1),
    s.byte_congr (Nat.mod_add_mod n 512 2), s.byte_congr (Nat.mod_add_mod n 512 3)]

theorem put_sector (x : BitVec 8) (i : Nat) :
    (if i / 512 = n / 512 then (s.put n x).byte i else b i) = Function.update b n x i := by
  rw [Sector.byte_put, Function.update_apply]
  by_cases hi : i / 512 = n / 512
  · rw [if_pos hi, hs i hi]
    exact if_congr (by omega) rfl rfl
  · rw [if_neg hi, if_neg (by rintro rfl; exact hi rfl)]

theorem stWord_sector (hn : n % 2 = 0) (w : BitVec 16) (i : Nat) :
    (if i / 512 = n / 512 then (stWord s (n % 512) w).byte i else b i) =
      Function.update (Function.update b n (w.setWidth 8)) (n + 1) ((w >>> 8).setWidth 8) i := by
  simp only [stWord, Sector.byte_put, Function.update_apply]
  by_cases hi : i / 512 = n / 512
  · rw [if_pos hi, hs i hi]
    exact if_congr (by omega) rfl (if_congr (by omega) rfl rfl)
  · rw [if_neg hi, if_neg (by omega), if_neg (by omega)]

theorem stDword_sector (hn : n % 4 = 0) (w : BitVec 32) (i : Nat) :
    (if i / 512 = n / 512 then (stDword s (n % 512) w).byte i else b i) =
      Function.update (Function.update (Function.update (Function.update b n (w.setWidth 8)) (n + 1)
        ((w >>> 8).setWidth 8)) (n + 2) ((w >>> 16).setWidth 8)) (n + 3)
          ((w >>> 24).setWidth 8) i := by
  simp only [stDword, Sector.byte_put, Function.update_apply]
  by_cases hi : i / 512 = n / 512
  · rw [if_pos hi, hs i hi]
    exact if_congr (by omega) rfl
      (if_congr (by omega) rfl (if_congr (by omega) rfl (if_congr (by omega) rfl rfl)))
  · rw [if_neg hi, if_neg (by omega), if_neg (by omega), if_neg (by omega), if_neg (by omega)]

end OnSector

section

variable {g : Geometry} {v : Fatfs}

theorem Geometry.InFat.lt_allOnes (hg : g.Ok) {s : Nat} (h : g.InFat s) : s < allOnes := by
  have harea := hg.area
  have hroom := hg.room
  have hone : allOnes + 1 = 2 ^ 32 := by decide
  unfold Geometry.InFat at h
  obtain hf | hf := hg.nFats <;> rw [hf] at harea <;> omega

theorem Geometry.InFat.not_mirror {s : Nat} (h : g.InFat s) : ¬ g.Mirror s := fun hm => by
  unfold Geometry.InFat at h
  have := hm.1
  omega

theorem Geometry.inFat_byte {b : Nat} (hb : b < 512 * g.fsize) : g.InFat (g.fatbase + b / 512) := by
  unfold Geometry.InFat
  omega

/-- Where the window can be after an access to the FAT. -/
def FatWin (g : Geometry) (v t : Fatfs) : Prop :=
  t.winsect = v.winsect ∨ g.InFat t.winsect

theorem FatWin.trans {t u : Fatfs} (h : FatWin g v t) (k : FatWin g t u) : FatWin g v u := by
  unfold FatWin at *
  rcases k with k | k
  · rwa [k]
  · exact .inr k

/-- The window on the sector of a byte of the FAT. -/
structure OnByte (g : Geometry) (b : Nat) (v : Fatfs) (r : FResult) (t : Fatfs) : Prop where
  result : r = .ok
  win : WinOk g t
  moved : Moved g v t
  winsect : t.winsect = g.fatbase + b / 512
  bytes : ∀ i, i / 512 = b / 512 → t.win.byte i = fatBytes g v.view i

theorem moveWindow_fat (hg : g.Ok) (hv : WinOk g v) {b : Nat} (hb : b < 512 * g.fsize) :
    Post (moveWindow g (g.fatbase + b / 512)) v (OnByte g b v) := by
  have hin := g.inFat_byte hb
  refine (moveWindow_spec hg hv (hin.lt_allOnes hg) hin.not_mirror (hg.not_info hin.1)).mono ?_
  intro r t h
  refine ⟨h.result, h.win, h.moved, h.winsect, fun i hi => ?_⟩
  rw [h.eq, fatBytes, hi]

theorem OnByte.inFat {b : Nat} {r : FResult} {t : Fatfs} (h : OnByte g b v r t)
    (hb : b < 512 * g.fsize) :
    g.InFat t.winsect := h.winsect ▸ g.inFat_byte hb

theorem fatBytes_congr {t : Fatfs} (h : Moved g v t) {b : Nat} (hb : b < 512 * g.fsize) :
    fatBytes g t.view b = fatBytes g v.view b := by
  rw [fatBytes, fatBytes, h.view _ (g.inFat_byte hb).not_mirror]

/-- What a call of `get_fat` guarantees for a cluster of the volume. -/
structure Got (g : Geometry) (c : Nat) (v : Fatfs) (r : Nat) (t : Fatfs) : Prop where
  result : r = entry g v.view c
  win : WinOk g t
  moved : Moved g v t
  inFat : g.InFat t.winsect

theorem Geometry.Ok.byte_lt (hg : g.Ok) {c b : Nat} (hc : c < g.nFatent)
    (hb : 8 * b < g.fsType.bits * (c + 1)) : b < 512 * g.fsize := by
  have : 8 * b < 8 * 512 * g.fsize := calc
    8 * b < g.fsType.bits * (c + 1) := hb
    _ ≤ g.fsType.bits * g.nFatent := Nat.mul_le_mul_left _ hc
    _ ≤ 8 * 512 * g.fsize := hg.table
  omega

theorem reads_fat12 (b : Nat → BitVec 8) (c : Nat) {wc : BitVec 32}
    (h : Reads b (8 * (c + c / 2)) 16 wc) :
    Reads b (12 * c) 12 (if c % 2 = 1 then wc >>> 4 else wc &&& 0xFFF) := by
  split
  · rw [show 12 * c = 8 * (c + c / 2) + 4 by omega]
    exact h.shiftRight
  · rw [show 12 * c = 8 * (c + c / 2) by omega]
    exact h.mask (by decide) rfl (by decide)

theorem getFat_spec (hg : g.Ok) (hv : WinOk g v) {c : Nat} (hc : 2 ≤ c ∧ c < g.nFatent) :
    Post (getFat g c) v (Got g c v) := by
  have hbyte := @Geometry.Ok.byte_lt g hg c
  unfold getFat
  rw [if_neg (by omega)]
  cases hT : g.fsType with
  | fat12 =>
    have hb : ∀ b, b ≤ c + c / 2 + 1 → b < 512 * g.fsize :=
      fun b hb => hbyte hc.2 (by rw [hT, FatType.bits]; omega)
    refine (moveWindow_fat hg hv (hb (c + c / 2) (by omega))).bind fun r t h => ?_
    rw [h.result, if_neg (by decide), post_bind, post_get]
    refine (moveWindow_fat hg h.win (hb (c + c / 2 + 1) (by omega))).bind fun r u k => ?_
    rw [k.result]
    refine ⟨?_, k.win, h.moved.trans k.moved, k.inFat (hb _ le_rfl)⟩
    rw [entry, hT]
    refine (reads_fat12 _ c ?_).toNat
    rw [h.bytes _ rfl, k.bytes _ rfl, BitVec.or_comm, fatBytes_congr h.moved (hb _ le_rfl)]
    exact (reads_byte (by decide) (c + c / 2 + 1)).cons (by decide)
  | fat16 =>
    have hb : c * 2 < 512 * g.fsize := hbyte hc.2 (by rw [hT, FatType.bits]; omega)
    rw [show c / (ss / 2) = c * 2 / 512 by simp [ss]; omega]
    refine (moveWindow_fat hg hv hb).bind fun r t h => ?_
    rw [h.result]
    refine ⟨?_, h.win, h.moved, h.inFat hb⟩
    have hword := ldWord_sector h.bytes (by omega)
    rw [entry, hT, FatType.bits, FatType.width,
      show 16 * c = 8 * (c * 2) by omega, ← (reads_word _ _).toNat, ← hword]
    rfl
  | fat32 =>
    have hb : c * 4 < 512 * g.fsize := hbyte hc.2 (by rw [hT, FatType.bits]; omega)
    rw [show c / (ss / 4) = c * 4 / 512 by simp [ss]; omega]
    refine (moveWindow_fat hg hv hb).bind fun r t h => ?_
    rw [h.result]
    refine ⟨?_, h.win, h.moved, h.inFat hb⟩
    have hword := ldDword_sector h.bytes (by omega)
    have hmask : Reads (fatBytes g v.view) (8 * (c * 4)) 28
        (ldDword (fatBytes g v.view) (c * 4) &&& 0x0FFFFFFF) :=
      (reads_dword _ _).mask (by decide) rfl (by decide)
    rw [entry, hT, FatType.bits, FatType.width,
      show 32 * c = 8 * (c * 4) by omega, ← hmask.toNat, ← hword]
    rfl

theorem fatBytes_update (d : Nat → Sector) (n : Nat) (w : Sector) (b : Nat) :
    fatBytes g (Function.update d (g.fatbase + n / 512) w) b = if b / 512 = n / 512
    then w.byte b else fatBytes g d b := by
  unfold fatBytes Function.update
  by_cases h : b / 512 = n / 512
  · simp [h]
  · simp [h]

theorem getLsbD_nibble (x y : BitVec 8) {r : Nat} (hr : r < 8) :
    (x &&& 0x0F#8 ||| y <<< 4).getLsbD r = if r < 4 then x.getLsbD r else y.getLsbD (r - 4) := by
  rw [show 0x0F#8 = (BitVec.allOnes 4).setWidth 8 by rfl]
  simp only [BitVec.getLsbD_or, BitVec.getLsbD_and, BitVec.getLsbD_setWidth,
    BitVec.getLsbD_allOnes, BitVec.getLsbD_shiftLeft, hr]
  split <;> grind

theorem getLsbD_nibble' (x y : BitVec 8) {r : Nat} (hr : r < 8) :
    (x &&& 0xF0#8 ||| y &&& 0x0F#8).getLsbD r = if r < 4 then y.getLsbD r else x.getLsbD r := by
  rw [show 0x0F#8 = (BitVec.allOnes 4).setWidth 8 by rfl,
    show 0xF0#8 = (BitVec.allOnes 4).setWidth 8 <<< 4 by rfl]
  simp only [BitVec.getLsbD_or, BitVec.getLsbD_and, BitVec.getLsbD_setWidth,
    BitVec.getLsbD_allOnes, BitVec.getLsbD_shiftLeft, hr]
  split <;> grind

theorem getLsbD_fat12Low (c : Nat) (val : BitVec 32) (b : Nat → BitVec 8) {k : Nat}
    (hk : k / 8 = c + c / 2) :
    (fat12Low c val (b (k / 8))).getLsbD (k % 8) = if 12 * c ≤ k then val.getLsbD (k - 12 * c)
    else bitAt b k := by
  have hr : k % 8 < 8 := Nat.mod_lt _ (by decide)
  unfold fat12Low
  split
  · rw [getLsbD_nibble _ _ hr, BitVec.getLsbD_setWidth]
    by_cases h : k % 8 < 4
    · rw [if_pos h, if_neg (by omega), bitAt]
    · rw [if_neg h, if_pos (by omega), show k - 12 * c = k % 8 - 4 by omega]
      simp [show k % 8 - 4 < 8 by omega]
  · rw [BitVec.getLsbD_setWidth, if_pos (by omega), show k - 12 * c = k % 8 by omega]
    simp [hr]

theorem getLsbD_fat12High (c : Nat) (val : BitVec 32) (b : Nat → BitVec 8) {k : Nat}
    (hk : k / 8 = c + c / 2 + 1) :
    (fat12High c val (b (k / 8))).getLsbD (k % 8) = if k < 12 * c + 12 then val.getLsbD (k - 12 * c)
    else bitAt b k := by
  have hr : k % 8 < 8 := Nat.mod_lt _ (by decide)
  unfold fat12High
  split
  · rw [BitVec.getLsbD_setWidth, BitVec.getLsbD_ushiftRight, if_pos (by omega),
      show k - 12 * c = 4 + k % 8 by omega]
    simp [hr]
  · rw [getLsbD_nibble' _ _ hr, BitVec.getLsbD_setWidth, BitVec.getLsbD_ushiftRight]
    by_cases h : k % 8 < 4
    · rw [if_pos h, if_pos (by omega), show k - 12 * c = 8 + k % 8 by omega]
      simp [hr]
    · rw [if_neg h, if_neg (by omega), bitAt]

theorem placed_fat12 (b : Nat → BitVec 8) (c : Nat) (val : BitVec 32) :
    Placed b (Function.update (Function.update b (c + c / 2) (fat12Low c val (b (c + c / 2))))
      (c + c / 2 + 1)
      (fat12High c val (b (c + c / 2 + 1)))) (12 * c) 12 val.toNat := by
  intro k
  rw [bitAt_update, bitAt_update, BitVec.testBit_toNat]
  by_cases h1 : k / 8 = c + c / 2 + 1
  · rw [if_pos h1, ← h1, getLsbD_fat12High c val b h1]
    split
    · rw [if_pos (by omega)]
    · rw [if_neg (by omega)]
  · rw [if_neg h1]
    by_cases h2 : k / 8 = c + c / 2
    · rw [if_pos h2, ← h2, getLsbD_fat12Low c val b h2]
      split
      · rw [if_pos (by omega)]
      · rw [if_neg (by omega)]
    · rw [if_neg h2, if_neg (by omega)]

/-- What a call of `put_fat` guarantees for a cluster of the volume. -/
structure Put (g : Geometry) (c x : Nat) (v : Fatfs) (r : FResult) (t : Fatfs) : Prop where
  result : r = .ok
  win : WinOk g t
  kept : Kept g v t
  inFat : g.InFat t.winsect
  other : ∀ s, ¬ g.InFat s → ¬ g.Mirror s → t.view s = v.view s
  entries : ∀ c' < g.nFatent, c' ≠ c → entry g t.view c' = entry g v.view c'
  entry_eq : entry g t.view c = x % 2 ^ g.fsType.width

theorem entry_congr {d d' : Nat → Sector} {c : Nat}
    (h : ∀ i < g.fsType.bits, bitAt (fatBytes g d') (g.fsType.bits * c + i) =
      bitAt (fatBytes g d) (g.fsType.bits * c + i)) :
    entry g d' c = entry g d c :=
  field_congr fun i hi => h i (hi.trans_le (by cases g.fsType <;> decide))

theorem FatType.bits_disjoint (T : FatType) {c c' i : Nat} (hi : i < T.bits) (h : c' ≠ c) :
    ¬ (T.bits * c ≤ T.bits * c' + i ∧ T.bits * c' + i < T.bits * c + T.width) := by
  have hw : T.width ≤ T.bits := by cases T <;> decide
  obtain hlt | hgt := lt_or_gt_of_ne h
  · have := Nat.mul_le_mul_left T.bits hlt
    rw [Nat.mul_succ] at this
    omega
  · have := Nat.mul_le_mul_left T.bits hgt
    rw [Nat.mul_succ] at this
    omega

theorem Geometry.Ok.bit_lt (hg : g.Ok) {c i : Nat} (hc : c < g.nFatent) (hi : i < g.fsType.bits) :
    (g.fsType.bits * c + i) / 8 < 512 * g.fsize := by
  refine hg.byte_lt hc ?_
  rw [Nat.mul_succ]
  omega

theorem entry_of_outside (hg : g.Ok) {d d' : Nat → Sector} {c : Nat}
    (h : ∀ k, k / 8 < 512 * g.fsize → ¬ (g.fsType.bits * c ≤ k ∧
      k < g.fsType.bits * c + g.fsType.width) → bitAt (fatBytes g d') k = bitAt (fatBytes g d) k)
    {c' : Nat} (hc' : c' < g.nFatent) (hne : c' ≠ c) :
    entry g d' c' = entry g d c' :=
  entry_congr fun _ hi => h _ (hg.bit_lt hc' hi) (g.fsType.bits_disjoint hi hne)

section Placed

variable {d d' : Nat → Sector} {b : Nat → BitVec 8} {c x : Nat}
  (hb : ∀ i < 512 * g.fsize, fatBytes g d' i = b i)

include hb

theorem bitAt_of_bytes {k : Nat} (hk : k / 8 < 512 * g.fsize) :
    bitAt (fatBytes g d') k = bitAt b k := by
  rw [bitAt, bitAt, hb _ hk]

variable (hp : Placed (fatBytes g d) b (g.fsType.bits * c) g.fsType.width x)

include hp

theorem entry_of_placed (hg : g.Ok) {c' : Nat} (hc' : c' < g.nFatent) (hne : c' ≠ c) :
    entry g d' c' = entry g d c' :=
  entry_of_outside hg (fun k hk hout => by rw [bitAt_of_bytes hb hk, hp, if_neg hout]) hc' hne

theorem entry_placed (hg : g.Ok) (hc : c < g.nFatent) : entry g d' c = x % 2 ^ g.fsType.width := by
  have hw : g.fsType.width ≤ g.fsType.bits := by cases g.fsType <;> decide
  refine Eq.trans (field_congr fun i hi => ?_) hp.field_eq
  exact bitAt_of_bytes hb (hg.bit_lt hc (hi.trans_le hw))

end Placed

/-- A store into the FAT, seen in its bytes. -/
structure FatStored (g : Geometry) (n : Nat) (f : Sector → Sector) (v t : Fatfs) : Prop where
  win : WinOk g t
  kept : Kept g v t
  winsect : t.winsect = v.winsect
  other : ∀ s, ¬ g.InFat s → t.view s = v.view s
  bytes : ∀ b, fatBytes g t.view b = if b / 512 = n / 512 then (f v.win).byte b
    else fatBytes g v.view b

theorem store_fat (hg : g.Ok) (hv : WinOk g v) {n : Nat} (hn : n < 512 * g.fsize)
    (hs : v.winsect = g.fatbase + n / 512) (f : Sector → Sector) :
    Post (store f) v fun _ t => FatStored g n f v t := by
  have hin := g.inFat_byte hn
  refine (store_spec hv ?_ f).mono fun _ t h => ⟨h.win, h.kept, h.winsect, fun s hs' =>
    ?_, fun b => ?_⟩
  · rw [hs]
    exact (hin.lt_allOnes hg).ne
  · rw [h.view, Function.update_of_ne]
    rintro rfl
    exact hs' (hs ▸ hin)
  · rw [h.view, hs, fatBytes_update]

theorem Put.of_placed {t : Fatfs} {b : Nat → BitVec 8} {c x : Nat} (hg : g.Ok) (hc : c < g.nFatent)
    (hw : WinOk g t) (hk : Kept g v t) (hin : g.InFat t.winsect)
    (ho : ∀ s, ¬ g.InFat s → ¬ g.Mirror s → t.view s = v.view s)
    (hb : ∀ i < 512 * g.fsize, fatBytes g t.view i = b i)
    (hp : Placed (fatBytes g v.view) b (g.fsType.bits * c) g.fsType.width x) :
    Put g c x v .ok t where
  result := rfl
  win := hw
  kept := hk
  inFat := hin
  other := ho
  entries _ hc' hne := entry_of_placed hb hp hg hc' hne
  entry_eq := entry_placed hb hp hg hc

theorem bytes_of_store {n : Nat} {f : Sector → Sector} {t u : Fatfs} (hm : Moved g v t)
    (hu : FatStored g n f t u) :
    ∀ i < 512 * g.fsize, fatBytes g u.view i = if i / 512 = n / 512 then (f t.win).byte i
    else fatBytes g v.view i := by
  intro i hi
  rw [hu.bytes, fatBytes_congr hm hi]

theorem placed_fat16 (b : Nat → BitVec 8) (c : Nat) (v : BitVec 32) : Placed b
    (Function.update (Function.update b (c * 2) ((v.setWidth 16).setWidth 8)) (c * 2 + 1)
      ((v.setWidth 16 >>> 8).setWidth 8)) (16 * c) 16 v.toNat := by
  intro k
  rw [placed_word b (c * 2) (v.setWidth 16) k, show 8 * (c * 2) = 16 * c by omega]
  refine if_ctx_congr Iff.rfl (fun hk => ?_) fun _ => rfl
  simp only [BitVec.testBit_toNat, BitVec.getLsbD_setWidth]
  simp [show k - 16 * c < 16 by omega]

theorem placed_fat32 (b : Nat → BitVec 8) (c : Nat) (v w : BitVec 32)
    (hw : w = v &&& 0x0FFFFFFF ||| ldDword b (c * 4) &&& 0xF0000000) : Placed b
    (Function.update (Function.update (Function.update (Function.update b (c * 4) (w.setWidth 8))
      (c * 4 + 1) ((w >>> 8).setWidth 8)) (c * 4 + 2) ((w >>> 16).setWidth 8)) (c * 4 + 3)
      ((w >>> 24).setWidth 8))
    (32 * c) 28 v.toNat := by
  intro k
  rw [placed_dword b (c * 4) w k, show 8 * (c * 4) =
    32 * c by omega, BitVec.testBit_toNat, BitVec.testBit_toNat]
  by_cases hk : 32 * c ≤ k ∧ k < 32 * c + 32
  · have hold := reads_dword b (c * 4) (k - 32 * c)
    rw [show 8 * (c * 4) + (k - 32 * c) = k by omega] at hold
    rw [if_pos hk, hw, show (0x0FFFFFFF : BitVec 32) = (BitVec.allOnes 28).setWidth 32 by rfl,
      show (0xF0000000 : BitVec 32) = (BitVec.allOnes 4).setWidth 32 <<< 28 by rfl]
    simp only [BitVec.getLsbD_or, BitVec.getLsbD_and, BitVec.getLsbD_setWidth,
      BitVec.getLsbD_allOnes, BitVec.getLsbD_shiftLeft, hold]
    split <;> grind
  · rw [if_neg hk, if_neg (by omega)]

theorem putFat_spec (hg : g.Ok) (hv : WinOk g v) {c : Nat} (hc : 2 ≤ c ∧ c < g.nFatent) {x : Nat}
    (hx : x < 2 ^ 32) :
    Post (putFat g c x) v (Put g c x v) := by
  have hbyte := @Geometry.Ok.byte_lt g hg c
  have hval : (BitVec.ofNat 32 x).toNat = x := Nat.mod_eq_of_lt hx
  unfold putFat
  rw [if_neg (by omega)]
  cases hT : g.fsType with
  | fat12 =>
    have hb : ∀ b, b ≤ c + c / 2 + 1 → b < 512 * g.fsize :=
      fun b hb => hbyte hc.2 (by rw [hT, FatType.bits]; omega)
    refine (moveWindow_fat hg hv (hb (c + c / 2) (by omega))).bind fun r t h => ?_
    rw [h.result, if_neg (by decide)]
    refine (store_fat hg h.win (hb _ (by omega)) h.winsect _).bind fun _ t₁ h₁ => ?_
    have hb₁ : ∀ i < 512 * g.fsize, fatBytes g t₁.view i = _ := fun i hi =>
      (bytes_of_store h.moved h₁ i hi).trans (put_sector h.bytes _ i)
    refine (moveWindow_fat hg h₁.win (hb (c + c / 2 + 1) (by omega))).bind fun r t₂ h₂ => ?_
    rw [h₂.result, if_neg (by decide)]
    refine (store_fat hg h₂.win (hb _ (by omega)) h₂.winsect _).bind fun _ t₃ h₃ => ?_
    rw [post_pure]
    refine .of_placed hg hc.2 h₃.win
      (((h.moved.toKept.trans h₁.kept).trans h₂.moved.toKept).trans h₃.kept)
      (h₃.winsect ▸ h₂.inFat (hb _ le_rfl)) (fun s hs hs' => ?_) (fun i hi => ?_)
        (b := Function.update (Function.update (fatBytes g v.view) (c + c / 2)
        (fat12Low c (BitVec.ofNat 32 x) (fatBytes g v.view (c + c / 2)))) (c + c / 2 + 1)
        (fat12High c (BitVec.ofNat 32 x) (fatBytes g v.view (c + c / 2 + 1)))) ?_
    · rw [h₃.other s hs, h₂.moved.view s hs', h₁.other s hs, h.moved.view s hs']
    · rw [bytes_of_store h₂.moved h₃ i hi, put_sector h₂.bytes, Function.update_apply,
        Function.update_apply, h₂.bytes _ rfl, hb₁ i hi, hb₁ _ (hb _ le_rfl),
        h.bytes _ rfl, Function.update_of_ne (by omega)]
    · have hp := placed_fat12 (fatBytes g v.view) c (BitVec.ofNat 32 x)
      rw [hval] at hp
      rwa [hT]
  | fat16 =>
    have hb : c * 2 < 512 * g.fsize := hbyte hc.2 (by rw [hT, FatType.bits]; omega)
    rw [show c / (ss / 2) = c * 2 / 512 by simp [ss]; omega]
    refine (moveWindow_fat hg hv hb).bind fun r t h => ?_
    rw [h.result, if_neg (by decide)]
    refine (store_fat hg h.win hb h.winsect _).bind fun _ t₁ h₁ => ?_
    rw [post_pure]
    refine .of_placed hg hc.2 h₁.win (h.moved.toKept.trans h₁.kept) (h₁.winsect ▸ h.inFat hb)
      (fun s hs hs' => (h₁.other s hs).trans (h.moved.view s hs'))
      (fun i hi => (bytes_of_store h.moved h₁ i hi).trans (stWord_sector h.bytes (by omega) _ i)) ?_
    have hp := placed_fat16 (fatBytes g v.view) c (BitVec.ofNat 32 x)
    rw [hval] at hp
    rwa [hT]
  | fat32 =>
    have hb : c * 4 < 512 * g.fsize := hbyte hc.2 (by rw [hT, FatType.bits]; omega)
    rw [show c / (ss / 4) = c * 4 / 512 by simp [ss]; omega]
    refine (moveWindow_fat hg hv hb).bind fun r t h => ?_
    rw [h.result, if_neg (by decide)]
    refine (store_fat hg h.win hb h.winsect _).bind fun _ t₁ h₁ => ?_
    rw [post_pure]
    refine .of_placed hg hc.2 h₁.win (h.moved.toKept.trans h₁.kept) (h₁.winsect ▸ h.inFat hb)
      (fun s hs hs' => (h₁.other s hs).trans (h.moved.view s hs'))
      (fun i hi => (bytes_of_store h.moved h₁ i hi).trans
        (stDword_sector h.bytes (by omega) _ i)) ?_
    rw [show ss = 512 from rfl, ldDword_sector h.bytes (by omega)]
    have hp := placed_fat32 (fatBytes g v.view) c (BitVec.ofNat 32 x) _ rfl
    rw [hval] at hp
    rwa [hT]

end

end NctuCourses.Osdi.Fat
