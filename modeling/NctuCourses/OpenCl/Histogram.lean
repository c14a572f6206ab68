import Mathlib.Data.BitVec
import NctuCourses.Lib.Stride

namespace NctuCourses.OpenCl

open NctuCourses.Lib

/-- The 768 `unsigned int` counters. -/
abbrev Counters := Fin 768 → BitVec 32

/-- The samples, red, green and blue in turn. -/
abbrev Image := List (BitVec 32)

/-- One more in one counter. -/
def bump (h : Counters) (k : Fin 768) : Counters := Function.update h k (h k + 1)

/-- `h[k]++`, undefined outside the array. -/
def countAt (h : Counters) (k : Int) : Option Counters :=
  if hk : 0 ≤ k ∧ k.toNat < 768 then some (bump h ⟨k.toNat, hk.2⟩) else none

/-- `img[i]`, undefined outside the array. -/
def Image.read (img : Image) (i : Int) : Option (BitVec 32) := if 0 ≤ i then img[i.toNat]? else none

/-- The kernel of `histogram.cl` for the work-item `gid`. Its index is an `int`. -/
def workItem (img : Image) (h : Counters) (gid : Nat) : Option Counters :=
  let idx := (BitVec.ofNat 32 gid).toInt
  (Image.read img idx).bind fun v =>
    let idxRgb := (v + BitVec.ofInt 32 (idx.tmod 3 * 256)).toInt
    countAt h idxRgb

/-- The counters `histogram.cpp` reads back: the work-items have run in the given order on a buffer
that the host has created with the contents `init` and not written. -/
def deviceHistogram (img : Image) (order : List Nat) (init : Counters) : Option Counters :=
  order.foldlM (workItem img) init

/-- The loop of `histogram_serial.cpp` for the colour whose counters start at `ptr`. -/
def colourLoop (img : Image) (size : BitVec 32) (ptr : Nat) (fuel : Nat) (first : Nat)
    (h : Counters) :
    Option Counters :=
  strideLoop 32 (fun h i => (Image.read img i).bind fun v => countAt h (ptr + v.toNat))
    3 size.toNat fuel first h

/-- `histogram` of `histogram_serial.cpp`. -/
def serialHistogram (img : Image) (size : BitVec 32) (fuel : Nat) : Option Counters :=
  (colourLoop img size 0 fuel 0 fun _ => 0#32).bind fun h =>
    (colourLoop img size 256 fuel 1 h).bind fun h =>
      colourLoop img size 512 fuel 2 h

theorem foldl_bump (ks : List (Fin 768)) (h : Counters) (j : Fin 768) :
    ks.foldl bump h j = h j + BitVec.ofNat 32 (ks.count j) := by
  induction ks generalizing h with
  | nil => simp
  | cons k ks ih =>
    rw [List.foldl_cons, ih, bump]
    by_cases hj : j = k
    · subst hj
      rw [Function.update_self, List.count_cons_self, BitVec.ofNat_add, BitVec.add_assoc]
      congr 1
      exact BitVec.add_comm _ _
    · rw [Function.update_of_ne hj, List.count_cons_of_ne (Ne.symm hj)]

theorem foldlM_countAt {step : Counters → Nat → Option Counters} {cell : Nat → Fin 768}
    {is : List Nat} (hstep : ∀ i ∈ is, ∀ h, step h i = some (bump h (cell i))) (h : Counters) :
    is.foldlM step h = some ((is.map cell).foldl bump h) := by
  induction is generalizing h with
  | nil => rfl
  | cons i is ih =>
    rw [List.foldlM_cons, hstep i List.mem_cons_self]
    exact ih (fun j hj => hstep j (List.mem_cons_of_mem _ hj)) _

theorem foldlM_none {step : Counters → Nat → Option Counters} {is : List Nat} {i : Nat}
    (hi : i ∈ is) (hstep : ∀ h, step h i = none) (h : Counters) : is.foldlM step h = none := by
  induction is generalizing h with
  | nil => cases hi
  | cons j is ih =>
    rw [List.foldlM_cons]
    cases hi with
    | head => rw [hstep]; rfl
    | tail _ hi =>
      cases step h j with
      | none => rfl
      | some h' => exact ih hi h'

section Pixels

variable {img : Image} (hv : ∀ v ∈ img, v < 256#32)

/-- The counter that sample `i` belongs to. -/
def cell (img : Image) (i : Nat) : Fin 768 :=
  ⟨(img.getD i 0#32).toNat % 256 + 256 * (i % 3), by omega⟩

theorem countAt_of_lt {h : Counters} {k : Nat} (hk : k < 768) :
    countAt h k = some (bump h ⟨k, hk⟩) := by
  unfold countAt
  rw [dif_pos ⟨by omega, by simpa using hk⟩]
  rfl

theorem read_nat {i : Nat} (hi : i < img.length) : Image.read img i = some (img.getD i 0#32) := by
  unfold Image.read
  rw [if_pos (by omega), Int.toNat_natCast, List.getD_eq_getElem?_getD, List.getElem?_eq_getElem hi]
  rfl

include hv in
theorem getD_lt {i : Nat} (hi : i < img.length) : (img.getD i 0#32).toNat < 256 := by
  rw [List.getD_eq_getElem?_getD, List.getElem?_eq_getElem hi]
  exact hv _ (List.getElem_mem hi)

include hv in
theorem workItem_eq {i : Nat} (hi : i < img.length) (hlen : img.length ≤ 2 ^ 31) (h : Counters) :
    workItem img h i = some (bump h (cell img i)) := by
  have hlt := getD_lt hv hi
  have hidx : (BitVec.ofNat 32 i).toInt = i := by
    rw [BitVec.toInt_eq_toNat_of_lt, BitVec.toNat_ofNat]
    · omega
    · rw [BitVec.toNat_ofNat]
      omega
  have hmod : (i : Int).tmod 3 = (i % 3 : Nat) := rfl
  have hrgb : ((img.getD i 0#32) + BitVec.ofInt 32 ((i : Int).tmod 3 * 256)).toInt =
      ((img.getD i 0#32).toNat % 256 + 256 * (i % 3) : Nat) := by
    have hoff : BitVec.ofInt 32 ((i : Int).tmod 3 * 256) = BitVec.ofNat 32 (i % 3 * 256) := by
      rw [hmod]
      exact BitVec.ofInt_natCast 32 (i % 3 * 256)
    have hn : (img.getD i 0#32 + BitVec.ofInt 32 ((i : Int).tmod 3 * 256)).toNat =
        (img.getD i 0#32).toNat % 256 + 256 * (i % 3) := by
      rw [hoff, BitVec.toNat_add, BitVec.toNat_ofNat]
      omega
    rw [BitVec.toInt_eq_toNat_of_lt (by omega), hn]
  unfold workItem
  simp only [hidx, read_nat hi, Option.bind_some, hrgb]
  exact countAt_of_lt _

/-- Past the range of `int` the kernel's index is negative. -/
theorem workItem_wraps (img : Image) (h : Counters) : workItem img h (2 ^ 31) = none := by
  have hidx : (BitVec.ofNat 32 (2 ^ 31)).toInt = -2 ^ 31 := by decide
  unfold workItem
  simp only [hidx]
  rfl

include hv in
theorem colourLoop_converges (hlen : img.length ≤ 2 ^ 31) {c : Nat} (hc : c < 3) (h : Counters) :
    Converges (fun fuel => colourLoop img (BitVec.ofNat 32 img.length) (256 * c) fuel c h)
      (((indices c 3 img.length).map (cell img)).foldl bump h) := by
  have hsize : (BitVec.ofNat 32 img.length).toNat = img.length := by
    rw [BitVec.toNat_ofNat]
    omega
  unfold colourLoop
  rw [hsize]
  apply strideLoop_converges (by decide) (by omega)
  apply foldlM_countAt
  intro i hi h
  obtain ⟨hci, hin, h0⟩ := (mem_indices (by decide)).mp hi
  have hlt := getD_lt hv hin
  rw [read_nat hin, Option.bind_some]
  have hk : ((256 * c : Nat) : Int) + ((img.getD i 0#32).toNat : Nat) =
      ((img.getD i 0#32).toNat % 256 + 256 * (i % 3) : Nat) := by omega
  rw [hk]
  exact countAt_of_lt _

include hv in
theorem deviceHistogram_eq (hlen : img.length ≤ 2 ^ 31) {order : List Nat}
    (horder : order.Perm (List.range img.length)) (init : Counters) :
    deviceHistogram img order init = some ((order.map (cell img)).foldl bump init) := by
  apply foldlM_countAt
  intro i hi h
  exact workItem_eq hv (List.mem_range.mp (horder.mem_iff.mp hi)) hlen h

/-- The samples in the order in which the serial loops take them. -/
def byColour (n : Nat) : List Nat := indices 0 3 n ++ indices 1 3 n ++ indices 2 3 n

theorem byColour_perm (n : Nat) : (byColour n).Perm (List.range n) := by
  have h := indices_perm (i := 0) (k := 1) (n := n) (by decide) (m := 3) (by decide)
  have hrange : List.range 3 = [0, 1, 2] := rfl
  rw [hrange, indices_zero_one] at h
  simpa [byColour] using h

include hv in
theorem serialHistogram_converges (hlen : img.length ≤ 2 ^ 31) :
    Converges (serialHistogram img (BitVec.ofNat 32 img.length))
      (((byColour img.length).map (cell img)).foldl bump fun _ => 0#32) := by
  rw [byColour, List.map_append, List.map_append, List.foldl_append, List.foldl_append]
  apply (colourLoop_converges hv hlen (c := 0) (by decide) fun _ => 0#32).bind
  apply (colourLoop_converges hv hlen (c := 1) (by decide) _).bind
  exact colourLoop_converges hv hlen (c := 2) (by decide) _

end Pixels

/-- In whatever order the work-items run, the counters read back are those of the serial program. -/
def MatchesSerial (img : Image) (init : Counters) : Prop :=
  ∀ order : List Nat, order.Perm (List.range img.length) →
    ∃ r, deviceHistogram img order init = some r ∧
      Converges (serialHistogram img (BitVec.ofNat 32 img.length)) r

/-- The device counts what the serial program counts exactly if its buffer happens to be zero and
the kernel's `int` can number the samples. -/
theorem histogram_matchesSerial (img : Image) (hv : ∀ v ∈ img, v < 256#32) (init : Counters) :
    MatchesSerial img init ↔ (∀ k, init k = 0#32) ∧ img.length ≤ 2 ^ 31 := by
  constructor
  · intro h
    obtain ⟨r, hr, hs⟩ := h (List.range img.length) (List.Perm.refl _)
    have hlen : img.length ≤ 2 ^ 31 := by
      by_contra hlong
      have hnone : deviceHistogram img (List.range img.length) init = none :=
        foldlM_none (List.mem_range.mpr (by omega)) (workItem_wraps img) init
      rw [hnone] at hr
      cases hr
    refine ⟨?_, hlen⟩
    intro k
    rw [deviceHistogram_eq hv hlen (List.Perm.refl _)] at hr
    have heq : (((List.range img.length).map (cell img)).foldl bump init) k =
        (((byColour img.length).map (cell img)).foldl bump fun _ => 0#32) k :=
      congrFun ((Option.some.inj hr).trans (hs.unique (serialHistogram_converges hv hlen))) k
    rw [foldl_bump, foldl_bump, ((byColour_perm _).map (cell img)).count_eq k] at heq
    exact add_right_cancel heq
  · intro ⟨h0, hlen⟩ order horder
    refine ⟨_, deviceHistogram_eq hv hlen horder init, ?_⟩
    have heq : (order.map (cell img)).foldl bump init = ((byColour img.length).map (cell img)).foldl
        bump fun _ => 0#32 := by
      funext k
      rw [foldl_bump, foldl_bump, h0 k,
        ((horder.trans (byColour_perm _).symm).map (cell img)).count_eq k]
    rw [heq]
    exact serialHistogram_converges hv hlen

theorem histogram_matchesSerial_zeroed : MatchesSerial [5#32, 7#32, 5#32, 5#32] fun _ => 0#32 :=
  (histogram_matchesSerial [5#32, 7#32, 5#32, 5#32] (by simp) fun _ => 0#32).mpr
    ⟨fun _ => rfl, by norm_num⟩

/-- A buffer that is found full of sevens is counted on top of. -/
theorem deviceHistogram_sevens :
    (deviceHistogram [5#32] [0] fun _ => 7#32).map (fun h => (h 5, h 6)) = some (8#32, 7#32) ∧
      (serialHistogram [5#32] 1#32 2).map (fun h => (h 5, h 6)) = some (1#32, 0#32) := by
  decide

end NctuCourses.OpenCl
