import Mathlib.Tactic.NormNum
import NctuCourses.Osdi.Console.StringOps

namespace NctuCourses.Osdi.Console

/-- The variables of the screen driver, memory and the registers of the VGA controller, with the
writes to the text buffer (address and length) and the row counts of `scroll` so far. -/
structure Screen where
  textmemptr : Int
  attrib : Word
  csrX : Int
  csrY : Int
  mem : Ram
  crtc : Byte → Byte
  writes : List (Int × Int)
  temps : List Int

/-- The attribute in the upper byte, as an `unsigned short`. -/
def Screen.blank (s : Screen) : BitVec 16 := (s.attrib <<< 8).setWidth 16

/-- `memset(v, blank, 80 * 2)`. -/
def Screen.clearRow (v : Int) (s : Screen) : Screen :=
  { s with mem := memset v (s.blank.setWidth 32) (80 * 2) s.mem, writes := s.writes ++
    [(v, 80 * 2)] }

def scroll (s : Screen) : Screen :=
  if s.csrY ≥ 25 then
    let temp := (s.csrY - 25 + 1) % 65536
    let n := (25 - temp) * 80 * 2 % 2 ^ 32
    let moved : Screen :=
      { s with
        mem := memcpy s.textmemptr (s.textmemptr + 2 * (temp * 80)) n s.mem
        writes := s.writes ++ [(s.textmemptr, n)]
        temps := s.temps ++ [temp] }
    { moved.clearRow (s.textmemptr + 2 * ((25 - temp) * 80)) with csrY := 25 - 1 }
  else s

def moveCsr (s : Screen) : Screen :=
  let temp : BitVec 16 := BitVec.ofInt 16 (s.csrY * 80 + s.csrX)
  { s with crtc := Function.update (Function.update s.crtc 14
    ((temp >>> 8).setWidth 8)) 15 (temp.setWidth 8) }

/-- The first `n` rows are cleared. -/
def Screen.clearRows (n : Nat) (s : Screen) : Screen :=
  (List.range n).foldl (fun s (i : Nat) => s.clearRow (s.textmemptr + 2 * (i * 80))) s

def sysCls (s : Screen) : Screen := moveCsr { s.clearRows 25 with csrX := 0, csrY := 0 }

/-- `*where = cell`, `where` being the cell with the index. -/
def Screen.store (index : Int) (cell : BitVec 16) (s : Screen) : Screen :=
  let a := s.textmemptr + 2 * index
  { s with
    mem := Function.update (Function.update s.mem a (cell.setWidth 8)) (a + 1)
      ((cell >>> 8).setWidth 8)
    writes := s.writes ++ [(a, 2)] }

/-- What `k_putch` does for the character. -/
def putChar (c : Byte) (s : Screen) : Screen :=
  if c = 0x08 then
    if s.csrX ≠ 0 then
      { s.store (s.csrY * 80 + s.csrX - 1) (0x0 ||| s.blank) with csrX := s.csrX - 1 }
    else s
  else if c = 0x09 then
    -- `& ~(8 - 1)` rounds down to a multiple of 8
    { s with csrX := (s.csrX + 8) / 8 * 8 }
  else if c = 0x0D then { s with csrX := 0 }
  else if c = 0x0A then { s with csrX := 0, csrY := s.csrY + 1 }
  else if c ≥ 0x20 then
    { s.store (s.csrY * 80 + s.csrX) (c.setWidth 16 ||| s.blank) with csrX := s.csrX + 1 }
  else s

/-- The new line at the edge of the screen. -/
def wrapLine (s : Screen) : Screen :=
  if s.csrX ≥ 80 then { s with csrX := 0, csrY := s.csrY + 1 } else s

def kPutch (c : Byte) (s : Screen) : Screen := moveCsr (scroll (wrapLine (putChar c s)))

def sysSettextcolor (forecolor backcolor : Byte) (s : Screen) : Screen :=
  { s with attrib := backcolor.setWidth 32 <<< 4 ||| (forecolor.setWidth 32 &&& 0x0F) }

def initVideo (s : Screen) : Screen := sysCls { s with textmemptr := 0xB8000 }

inductive ScreenCall where
  | putch (c : Byte)
  | settextcolor (forecolor backcolor : Byte)
  | cls

def ScreenCall.apply : ScreenCall → Screen → Screen
  | .putch c, s => kPutch c s
  | .settextcolor forecolor backcolor, s => sysSettextcolor forecolor backcolor s
  | .cls, s => sysCls s

/-- The screen after some calls, from `init_video` on. -/
def screenRun (mem : Ram) (crtc : Byte → Byte) (calls : List ScreenCall) : Screen :=
  calls.foldl (fun s call => call.apply s) (initVideo ⟨0, 0x0F, 0, 0, mem, crtc, [], []⟩)

/-- A write to the cells of the text buffer. -/
def Inside (textmemptr : Int) (w : Int × Int) : Prop :=
  textmemptr ≤ w.1 ∧ 0 ≤ w.2 ∧ w.1 + w.2 ≤ textmemptr + 2 * (80 * 25)

/-- Nothing was written outside the text buffer. -/
structure Screen.Contained (s : Screen) : Prop where
  writes : ∀ w ∈ s.writes, Inside s.textmemptr w
  temps : ∀ temp ∈ s.temps, temp = 1

structure Screen.InBuffer (s : Screen) : Prop extends s.Contained where
  x_nonneg : 0 ≤ s.csrX
  x_lt : s.csrX < 80
  y_nonneg : 0 ≤ s.csrY
  y_lt : s.csrY < 25

section Steps

variable {s : Screen}

theorem Screen.Contained.snoc (h : s.Contained) {w : Int × Int} (hw : Inside s.textmemptr w) :
    ∀ w' ∈ s.writes ++ [w], Inside s.textmemptr w' := by
  intro w' hw'
  rcases List.mem_append.mp hw' with hw' | hw'
  · exact h.writes w' hw'
  · exact List.mem_singleton.mp hw' ▸ hw

theorem Screen.Contained.clearRow (h : s.Contained) {row : Int} (h0 : 0 ≤ row) (h25 : row < 25) :
    (s.clearRow (s.textmemptr + 2 * (row * 80))).Contained := by
  refine ⟨h.snoc ?_, h.temps⟩
  rw [Inside]
  omega

theorem Screen.Contained.store (h : s.Contained) {index : Int} (h0 : 0 ≤ index)
    (hlt : index < 80 * 25) (cell : BitVec 16) : (s.store index cell).Contained := by
  refine ⟨h.snoc ?_, h.temps⟩
  rw [Inside]
  omega

theorem Screen.InBuffer.putChar (h : s.InBuffer) (c : Byte) : (putChar c s).Contained ∧
    0 ≤ (putChar c s).csrX ∧ (putChar c s).csrX ≤ 80 ∧ 0 ≤ (putChar c s).csrY ∧
      (putChar c s).csrY ≤ 25 ∧ ((putChar c s).csrY = 25 → (putChar c s).csrX = 0) := by
  obtain ⟨hin, hx0, hx, hy0, hy⟩ := h
  unfold Console.putChar
  split_ifs with _ hback
  · have hstore := hin.store (show 0 ≤ s.csrY * 80 + s.csrX - 1 by omega) (by omega)
      (0x0 ||| s.blank)
    exact ⟨⟨hstore.writes, hstore.temps⟩, by dsimp only [Screen.store]; omega⟩
  · exact ⟨hin, by omega⟩
  · exact ⟨⟨hin.writes, hin.temps⟩, by dsimp only; omega⟩
  · exact ⟨⟨hin.writes, hin.temps⟩, by dsimp only; omega⟩
  · exact ⟨⟨hin.writes, hin.temps⟩, by dsimp only; omega⟩
  · have hstore := hin.store (show 0 ≤ s.csrY * 80 + s.csrX by omega) (by omega)
      (c.setWidth 16 ||| s.blank)
    exact ⟨⟨hstore.writes, hstore.temps⟩, by dsimp only [Screen.store]; omega⟩
  · exact ⟨hin, by omega⟩

/-- The cursor is in its column and at most one row too low. -/
structure Screen.Pending (s : Screen) : Prop extends s.Contained where
  x_nonneg : 0 ≤ s.csrX
  x_lt : s.csrX < 80
  y_nonneg : 0 ≤ s.csrY
  y_le : s.csrY ≤ 25

theorem Screen.InBuffer.wrapLine (h : s.InBuffer) (c : Byte) :
    (wrapLine (Console.putChar c s)).Pending := by
  obtain ⟨hin, hx0, hx, hy0, hy, hrow⟩ := h.putChar c
  unfold Console.wrapLine
  split_ifs
  · exact ⟨⟨hin.writes, hin.temps⟩, le_refl 0,
      by norm_num, by dsimp only; omega, by dsimp only; omega⟩
  · exact ⟨hin, hx0, by omega, hy0, hy⟩

theorem scroll_eq (hy : s.csrY = 25) : scroll s =
    { ({ s with
          mem := memcpy s.textmemptr (s.textmemptr + 160) 3840 s.mem
          writes := s.writes ++ [(s.textmemptr, 3840)]
          temps := s.temps ++ [1] } : Screen).clearRow (s.textmemptr + 3840) with csrY := 24 } := by
  rw [scroll, if_pos (by omega), hy]
  rfl

theorem Screen.Pending.scroll (h : s.Pending) : (scroll s).InBuffer := by
  obtain ⟨hin, hx0, hx, hy0, hy⟩ := h
  by_cases hrow : s.csrY = 25
  · rw [scroll_eq hrow]
    have hmoved : ({ s with
        mem := memcpy s.textmemptr (s.textmemptr + 160) 3840 s.mem
        writes := s.writes ++ [(s.textmemptr, 3840)]
        temps := s.temps ++ [1] } : Screen).Contained := by
      constructor
      · exact hin.snoc ⟨le_refl _, by norm_num, by dsimp only; omega⟩
      · intro temp htemp
        rcases List.mem_append.mp htemp with htemp | htemp
        · exact hin.temps temp htemp
        · exact List.mem_singleton.mp htemp
    have hclear := hmoved.clearRow (show 0 ≤ 24 by norm_num) (by norm_num)
    exact ⟨⟨hclear.writes, hclear.temps⟩, hx0, hx, by norm_num, by norm_num⟩
  · have hstay : Console.scroll s = s := if_neg (by omega)
    rw [hstay]
    exact ⟨hin, hx0, hx, hy0, by omega⟩

theorem Screen.clearRows_succ (s : Screen) (n : Nat) : s.clearRows (n + 1) =
    (s.clearRows n).clearRow ((s.clearRows n).textmemptr + 2 * (n * 80)) := by
  rw [Screen.clearRows, List.range_succ, List.foldl_append]
  rfl

theorem Screen.Contained.clearRows (h : s.Contained) {n : Nat} (hn : n ≤ 25) :
    (s.clearRows n).Contained := by
  induction n with
  | zero => exact h
  | succ n ih =>
    rw [s.clearRows_succ]
    exact (ih (by omega)).clearRow (by omega) (by omega)

theorem Screen.Contained.home (h : s.Contained) :
    (moveCsr { s with csrX := 0, csrY := 0 }).InBuffer := by
  have h80 : (0 : Int) < 80 := by norm_num
  have h25 : (0 : Int) < 25 := by norm_num
  exact ⟨⟨h.writes, h.temps⟩, le_refl 0, h80, le_refl 0, h25⟩

theorem Screen.Contained.sysCls (h : s.Contained) : (sysCls s).InBuffer :=
  (h.clearRows (le_refl 25)).home

theorem Screen.InBuffer.apply (h : s.InBuffer) (call : ScreenCall) : (call.apply s).InBuffer := by
  cases call with
  | putch c =>
    obtain ⟨hin, hx0, hx, hy0, hy⟩ := (h.wrapLine c).scroll
    exact ⟨⟨hin.writes, hin.temps⟩, hx0, hx, hy0, hy⟩
  | settextcolor forecolor backcolor =>
    exact ⟨⟨h.writes, h.temps⟩, h.x_nonneg, h.x_lt, h.y_nonneg, h.y_lt⟩
  | cls => exact h.toContained.sysCls

end Steps

/-- Between calls the cursor is on the screen, and all writes were to the text buffer. A
scroll is always by one row. -/
theorem screenRun_inBuffer (mem : Ram) (crtc : Byte → Byte) (calls : List ScreenCall) :
    (screenRun mem crtc calls).InBuffer := by
  have hinit : (initVideo ⟨0, 0x0F, 0, 0, mem, crtc, [], []⟩).InBuffer :=
    Screen.Contained.sysCls ⟨nofun, nofun⟩
  rw [screenRun]
  generalize initVideo ⟨0, 0x0F, 0, 0, mem, crtc, [], []⟩ = s at hinit
  induction calls generalizing s with
  | nil => exact hinit
  | cons call calls ih => exact ih _ (hinit.apply call)

end NctuCourses.Osdi.Console
