import NctuCourses.Osdi.Console.Screen

namespace NctuCourses.Osdi.Console

/-- What a cell of the terminal shows, and by which operation. -/
inductive Glyph where
  /-- a character that was printed -/
  | printed (c attr : Byte)
  /-- the blank of a backspace -/
  | erased (attr : Byte)
  /-- the blank of a scroll or of clearing the screen -/
  | cleared (attr : Byte)
  deriving DecidableEq

/-- The attribute and the character. -/
def Glyph.value : Glyph → BitVec 16
  | .printed c attr => c.setWidth 16 ||| attr.setWidth 16 <<< 8
  | .erased attr => attr.setWidth 16 <<< 8
  | .cleared attr => attr.setWidth 16 <<< 8

/-- The reference terminal of 25 rows and 80 columns. -/
structure Terminal where
  cell : Nat → Nat → Glyph
  x : Nat
  y : Nat
  attr : Byte

def Terminal.write (row col : Nat) (g : Glyph) (t : Terminal) : Terminal :=
  { t with cell := fun r c => if r = row ∧ c = col then g else t.cell r c }

def Terminal.put (c : Byte) (t : Terminal) : Terminal :=
  if c = 0x08 then
    if t.x = 0 then t else { t.write t.y (t.x - 1) (.erased t.attr) with x := t.x - 1 }
  else if c = 0x09 then { t with x := (t.x / 8 + 1) * 8 }
  else if c = 0x0D then { t with x := 0 }
  else if c = 0x0A then { t with x := 0, y := t.y + 1 }
  else if c ≥ 0x20 then { t.write t.y t.x (.printed c t.attr) with x := t.x + 1 }
  else t

def Terminal.wrap (t : Terminal) : Terminal :=
  if t.x = 80 then { t with x := 0, y := t.y + 1 } else t

/-- All rows move up by one. -/
def Terminal.lineUp (t : Terminal) : Terminal :=
  if t.y = 25 then
    { t with cell := fun r c => if r < 24 then t.cell (r + 1) c else .cleared t.attr, y := 24 }
  else t

def Terminal.clear (t : Terminal) : Terminal :=
  { t with cell := fun _ _ => .cleared t.attr, x := 0, y := 0 }

def Terminal.call : ScreenCall → Terminal → Terminal
  | .putch c, t => ((t.put c).wrap).lineUp
  | .settextcolor forecolor backcolor, t =>
    { t with attr := backcolor <<< 4 ||| (forecolor &&& 0x0F) }
  | .cls, t => t.clear

/-- The terminal after some calls, from a cleared screen on. -/
def termRun (calls : List ScreenCall) : Terminal :=
  calls.foldl (fun t call => t.call call) ⟨fun _ _ => .cleared 0x0F, 0, 0, 0x0F⟩

/-- A cell of the text buffer. -/
def Screen.cell (s : Screen) (row col : Nat) : BitVec 16 :=
  let a := s.textmemptr + 2 * ((row * 80 + col : Nat) : Int)
  (s.mem (a + 1)).setWidth 16 <<< 8 ||| (s.mem a).setWidth 16

theorem Screen.cell_congr {s s' : Screen} (hptr : s.textmemptr = s'.textmemptr)
    (hmem : s.mem = s'.mem) {row col : Nat} :
    s.cell row col = s'.cell row col := by
  rw [Screen.cell, Screen.cell, hptr, hmem]

/-- What the driver leaves in a cell: `memset` repeats the low byte of the blank. -/
def Glyph.stored : Glyph → BitVec 16
  | .cleared _ => 0
  | g => g.value

theorem Glyph.stored_eq_value (g : Glyph) :
    g.stored = g.value ↔ ∀ attr, g = .cleared attr → attr = 0 := by
  cases g with
  | printed c attr => exact iff_of_true rfl nofun
  | erased attr => exact iff_of_true rfl nofun
  | cleared attr =>
    have h : ∀ attr : Byte, (0 : BitVec 16) = attr.setWidth 16 <<< 8 ↔ attr = 0 := by decide
    simp only [Glyph.stored, Glyph.value, Glyph.cleared.injEq]
    rw [h attr]
    exact ⟨fun h0 a ha => ha ▸ h0, fun ha => ha attr rfl⟩

section Cells

variable {s : Screen}

theorem Screen.blank_eq (s : Screen) : s.blank = (s.attrib.setWidth 8).setWidth 16 <<< 8 := by
  apply BitVec.eq_of_getLsbD_eq
  intro i hi
  simp only [Screen.blank, BitVec.getLsbD_setWidth, BitVec.getLsbD_shiftLeft]
  grind

/-- The lower byte of `attrib` keeps four bits of each colour. -/
theorem attrib_low (forecolor backcolor : Byte) :
    (backcolor.setWidth 32 <<< 4 ||| (forecolor.setWidth 32 &&& 0x0F) : Word).setWidth 8 =
      backcolor <<< 4 ||| (forecolor &&& 0x0F) := by
  apply BitVec.eq_of_getLsbD_eq
  intro i hi
  have h15 : ∀ i < 8, (0x0F : Word).getLsbD i = (0x0F : Byte).getLsbD i := by decide
  simp only [BitVec.getLsbD_setWidth, BitVec.getLsbD_or, BitVec.getLsbD_and,
    BitVec.getLsbD_shiftLeft, h15 i hi]
  grind

theorem cell_bytes (v : BitVec 16) :
    ((v >>> 8).setWidth 8).setWidth 16 <<< 8 ||| (v.setWidth 8).setWidth 16 = v := by
  apply BitVec.eq_of_getLsbD_eq
  intro i hi
  simp only [BitVec.getLsbD_or, BitVec.getLsbD_setWidth, BitVec.getLsbD_shiftLeft,
    BitVec.getLsbD_ushiftRight]
  grind

theorem Screen.cell_store (s : Screen) {row col : Nat} (hcol : col < 80) (v : BitVec 16) {r c : Nat}
    (hc : c < 80) :
    (s.store ((row * 80 + col : Nat) : Int) v).cell r c = if r = row ∧
    c = col then v else s.cell r c := by
  simp only [Screen.cell, Screen.store]
  split_ifs with h
  · obtain ⟨rfl, rfl⟩ := h
    rw [Function.update_self, Function.update_of_ne (by omega), Function.update_self, cell_bytes]
  · have hne : row * 80 + col ≠ r * 80 + c := by omega
    rw [Function.update_of_ne (by omega), Function.update_of_ne (by omega),
      Function.update_of_ne (by omega), Function.update_of_ne (by omega)]

theorem Screen.cell_clearRow (s : Screen) {row : Nat} {r c : Nat} (hc : c < 80) :
    (s.clearRow (s.textmemptr + 2 * ((row : Int) * 80))).cell r c = if r = row
    then 0 else s.cell r c := by
  have hlow : (s.blank.setWidth 32).setWidth 8 = (0 : Byte) := by
    rw [s.blank_eq]
    have h : ∀ b : Byte, ((b.setWidth 16 <<< 8 : BitVec 16).setWidth 32).setWidth 8 =
        (0 : Byte) := by decide
    exact h _
  simp only [Screen.cell, Screen.clearRow, memset_apply, hlow]
  split_ifs <;> first | rfl | omega

theorem Screen.cell_scroll (s : Screen) (hy : s.csrY = 25) {r c : Nat} (hr : r < 25) (hc : c < 80) :
    (scroll s).cell r c = if r < 24 then s.cell (r + 1) c else 0 := by
  rw [scroll_eq hy]
  generalize hmoved : ({ s with
      mem := memcpy s.textmemptr (s.textmemptr + 160) 3840 s.mem
      writes := s.writes ++ [(s.textmemptr, 3840)]
      temps := s.temps ++ [1] } : Screen) = moved
  have hrow : (moved.clearRow (moved.textmemptr + 2 * (((24 : Nat) : Int) * 80))).cell r c = _ :=
    moved.cell_clearRow hc
  have hptr : moved.textmemptr = s.textmemptr := by rw [← hmoved]
  rw [hptr] at hrow
  refine hrow.trans ?_
  rw [← hmoved]
  split_ifs with h24 hlt hlt
  · omega
  · rfl
  · have hcopy := memcpy_apply (show (0 : Int) ≤ 3840 by norm_num)
      (show s.textmemptr ≤ s.textmemptr + 160 by omega) s.mem
    have h0 : s.textmemptr + 160 + (s.textmemptr + 2 * ((r * 80 + c : Nat) : Int) - s.textmemptr) =
        s.textmemptr + 2 * (((r + 1) * 80 + c : Nat) : Int) := by omega
    have h1 : s.textmemptr + 160 + (s.textmemptr + 2 * ((r * 80 + c : Nat) : Int) +
        1 - s.textmemptr) =
        s.textmemptr + 2 * (((r + 1) * 80 + c : Nat) : Int) + 1 := by omega
    simp only [Screen.cell, hcopy]
    rw [if_pos (by omega), if_pos (by omega), h0, h1]
  · omega

theorem Screen.cell_clearRows (s : Screen) (n : Nat) {r c : Nat} (hc : c < 80) :
    (s.clearRows n).cell r c = if r < n then 0 else s.cell r c := by
  induction n with
  | zero => rfl
  | succ n ih =>
    rw [s.clearRows_succ, Screen.cell_clearRow _ hc, ih]
    split_ifs <;> first | rfl | omega

theorem Screen.clearRows_attrib (s : Screen) (n : Nat) : (s.clearRows n).attrib = s.attrib := by
  induction n with
  | zero => rfl
  | succ n ih =>
    rw [s.clearRows_succ]
    exact ih

end Cells

/-- The screen shows the terminal, but for the blanks that `memset` makes. -/
structure Shows (s : Screen) (t : Terminal) : Prop where
  x : s.csrX = t.x
  y : s.csrY = t.y
  attr : s.attrib.setWidth 8 = t.attr
  cell : ∀ row < 25, ∀ col < 80, s.cell row col = (t.cell row col).stored

section Simulation

variable {s : Screen} {t : Terminal}

theorem Shows.store (h : Shows s t) {row col : Nat} (hcol : col < 80) {index : Int}
    (hindex : index = (row * 80 + col : Nat)) {v : BitVec 16} {g : Glyph} (hv : v = g.stored) :
    Shows (s.store index v) (t.write row col g) := by
  refine ⟨h.x, h.y, h.attr, ?_⟩
  intro r hr c hc
  rw [hindex, s.cell_store hcol v hc, Terminal.write]
  dsimp only
  split_ifs
  · exact hv
  · exact h.cell r hr c hc

theorem Shows.putChar (h : Shows s t) (hx : t.x < 80) (c : Byte) :
    Shows (putChar c s) (t.put c) := by
  have hblank : s.blank = t.attr.setWidth 16 <<< 8 := h.attr ▸ s.blank_eq
  unfold Console.putChar Terminal.put
  by_cases h8 : c = 0x08
  · rw [if_pos h8, if_pos h8]
    by_cases hx0 : t.x = 0
    · rw [if_pos hx0, if_neg (by rw [h.x, hx0]; simp)]
      exact h
    · rw [if_neg hx0, if_pos (by rw [h.x]; omega)]
      have hv : 0x0 ||| s.blank = (Glyph.erased t.attr).stored := (BitVec.zero_or).trans hblank
      have hindex : s.csrY * 80 + s.csrX - 1 = (t.y * 80 + (t.x - 1) : Nat) := by
        rw [h.x, h.y]
        omega
      have hstore := h.store (show t.x - 1 < 80 by omega) hindex hv
      refine ⟨?_, hstore.y, hstore.attr, hstore.cell⟩
      dsimp only
      rw [h.x]
      omega
  · rw [if_neg h8, if_neg h8]
    split_ifs
    · refine ⟨?_, h.y, h.attr, h.cell⟩
      dsimp only
      rw [h.x]
      omega
    · exact ⟨rfl, h.y, h.attr, h.cell⟩
    · refine ⟨rfl, ?_, h.attr, h.cell⟩
      dsimp only
      rw [h.y]
      rfl
    · have hv : c.setWidth 16 ||| s.blank = (Glyph.printed c t.attr).stored := by rw [hblank]; rfl
      have hindex : s.csrY * 80 + s.csrX = (t.y * 80 + t.x : Nat) := by
        rw [h.x, h.y]
        omega
      have hstore := h.store hx hindex hv
      refine ⟨?_, hstore.y, hstore.attr, hstore.cell⟩
      dsimp only
      rw [h.x]
      rfl
    · exact h

theorem Shows.wrapLine (h : Shows s t) (hx : t.x ≤ 80) : Shows (wrapLine s) t.wrap := by
  unfold Console.wrapLine Terminal.wrap
  by_cases h80 : t.x = 80
  · rw [if_pos h80, if_pos (by rw [h.x, h80]; norm_num)]
    refine ⟨rfl, ?_, h.attr, h.cell⟩
    dsimp only
    rw [h.y]
    rfl
  · rw [if_neg h80, if_neg (by rw [h.x]; omega)]
    exact h

theorem Shows.scroll (h : Shows s t) (hy : t.y ≤ 25) : Shows (scroll s) t.lineUp := by
  unfold Terminal.lineUp
  by_cases h25 : t.y = 25
  · have hs : s.csrY = 25 := by rw [h.y, h25]; rfl
    rw [if_pos h25]
    refine ⟨?_, ?_, ?_, ?_⟩
    · rw [scroll_eq hs]
      exact h.x
    · rw [scroll_eq hs]
      rfl
    · rw [scroll_eq hs]
      exact h.attr
    · intro r hr c hc
      rw [s.cell_scroll hs hr hc]
      dsimp only
      split_ifs
      · exact h.cell (r + 1) (by omega) c hc
      · rfl
  · have hstay : Console.scroll s = s := if_neg (by rw [h.y]; omega)
    rw [if_neg h25, hstay]
    exact h

theorem Shows.home (hattr : s.attrib.setWidth 8 = t.attr)
    (hcell : ∀ row < 25, ∀ col < 80, s.cell row col = 0) :
    Shows (moveCsr { s with csrX := 0, csrY := 0 }) t.clear := by
  refine ⟨rfl, rfl, hattr, ?_⟩
  intro r hr c hc
  have hsame : (moveCsr { s with csrX := 0, csrY := 0 }).cell r c = s.cell r c :=
    Screen.cell_congr rfl rfl
  exact hsame.trans (hcell r hr c hc)

theorem Shows.sysCls (h : s.attrib.setWidth 8 = t.attr) : Shows (sysCls s) t.clear := by
  apply Shows.home
  · rw [s.clearRows_attrib, h]
  · intro r hr c hc
    rw [s.cell_clearRows 25 hc, if_pos hr]

theorem Shows.call (h : Shows s t) (hin : s.InBuffer) (call : ScreenCall) :
    Shows (call.apply s) (t.call call) := by
  cases call with
  | putch c =>
    have hx := hin.x_lt
    rw [h.x] at hx
    have hput := h.putChar (by omega) c
    obtain ⟨_, _, hx80, _, _, _⟩ := hin.putChar c
    rw [hput.x] at hx80
    have hwrap := hput.wrapLine (by omega)
    have hy25 := (hin.wrapLine c).y_le
    rw [hwrap.y] at hy25
    have hscroll := hwrap.scroll (by omega)
    exact ⟨hscroll.x, hscroll.y, hscroll.attr, hscroll.cell⟩
  | settextcolor forecolor backcolor =>
    refine ⟨h.x, h.y, ?_, h.cell⟩
    exact attrib_low forecolor backcolor
  | cls => exact .sysCls h.attr

end Simulation

theorem screenRun_shows (mem : Ram) (crtc : Byte → Byte) (calls : List ScreenCall) :
    Shows (screenRun mem crtc calls) (termRun calls) := by
  induction calls using List.reverseRecOn with
  | nil => exact Shows.sysCls (t := ⟨fun _ _ => .cleared 0x0F, 0, 0, 0x0F⟩) rfl
  | append_singleton calls call ih =>
    have hscreen : screenRun mem crtc (calls ++ [call]) = call.apply
        (screenRun mem crtc calls) := by
      rw [screenRun, List.foldl_append]
      rfl
    have hterm : termRun (calls ++ [call]) = (termRun calls).call call := by
      rw [termRun, List.foldl_append]
      rfl
    rw [hscreen, hterm]
    exact ih.call (screenRun_inBuffer mem crtc calls) call

/-- The text buffer is that of the terminal exactly if no cell was last changed by a scroll or by
clearing the screen under an attribute other than 0. -/
theorem screen_matches_iff (mem : Ram) (crtc : Byte → Byte) (calls : List ScreenCall) :
    (∀ row < 25, ∀ col < 80, (screenRun mem crtc calls).cell row col =
      ((termRun calls).cell row col).value) ↔
      ∀ row < 25, ∀ col < 80, ∀ attr, (termRun calls).cell row col = .cleared attr → attr = 0 := by
  have h := screenRun_shows mem crtc calls
  constructor
  · intro heq row hrow col hcol
    exact ((termRun calls).cell row col).stored_eq_value.mp
      ((h.cell row hrow col hcol).symm.trans (heq row hrow col hcol))
  · intro hattr row hrow col hcol
    exact (h.cell row hrow col hcol).trans (((termRun calls).cell row col).stored_eq_value.mpr
      (hattr row hrow col hcol))

/-- The screen is cleared in black on black, and `Hi` and `!` are printed in white on two lines. -/
def greeting : List ScreenCall :=
  [.settextcolor 0 0, .cls, .settextcolor 0x0F 0, .putch 0x48, .putch 0x69, .putch 0x0A,
    .putch 0x21]

theorem termRun_greeting (row col : Nat) : (termRun greeting).cell row col =
    if row = 1 ∧ col = 0 then .printed 0x21 0x0F else if row = 0 ∧ col = 1 then .printed 0x69 0x0F
    else if row = 0 ∧ col = 0 then .printed 0x48 0x0F else .cleared 0 := rfl

/-- The screen is that of the terminal. -/
theorem screen_matches_black : ∀ (mem : Ram) (crtc : Byte → Byte),
    (screenRun mem crtc greeting).cell 0 0 = 0x0F48 ∧
    (screenRun mem crtc greeting).cell 0 1 = 0x0F69 ∧
    (screenRun mem crtc greeting).cell 1 0 = 0x0F21 ∧
    (screenRun mem crtc greeting).cell 24 79 = 0 := by
  intro mem crtc
  have hall : ∀ row < 25, ∀ col < 80, ∀ attr, (termRun greeting).cell row col = .cleared attr →
      attr = 0 := by
    intro row _ col _ attr h
    rw [termRun_greeting] at h
    split_ifs at h
    exact (Glyph.cleared.inj h).symm
  have hcell := (screen_matches_iff mem crtc greeting).mpr hall
  exact ⟨hcell 0 (by decide) 0 (by decide), hcell 0 (by decide) 1 (by decide),
    hcell 1 (by decide) 0 (by decide), hcell 24 (by decide) 79 (by decide)⟩

/-- After `init_video` the terminal is blank in the attribute `0x0F`, but the cells are all 0. -/
theorem initVideo_loses_attribute : ((termRun []).cell 0 0).value = 0x0F00 ∧
    ∀ (mem : Ram) (crtc : Byte → Byte), (screenRun mem crtc []).cell 0 0 = 0 := by
  refine ⟨by decide, ?_⟩
  intro mem crtc
  exact (screenRun_shows mem crtc []).cell 0 (by decide) 0 (by decide)

end NctuCourses.Osdi.Console
