import NctuCourses.Osdi.Console.Kbd

namespace NctuCourses.Osdi.Shell

open Console (Byte keyUp keyDn)

def buflen : Nat := 1024
def shellHistMax : Nat := 10

def Printable (c : Byte) : Prop := 0x20 ≤ c.toNat ∧ c.toNat ≤ 0x7E

instance (c : Byte) : Decidable (Printable c) := instDecidableAnd

/-- A string of printable characters. -/
structure Text where
  chars : List Byte
  printable : ∀ c ∈ chars, Printable c

/-- A string that fits a row of `hist`. -/
structure Row extends Text where
  length_lt : chars.length < buflen

/-- `hist` with its indices. -/
structure History where
  rows : Nat → Row
  head : Nat
  tail : Nat
  curr : Nat

def Row.empty : Row := ⟨⟨[], nofun⟩, by decide⟩

/-- The history at the start of `shell`. -/
def History.initial : History := ⟨fun _ => .empty, 0, 0, 0⟩

/-- The variables of `readline`, and the line of the terminal with the cursor. -/
structure Editor where
  buf : Nat → Byte
  i : Nat
  tabIdx : Nat
  isTab : Bool
  isFound : Bool
  hist : History
  screen : List Byte

/-- The terminal appends a character, and removes the last one for a backspace. -/
def putc (c : Byte) (screen : List Byte) : List Byte :=
  if c = 0x08 then screen.dropLast else screen ++ [c]

def puts (cs screen : List Byte) : List Byte := cs.foldl (fun screen c => putc c screen) screen

/-- The array once a string with its end is copied to its start. -/
def strcpy (buf : Nat → Byte) (src : List Byte) : Nat → Byte :=
  fun j => if j ≤ src.length then src.getD j 0 else buf j

/-- `strncmp(p, q, n) == 0`, `q` being the array from index `j` on. -/
def strncmp : List Byte → (Nat → Byte) → Nat → Nat → Bool
  | _, _, _, 0 => true
  | [], q, j, _ + 1 => 0 = q j
  | c :: p, q, j, n + 1 => c = q j && strncmp p q (j + 1) n

/-- The found command goes into the buffer. Nothing is defined if it does not fit. -/
def fillFound (commands : List Text) (s : Editor) : Option Editor :=
  match commands[s.tabIdx]? with
  | some name =>
    if name.chars.length < buflen then
      some { s with
        buf := strcpy s.buf name.chars
        i := name.chars.length
        tabIdx := 0
        isTab := false
        isFound := false }
    else none
  | none => none

/-- The output of the previous match is cleared. -/
def clearMatch (commands : List Text) (s : Editor) : Option (List Byte) :=
  if s.isFound then
    commands[s.tabIdx]?.map fun name =>
    puts (List.replicate (name.chars.length - s.i) 0x08) s.screen
  else some s.screen

/-- The next match is shown, and the buffer left as it is. -/
def showMatch (commands : List Text) (s : Editor) (screen : List Byte) : Editor :=
  let currIdx := if s.isFound then s.tabIdx + 1 else 0
  match (commands.zipIdx.drop currIdx).find? fun p => strncmp p.1.chars s.buf 0 s.i with
  | some (name, idx) =>
    { s with screen := puts (name.chars.drop s.i) screen, isTab := true, isFound :=
        true, tabIdx := idx }
  | none => { s with screen, isFound := false }

/-- The branch for the Tab key. -/
def complete (commands : List Text) (s : Editor) : Option Editor :=
  (clearMatch commands s).map (showMatch commands s)

def History.up (h : History) : History :=
  if h.curr ≠ h.head then { h with curr := if h.curr = 0 then shellHistMax - 1 else h.curr - 1 }
    else h

def History.dn (h : History) : History :=
  if h.curr ≠ h.tail then { h with curr := if h.curr = shellHistMax - 1 then 0 else h.curr + 1 }
    else h

/-- The line is erased on the terminal, and the row at `hist_curr` takes its place. -/
def Editor.recall (hist : History) (s : Editor) : Editor :=
  let row := (hist.rows hist.curr).chars
  { s with
    buf := fun j => if j < row.length then row.getD j 0 else s.buf j
    i := row.length
    hist
    screen := puts row (puts (List.replicate s.i 0x08) s.screen) }

/-- What a key does: `readline` goes on, returns a line, or fails. -/
inductive Outcome where
  | reading (s : Editor)
  | returned (line : List Byte) (s : Editor)
  | failed (s : Editor)

/-- The string in the buffer once `buf[i] = 0`. -/
def Editor.submitted (s : Editor) : List Byte :=
  ((List.range (s.i + 1)).map (Function.update s.buf s.i 0)).takeWhile (· ≠ 0)

/-- The chain of branches for a key. -/
def branch (prompt : Text) (commands : List Text) (c : Int) (s : Editor) : Option Outcome :=
  if c < 0 then some (.failed s)
  else if (c = 0x08 ∨ c = 0x7F) ∧
    s.i > 0 then some (.reading { s with i := s.i - 1, screen := putc 0x08 s.screen })
  else if 0x20 ≤ c ∧ c ≤ 0x7E ∧ s.i < buflen - 1 then
    some (.reading
      { s with
        buf := Function.update s.buf s.i (BitVec.ofInt 8 c)
        i := s.i + 1
        screen := putc (BitVec.ofInt 8 c) s.screen })
  else if c = 0x0A ∨ c = 0x0D then
    some (.returned s.submitted { s with buf := Function.update s.buf s.i 0, screen := [] })
  else if c = 0x0C then some (.reading { s with screen := puts prompt.chars [] })
  else if c = 0x09 then (complete commands s).map .reading
  else if c = keyUp.toNat then some (.reading (s.recall s.hist.up))
  else if c = keyDn.toNat then some (.reading (s.recall s.hist.dn))
  else some (.reading s)

/-- One turn of the loop of `readline`. -/
def readKey (prompt : Text) (commands : List Text) (c : Int) (s : Editor) : Option Outcome :=
  if s.isTab ∧ s.isFound ∧ c ≠ 0x09 then (fillFound commands s).bind (branch prompt commands c)
  else branch prompt commands c s

/-- The start of `readline`. -/
def Editor.start (prompt : Text) (s : Editor) : Editor :=
  { s with i := 0, screen := puts prompt.chars [] }

/-- The characters in the buffer. -/
def Editor.text (s : Editor) : List Byte := (List.range s.i).map s.buf

theorem Editor.text_length (s : Editor) : s.text.length = s.i := by
  rw [Editor.text, List.length_map, List.length_range]

section Screen

theorem Printable.ne_zero {c : Byte} (h : Printable c) : c ≠ 0 := by
  rintro rfl
  exact absurd h.1 (by decide)

theorem Printable.ne_backspace {c : Byte} (h : Printable c) : c ≠ 0x08 := by
  rintro rfl
  exact absurd h.1 (by decide)

theorem puts_printable {cs : List Byte} (h : ∀ c ∈ cs, Printable c) (screen : List Byte) :
    puts cs screen = screen ++ cs := by
  induction cs generalizing screen with
  | nil => exact (List.append_nil screen).symm
  | cons c cs ih =>
    have hc : putc c screen = screen ++ [c] := if_neg (h c List.mem_cons_self).ne_backspace
    rw [puts, List.foldl_cons, hc, ← puts, ih fun d hd => h d (List.mem_cons_of_mem c hd),
      List.append_assoc]
    rfl

theorem puts_backspaces (screen cs : List Byte) :
    puts (List.replicate cs.length 0x08) (screen ++ cs) = screen := by
  induction cs using List.reverseRecOn with
  | nil => exact List.append_nil screen
  | append_singleton cs c ih =>
    have hc : putc 0x08 (screen ++ (cs ++ [c])) = screen ++ cs := by
      rw [putc, if_pos rfl, ← List.append_assoc, List.dropLast_concat]
    rw [List.length_append, List.length_singleton, List.replicate_succ, puts,
      List.foldl_cons, hc, ← puts, ih]

end Screen

section Buffer

theorem map_range_congr {f g : Nat → Byte} {n : Nat} (h : ∀ j < n, f j = g j) :
    (List.range n).map f = (List.range n).map g :=
  List.map_congr_left fun j hj => h j (List.mem_range.mp hj)

theorem map_range_getD (l : List Byte) : (List.range l.length).map (fun j => l.getD j 0) = l := by
  apply List.ext_getElem?
  intro j
  rw [List.getElem?_map]
  by_cases hj : j < l.length
  · rw [List.getElem?_range hj, Option.map_some, List.getD_eq_getElem?_getD,
      List.getElem?_eq_getElem hj]
    rfl
  · rw [List.getElem?_eq_none (by rw [List.length_range]; omega), List.getElem?_eq_none (by omega)]
    rfl

theorem text_strcpy (buf : Nat → Byte) (src : List Byte) :
    (List.range src.length).map (strcpy buf src) = src := by
  have h : (List.range src.length).map (strcpy buf src) = (List.range src.length).map fun j =>
      src.getD j 0 :=
    map_range_congr fun j hj => if_pos hj.le
  exact h.trans (map_range_getD src)

theorem Editor.text_recall (hist : History) (s : Editor) :
    (s.recall hist).text = (hist.rows hist.curr).chars := by
  have h : (s.recall hist).text = (List.range (hist.rows hist.curr).chars.length).map
      fun j => (hist.rows hist.curr).chars.getD j 0 := map_range_congr fun j hj => if_pos hj
  exact h.trans (map_range_getD _)

theorem Editor.submitted_eq {s : Editor} (h : ∀ c ∈ s.text, Printable c) :
    s.submitted = s.text := by
  have htext : (List.range s.i).map (Function.update s.buf s.i 0) = s.text :=
    map_range_congr fun j hj => Function.update_of_ne hj.ne _ _
  rw [Editor.submitted, List.range_succ, List.map_append, htext, List.takeWhile_append_of_pos]
  · simp
  · intro c hc
    exact decide_eq_true (h c hc).ne_zero

theorem strncmp_eq {q : Nat → Byte} {n j : Nat} (p : List Byte)
    (h : ∀ c ∈ (List.range' j n).map q, Printable c) :
    strncmp p q j n = ((List.range' j n).map q).isPrefixOf p := by
  induction n generalizing p j with
  | zero => cases p <;> rfl
  | succ n ih =>
    rw [List.range'_succ, List.map_cons, List.forall_mem_cons] at h
    rw [List.range'_succ, List.map_cons]
    cases p with
    | nil => exact decide_eq_false (Ne.symm h.1.ne_zero)
    | cons c p =>
      rw [strncmp, ih p h.2, List.isPrefixOf_cons_cons]
      congr 1
      rw [Bool.eq_iff_iff, decide_eq_true_eq, beq_iff_eq]
      exact eq_comm

theorem Editor.strncmp_text {s : Editor} (h : ∀ c ∈ s.text, Printable c) (p : List Byte) :
    strncmp p s.buf 0 s.i = s.text.isPrefixOf p := by
  rw [Editor.text, List.range_eq_range'] at h ⊢
  exact strncmp_eq p h

end Buffer

end NctuCourses.Osdi.Shell
