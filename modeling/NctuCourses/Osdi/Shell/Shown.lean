import NctuCourses.Osdi.Shell.Readline

namespace NctuCourses.Osdi.Shell

open Console (Byte keyUp keyDn)

/-- A line that is edited: its characters, the completion shown in their place with
its number, and the history. -/
structure Edit where
  line : List Byte
  shown : Option (Text × Nat)
  hist : History

/-- The line that Enter submits. -/
def Edit.text (e : Edit) : List Byte :=
  match e.shown with
  | some (name, _) => name.chars
  | none => e.line

/-- The completion shown becomes the line. -/
def Edit.accept (e : Edit) : Edit := ⟨e.text, none, e.hist⟩

/-- The next command that begins with the line. -/
def Edit.next (commands : List Text) (e : Edit) : Option (Text × Nat) :=
  let first := match e.shown with
    | some (_, idx) => idx + 1
    | none => 0
  (commands.zipIdx.drop first).find? fun p => e.line.isPrefixOf p.1.chars

def Edit.recall (hist : History) (e : Edit) : Edit :=
  { e with line := (hist.rows hist.curr).chars, hist }

/-- What a key does to a line without a completion. -/
def Edit.edit (c : Int) (e : Edit) : Edit :=
  if c = 0x08 ∨ c = 0x7F then { e with line := e.line.dropLast }
  else if 0x20 ≤ c ∧ c ≤ 0x7E then
    if e.line.length < buflen - 1 then { e with line := e.line ++ [BitVec.ofInt 8 c] } else e
  else if c = keyUp.toNat then e.recall e.hist.up
  else if c = keyDn.toNat then e.recall e.hist.dn
  else e

def Edit.key (commands : List Text) (c : Int) (e : Edit) : Edit :=
  if c = 0x09 then { e with shown := e.next commands } else e.accept.edit c

/-- The keys that end `readline`: an error, Enter and Return. -/
def Ends (c : Int) : Prop := c < 0 ∨ c = 0x0A ∨ c = 0x0D

/-- Ctrl-L is pressed on empty lines only, and every completion shown fits the buffer. -/
def Undisturbed (commands : List Text) : Edit → List Int → Prop
  | e, [] => e.text.length < buflen
  | e, c :: keys => e.text.length < buflen ∧
    (Ends c ∨ (c = 0x0C → e.text = []) ∧ Undisturbed commands (e.key commands c) keys)

/-- Enter would submit the text that is visible after the prompt, and the index is in range. -/
def Faithful (prompt : Text) (commands : List Text) (s : Editor) : Prop :=
  s.i < buflen ∧ ∃ line s', readKey prompt commands 0x0A s = some (.returned line s') ∧
  s.screen = prompt.chars ++ line

/-- This holds before each of the keys and after the last one, as long as `readline` goes on. -/
def AlwaysFaithful (prompt : Text) (commands : List Text) : Editor → List Int → Prop
  | s, [] => Faithful prompt commands s
  | s, c :: keys => Faithful prompt commands s ∧
    match readKey prompt commands c s with
    | some (.reading s') => AlwaysFaithful prompt commands s' keys
    | some _ => True
    | none => False

theorem AlwaysFaithful.faithful {prompt : Text} {commands : List Text} {s : Editor}
    {keys : List Int} (h : AlwaysFaithful prompt commands s keys) : Faithful prompt commands s := by
  cases keys with
  | nil => exact h
  | cons c keys => exact h.1

/-- The variables of `readline` hold the edited line. -/
structure Edits (commands : List Text) (s : Editor) (e : Edit) : Prop where
  text : s.text = e.line
  length_lt : e.line.length < buflen
  printable : ∀ c ∈ e.line, Printable c
  hist : s.hist = e.hist
  found : s.isFound = e.shown.isSome
  tab : s.isFound = true → s.isTab = true
  shown : ∀ name idx, e.shown = some (name, idx) →
    s.tabIdx = idx ∧ commands[idx]? = some name ∧ e.line <+: name.chars

section Steps

variable {prompt : Text} {commands : List Text} {s : Editor} {e : Edit}

theorem Edits.i_eq (h : Edits commands s e) : s.i = e.line.length := by
  rw [← h.text, s.text_length]

theorem Edits.printable_text (h : Edits commands s e) : ∀ c ∈ s.text, Printable c :=
  h.text ▸ h.printable

theorem notShown {P : Text → Nat → Prop} (hshown : e.shown = none) :
    ∀ name idx, e.shown = some (name, idx) → P name idx := by
  intro name idx hsome
  rw [hshown] at hsome
  cases hsome

/-- Before any key but Tab, the completion shown goes into the buffer if it fits. -/
theorem Edits.readKey (prompt : Text) (h : Edits commands s e) {c : Int} (hc : c ≠ 0x09) :
    if e.text.length < buflen then
      ∃ s', readKey prompt commands c s = branch prompt commands c s' ∧ Edits commands s' e.accept ∧
      s'.screen = s.screen
    else Shell.readKey prompt commands c s = none := by
  cases hshown : e.shown with
  | none =>
    have hfound : s.isFound = false := by rw [h.found, hshown]; rfl
    have htext : e.text = e.line := by rw [Edit.text, hshown]
    rw [htext, if_pos h.length_lt]
    refine ⟨s, if_neg (by simp [hfound]), ?_, rfl⟩
    rw [Edit.accept, htext]
    exact ⟨h.text, h.length_lt, h.printable, h.hist, hfound, h.tab, nofun⟩
  | some p =>
    obtain ⟨name, idx⟩ := p
    have hfound : s.isFound = true := by rw [h.found, hshown]; rfl
    have htext : e.text = name.chars := by rw [Edit.text, hshown]
    obtain ⟨hidx, hname, _⟩ := h.shown name idx hshown
    have hfill : Shell.readKey prompt commands c s = (fillFound commands s).bind
        (branch prompt commands c) :=
      if_pos ⟨h.tab hfound, hfound, hc⟩
    rw [htext, hfill, fillFound, hidx, hname]
    dsimp only
    split_ifs with hfits
    · refine ⟨_, rfl, ?_, rfl⟩
      rw [Edit.accept, htext]
      exact ⟨text_strcpy s.buf name.chars, hfits, name.printable, h.hist, rfl, nofun, nofun⟩
    · rfl

theorem Edits.enter (prompt : Text) (h : Edits commands s e) :
    if e.text.length < buflen then ∃ s', Shell.readKey prompt commands
      0x0A s = some (.returned e.text s')
    else Shell.readKey prompt commands 0x0A s = none := by
  have hkey := h.readKey prompt (show (0x0A : Int) ≠ 0x09 by decide)
  split_ifs at hkey ⊢ with hfits
  · obtain ⟨s', hbranch, h', _⟩ := hkey
    have htext : s'.submitted = e.text := by
      rw [s'.submitted_eq h'.printable_text, h'.text]
      rfl
    have hreturn : Shell.branch prompt commands 0x0A s' =
        some (.returned s'.submitted
          { s' with buf := Function.update s'.buf s'.i 0, screen := [] }) := rfl
    rw [htext] at hreturn
    exact ⟨_, hbranch.trans hreturn⟩
  · exact hkey

theorem Edits.faithful_iff (h : Edits commands s e) (hscreen : s.screen = prompt.chars ++ e.text) :
    Faithful prompt commands s ↔ e.text.length < buflen := by
  have henter := h.enter prompt
  split_ifs at henter with hfits
  · obtain ⟨s', hline⟩ := henter
    exact iff_of_true ⟨by rw [h.i_eq]; exact h.length_lt, e.text, s', hline, hscreen⟩ hfits
  · refine iff_of_false ?_ hfits
    intro ⟨_, line, s', hline, _⟩
    rw [henter] at hline
    cases hline

theorem Edits.not_faithful (h : Edits commands s e) (hfits : e.text.length < buflen)
    (hscreen : s.screen = prompt.chars) (hne : e.text ≠ []) : ¬Faithful prompt commands s := by
  intro ⟨_, line, s', hline, hvisible⟩
  have henter := h.enter prompt
  rw [if_pos hfits, hline] at henter
  obtain ⟨_, henter⟩ := henter
  obtain ⟨rfl, _⟩ := Outcome.returned.inj (Option.some.inj henter)
  rw [hscreen] at hvisible
  exact hne (List.append_right_eq_self.mp hvisible.symm)

theorem Edits.erase (h : Edits commands s e) (hshown : e.shown = none) (hpos : s.i > 0)
    (hscreen : s.screen = prompt.chars ++ e.line) :
    Edits commands { s with i := s.i - 1, screen := putc 0x08 s.screen }
      { e with line := e.line.dropLast } ∧
      putc 0x08 s.screen = prompt.chars ++ e.line.dropLast := by
  have hne : e.line ≠ [] := by
    rw [← List.length_pos_iff, ← h.i_eq]
    exact hpos
  refine ⟨⟨?_, ?_, ?_, h.hist, h.found, h.tab, ?_⟩, ?_⟩
  · have hi : s.i = s.i - 1 + 1 := by omega
    rw [← h.text, Editor.text, Editor.text, hi, List.range_succ, List.map_append,
      List.map_singleton, List.dropLast_concat]
    rfl
  · rw [List.length_dropLast]
    exact lt_of_le_of_lt (Nat.sub_le _ _) h.length_lt
  · intro c hc
    exact h.printable c (List.mem_of_mem_dropLast hc)
  · exact notShown hshown
  · rw [putc, if_pos rfl, hscreen, List.dropLast_append_of_ne_nil hne]

theorem Edits.append (h : Edits commands s e) (hshown : e.shown = none) {c : Byte}
    (hc : Printable c) (hroom : s.i < buflen - 1) (hscreen : s.screen = prompt.chars ++ e.line) :
    Edits commands
      { s with buf := Function.update s.buf s.i c, i := s.i + 1, screen := putc c s.screen }
      { e with line := e.line ++ [c] } ∧ putc c s.screen = prompt.chars ++ (e.line ++ [c]) := by
  refine ⟨⟨?_, ?_, ?_, h.hist, h.found, h.tab, ?_⟩, ?_⟩
  · have hold : (List.range s.i).map (Function.update s.buf s.i c) = s.text :=
      map_range_congr fun j hj => Function.update_of_ne hj.ne _ _
    rw [Editor.text, List.range_succ, List.map_append, hold, h.text, List.map_singleton]
    dsimp only
    rw [Function.update_self]
  · have hi := h.i_eq
    simp only [List.length_append, List.length_singleton, buflen] at hroom ⊢
    omega
  · intro d hd
    rcases List.mem_append.mp hd with hd | hd
    · exact h.printable d hd
    · exact List.mem_singleton.mp hd ▸ hc
  · exact notShown hshown
  · rw [putc, if_neg hc.ne_backspace, hscreen, List.append_assoc]

theorem Edits.recall (h : Edits commands s e) (hshown : e.shown = none) (hist : History)
    (hscreen : s.screen = prompt.chars ++ e.line) :
    Edits commands (s.recall hist) (e.recall hist) ∧ (s.recall hist).screen =
      prompt.chars ++ (e.recall hist).line := by
  refine ⟨⟨s.text_recall hist, (hist.rows hist.curr).length_lt, (hist.rows hist.curr).printable,
    rfl, h.found, h.tab, ?_⟩,
    ?_⟩
  · exact notShown hshown
  · have hback := puts_backspaces prompt.chars e.line
    rw [← hscreen, ← h.i_eq] at hback
    rw [Editor.recall]
    dsimp only
    rw [hback, puts_printable (hist.rows hist.curr).printable]
    rfl

theorem Edits.branch (h : Edits commands s e) (hshown : e.shown = none)
    (hscreen : s.screen = prompt.chars ++ e.line) {c : Int} (hends : ¬Ends c) (htab : c ≠ 0x09)
    (hcls : c ≠ 0x0C) :
    ∃ s', branch prompt commands c s = some (.reading s') ∧ Edits commands s' (e.edit c) ∧
      s'.screen = prompt.chars ++ (e.edit c).line := by
  obtain ⟨hneg, hnl, hcr⟩ : ¬c < 0 ∧ c ≠ 0x0A ∧ c ≠ 0x0D := by
    rw [Ends, not_or, not_or] at hends
    exact hends
  have hother : ¬((c = 0x08 ∨ c = 0x7F) ∧ s.i > 0) → ¬(0x20 ≤ c ∧ c ≤ 0x7E ∧ s.i < buflen - 1) →
      c ≠ keyUp.toNat → c ≠ keyDn.toNat → Shell.branch prompt commands c s = some (.reading s) := by
    intro h1 h2 h3 h4
    rw [Shell.branch, if_neg hneg, if_neg h1, if_neg h2, if_neg (not_or.mpr ⟨hnl, hcr⟩),
      if_neg hcls, if_neg htab, if_neg h3, if_neg h4]
  have hup : (keyUp.toNat : Int) = 0xE2 := rfl
  have hdn : (keyDn.toNat : Int) = 0xE3 := rfl
  rw [hup, hdn] at hother
  rw [Edit.edit, hup, hdn]
  by_cases hback : c = 0x08 ∨ c = 0x7F
  · rw [if_pos hback]
    by_cases hpos : s.i > 0
    · obtain ⟨h', hscreen'⟩ := h.erase hshown hpos hscreen
      refine ⟨_, ?_, h', hscreen'⟩
      rw [Shell.branch, if_neg hneg, if_pos ⟨hback, hpos⟩]
    · have hnil : e.line = [] := by
        rw [← List.length_eq_zero_iff, ← h.i_eq]
        omega
      have hsame : ({ e with line := e.line.dropLast } : Edit) = e := by
        rw [hnil, List.dropLast_nil, ← hnil]
      rw [hsame]
      exact ⟨s, hother (fun hb => hpos hb.2) (by omega) (by omega) (by omega), h, hscreen⟩
  · have hback' : ¬((c = 0x08 ∨ c = 0x7F) ∧ s.i > 0) := fun hb => hback hb.1
    rw [if_neg hback]
    by_cases hprint : 0x20 ≤ c ∧ c ≤ 0x7E
    · rw [if_pos hprint]
      by_cases hroom : s.i < buflen - 1
      · have hc : Printable (BitVec.ofInt 8 c) := by
          rw [Printable, BitVec.toNat_ofInt]
          omega
        obtain ⟨h', hscreen'⟩ := h.append hshown hc hroom hscreen
        rw [if_pos (h.i_eq ▸ hroom)]
        refine ⟨_, ?_, h', hscreen'⟩
        rw [Shell.branch, if_neg hneg, if_neg hback', if_pos ⟨hprint.1, hprint.2, hroom⟩]
      · rw [if_neg (h.i_eq ▸ hroom)]
        exact ⟨s, hother hback' (fun hp => hroom hp.2.2) (by omega) (by omega), h, hscreen⟩
    · have hprint' : ¬(0x20 ≤ c ∧ c ≤ 0x7E ∧ s.i < buflen - 1) := fun hp => hprint ⟨hp.1, hp.2.1⟩
      have hchain : Shell.branch prompt commands c s =
          if c = 0xE2 then some (.reading (s.recall s.hist.up))
          else if c = 0xE3 then some (.reading (s.recall s.hist.dn)) else some (.reading s) := by
        rw [Shell.branch, if_neg hneg, if_neg hback', if_neg hprint',
          if_neg (not_or.mpr ⟨hnl, hcr⟩), if_neg hcls, if_neg htab, hup, hdn]
      rw [if_neg hprint, hchain, ← h.hist]
      split_ifs
      · obtain ⟨h', hscreen'⟩ := h.recall hshown s.hist.up hscreen
        exact ⟨_, rfl, h', hscreen'⟩
      · obtain ⟨h', hscreen'⟩ := h.recall hshown s.hist.dn hscreen
        exact ⟨_, rfl, h', hscreen'⟩
      · exact ⟨s, rfl, h, hscreen⟩

theorem Edits.clearMatch (h : Edits commands s e) (hscreen : s.screen = prompt.chars ++ e.text) :
    clearMatch commands s = some (prompt.chars ++ e.line) := by
  rw [Shell.clearMatch]
  cases hshown : e.shown with
  | none =>
    have hfound : s.isFound = false := by rw [h.found, hshown]; rfl
    rw [hfound, hscreen, Edit.text, hshown]
    rfl
  | some p =>
    obtain ⟨name, idx⟩ := p
    have hfound : s.isFound = true := by rw [h.found, hshown]; rfl
    obtain ⟨hidx, hname, rest, hrest⟩ := h.shown name idx hshown
    have hlen : name.chars.length - s.i = rest.length := by
      rw [← hrest, List.length_append, h.i_eq, Nat.add_sub_cancel_left]
    have hback := puts_backspaces (prompt.chars ++ e.line) rest
    rw [List.append_assoc, hrest] at hback
    rw [hfound, hidx, hname, if_pos rfl, Option.map_some, hlen, hscreen, Edit.text, hshown]
    exact congrArg some hback

theorem Edit.next_some (e : Edit) {name : Text} {idx : Nat}
    (h : e.next commands = some (name, idx)) :
    commands[idx]? = some name ∧ e.line <+: name.chars := by
  rw [Edit.next] at h
  have hpre := List.find?_some h
  have hmem := List.mem_of_mem_drop (List.mem_of_find?_eq_some h)
  exact ⟨List.mk_mem_zipIdx_iff_getElem?.mp hmem, List.isPrefixOf_iff_prefix.mp hpre⟩

theorem Edit.edit_shown (e : Edit) (c : Int) : (e.edit c).shown = e.shown := by
  rw [Edit.edit]
  split_ifs <;> rfl

theorem Edits.complete (h : Edits commands s e) (hscreen : s.screen = prompt.chars ++ e.text) :
    ∃ s', Shell.readKey prompt commands 0x09 s = some (.reading s') ∧
    Edits commands s' (e.key commands 0x09) ∧
      s'.screen = prompt.chars ++ (e.key commands 0x09).text := by
  have hfirst : (if s.isFound then s.tabIdx + 1 else 0) = match e.shown with
      | some (_, idx) => idx + 1
      | none => 0 := by
    cases hshown : e.shown with
    | none => rw [h.found, hshown]; rfl
    | some p =>
      obtain ⟨name, idx⟩ := p
      rw [h.found, hshown, (h.shown name idx hshown).1]
      rfl
  have hmatch : (fun p : Text × Nat => strncmp p.1.chars s.buf 0 s.i) = fun p =>
      e.line.isPrefixOf p.1.chars := by
    funext p
    rw [s.strncmp_text h.printable_text, h.text]
  have hkey : Shell.readKey prompt commands 0x09 s = (Shell.complete commands s).map .reading := by
    rw [Shell.readKey, if_neg (by simp), Shell.branch]
    rfl
  have hnext : (e.key commands 0x09) = { e with shown := e.next commands } := if_pos rfl
  rw [hkey, hnext, Shell.complete, h.clearMatch
    hscreen, Option.map_some, Option.map_some, showMatch, hfirst, hmatch]
  change ∃ s', some (Outcome.reading (match e.next commands with
    | some (name, idx) =>
      { s with screen := puts (name.chars.drop s.i) (prompt.chars ++
        e.line), isTab := true, isFound := true, tabIdx := idx }
    | none => { s with screen := prompt.chars ++ e.line, isFound := false })) =
        some (.reading s') ∧ _
  cases hfind : e.next commands with
  | none =>
    exact ⟨_, rfl, ⟨h.text, h.length_lt, h.printable, h.hist, rfl, nofun, nofun⟩, rfl⟩
  | some p =>
    obtain ⟨name, idx⟩ := p
    obtain ⟨hname, hpre⟩ := e.next_some hfind
    refine ⟨_, rfl, ⟨h.text, h.length_lt, h.printable, h.hist, rfl, fun _ => rfl, ?_⟩, ?_⟩
    · intro name' idx' hsome
      obtain ⟨rfl, rfl⟩ := Prod.mk.inj (Option.some.inj hsome)
      exact ⟨rfl, hname, hpre⟩
    · obtain ⟨rest, hrest⟩ := hpre
      have hdrop : name.chars.drop s.i = rest := by rw [← hrest, h.i_eq, List.drop_left]
      have hprint : ∀ c ∈ rest, Printable c := by
        intro c hc
        exact name.printable c (hrest ▸ List.mem_append_right e.line hc)
      dsimp only
      rw [hdrop, puts_printable hprint, List.append_assoc, hrest]
      rfl

/-- As long as the keys leave the terminal alone, it shows the line; a Ctrl-L on a line that
is not empty shows at once. -/
theorem Edits.alwaysFaithful_iff (keys : List Int) (h : Edits commands s e)
    (hscreen : s.screen = prompt.chars ++ e.text) :
    AlwaysFaithful prompt commands s keys ↔ Undisturbed commands e keys := by
  induction keys generalizing s e with
  | nil => exact h.faithful_iff hscreen
  | cons c keys ih =>
    rw [AlwaysFaithful, Undisturbed, h.faithful_iff hscreen]
    refine and_congr_right fun hfits => ?_
    by_cases htab : c = 0x09
    · subst htab
      obtain ⟨s', hkey, h', hscreen'⟩ := h.complete hscreen
      rw [hkey]
      have hends : ¬Ends 0x09 := by simp [Ends]
      simp only [hends, false_or]
      rw [ih h' hscreen']
      simp
    · have hkey := h.readKey prompt htab
      rw [if_pos hfits] at hkey
      obtain ⟨s', hbranch, h', hscreen'⟩ := hkey
      rw [hscreen] at hscreen'
      have hnext : e.key commands c = e.accept.edit c := if_neg htab
      rw [hbranch, hnext]
      by_cases hends : Ends c
      · refine iff_of_true ?_ (.inl hends)
        rcases hends with hneg | rfl | rfl
        · rw [Shell.branch, if_pos hneg]
          trivial
        · exact trivial
        · exact trivial
      · simp only [hends, false_or]
        by_cases hcls : c = 0x0C
        · subst hcls
          have hcleared : Shell.branch prompt commands 0x0C s' =
              some (.reading { s' with screen := puts prompt.chars [] }) := rfl
          have hscreen'' : puts prompt.chars [] = prompt.chars := puts_printable prompt.printable []
          have hedit : e.accept.edit 0x0C = e.accept := rfl
          have h'' : Edits commands { s' with screen := puts prompt.chars [] } e.accept :=
            ⟨h'.text, h'.length_lt, h'.printable, h'.hist, h'.found, h'.tab, h'.shown⟩
          rw [hcleared, hedit]
          by_cases hnil : e.text = []
          · have hempty : puts prompt.chars [] = prompt.chars ++ e.accept.text := by
              rw [hscreen'']
              exact (hnil ▸ List.append_nil _).symm
            simp only [hnil, implies_true, true_and]
            exact ih h'' hempty
          · refine iff_of_false ?_ fun hu => hnil (hu.1 rfl)
            intro hall
            exact h''.not_faithful hfits hscreen'' hnil hall.faithful
        · obtain ⟨s'', hreading, h'', hscreen''⟩ := h'.branch rfl hscreen' hends htab hcls
          rw [hreading]
          simp only [hcls, false_imp_iff, true_and]
          have htext : (e.accept.edit c).text = (e.accept.edit c).line := by
            rw [Edit.text, Edit.edit_shown]
            rfl
          exact ih h'' (htext ▸ hscreen'')

end Steps

/-- `readline` at its first key. -/
def Editor.initial (prompt : Text) (hist : History) : Editor :=
  .start prompt ⟨fun _ => 0, 0, 0, false, false, hist, []⟩

/-- With any commands, history and keys, the terminal always shows what Enter would submit exactly
if Ctrl-L is pressed on empty lines only and the completions shown fit the buffer. -/
theorem readline_faithful_iff (prompt : Text) (commands : List Text) (hist : History)
    (keys : List Int) :
    AlwaysFaithful prompt commands (.initial prompt hist) keys ↔
    Undisturbed commands ⟨[], none, hist⟩ keys := by
  have hscreen : puts prompt.chars [] = prompt.chars ++ [] := by
    rw [puts_printable prompt.printable, List.append_nil]
    rfl
  have hempty : ([] : List Byte).length < buflen := by decide
  have h : Edits commands (.initial prompt hist) ⟨[], none, hist⟩ :=
    ⟨rfl, hempty, nofun, rfl, rfl, nofun, nofun⟩
  exact h.alwaysFaithful_iff keys hscreen

/-- The prompt of the shell. -/
def osdiPrompt : Text := ⟨[0x4F, 0x53, 0x44, 0x49, 0x3E, 0x20], by decide⟩

/-- After `a` and Ctrl-L only the prompt is visible, but Enter submits `a`. -/
theorem ctrlL_hides_line : ∃ s₁ s₂ s₃,
    readKey osdiPrompt [] 0x61 (.initial osdiPrompt .initial) = some (.reading s₁) ∧
    readKey osdiPrompt [] 0x0C s₁ = some (.reading s₂) ∧ s₂.screen = osdiPrompt.chars ∧
    readKey osdiPrompt [] 0x0A s₂ = some (.returned [0x61] s₃) := by
  exact ⟨_, _, _, rfl, rfl, rfl, rfl⟩

end NctuCourses.Osdi.Shell
