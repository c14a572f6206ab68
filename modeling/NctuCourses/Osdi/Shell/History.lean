import NctuCourses.Lib.Circular
import NctuCourses.Osdi.Shell.Readline

namespace NctuCourses.Osdi.Shell

open Console (Byte keyUp keyDn)
open Lib

/-- What `shell` does with a line that `readline` has returned. -/
def History.submit (line : Row) (h : History) : History :=
  let rows := Function.update h.rows h.tail line
  let tail := (h.tail + 1) % shellHistMax
  if h.head = tail then ⟨Function.update rows tail .empty, (h.head + 1) % shellHistMax, tail, tail⟩
  else ⟨rows, h.head, tail, tail⟩

/-- The history after some lines. -/
def submitted (lines : List Row) : History := lines.foldl (fun h line => h.submit line) .initial

/-- The keys that walk through the history. -/
inductive Arrow where
  | up
  | dn

def Arrow.code : Arrow → Int
  | .up => keyUp.toNat
  | .dn => keyDn.toNat

/-- One step back or forth from position `p` among `n` lines. -/
def Arrow.move (n p : Nat) : Arrow → Nat
  | .up => min (p + 1) (min n (shellHistMax - 1))
  | .dn => p - 1

/-- How far back the arrows lead. -/
def position (n : Nat) (arrows : List Arrow) : Nat := arrows.foldl (fun p a => a.move n p) 0

/-- The line `p` submissions ago, and the empty line for 0. -/
def recent (lines : List Row) : Nat → List Byte
  | 0 => []
  | p + 1 => (lines.reverse[p]?.getD .empty).chars

/-- The keys are read one after the other. -/
def readKeys (prompt : Text) (commands : List Text) : List Int → Editor → Option Editor
  | [], s => some s
  | c :: keys, s =>
    match readKey prompt commands c s with
    | some (.reading s') => readKeys prompt commands keys s'
    | _ => none

/-- `hist_curr` is on the ring from `hist_head` to `hist_tail`. -/
def History.OnSegment (h : History) : Prop :=
  (h.curr + shellHistMax - h.head) % shellHistMax ≤ (h.tail + shellHistMax - h.head) % shellHistMax

/-- The ring holds the last lines, and its other rows are empty. -/
structure Remembers (h : History) (l : List Row) : Prop where
  cells : Circular shellHistMax h.rows h.head h.tail l
  empty : ∀ k, l.length ≤ k → k < shellHistMax → h.rows ((h.head + k) % shellHistMax) = .empty

theorem Remembers.submit {h : History} {l : List Row} (hr : Remembers h l) (line : Row) :
    Remembers (h.submit line) ((l ++ [line]).drop (l.length + 1 - (shellHistMax - 1))) := by
  have hlt := hr.cells.length_lt
  have hhead := hr.cells.r_lt
  have htail : (h.tail + 1) % shellHistMax = (h.head + (l.length + 1)) % shellHistMax := by
    rw [hr.cells.w_eq, Nat.mod_add_mod, Nat.add_assoc]
  rw [shellHistMax] at hlt hhead
  by_cases hroom : l.length + 1 < shellHistMax
  · have hne : h.head ≠ (h.tail + 1) % shellHistMax := by
      rw [htail]
      rw [shellHistMax] at hroom ⊢
      omega
    have hdrop : l.length + 1 - (shellHistMax - 1) = 0 := by
      rw [shellHistMax] at hroom ⊢
      omega
    rw [hdrop, List.drop_zero, History.submit, if_neg hne]
    refine ⟨hr.cells.put hroom line, ?_⟩
    intro k hk hk10
    rw [List.length_append, List.length_singleton] at hk
    dsimp only
    rw [Function.update_of_ne, hr.empty k (by omega) hk10]
    rw [hr.cells.w_eq]
    exact cell_ne hk10 (by omega) (by omega)
  · -- the oldest line makes room for the row that is edited next
    have hlen : l.length = 9 := by
      rw [shellHistMax] at hroom
      omega
    have heq : h.head = (h.tail + 1) % shellHistMax := by
      rw [htail, hlen, shellHistMax]
      omega
    rw [History.submit, if_pos heq, hlen]
    cases l with
    | nil => cases hlen
    | cons a l =>
      rw [List.length_cons] at hlen
      have hput := hr.cells.drop.put
        (show l.length + 1 < shellHistMax by rw [shellHistMax]; omega) line
      refine ⟨hput.write .empty, ?_⟩
      intro k hk hk10
      have hk9 : k = 9 := by
        rw [shellHistMax] at hk hk10
        simp only [List.cons_append, Nat.add_one_sub_one, Nat.reduceAdd, Nat.reduceSub,
          List.drop_succ_cons, List.drop_zero, List.length_append, List.length_singleton] at hk
        omega
      have hcell : ((h.head + 1) % shellHistMax + k) % shellHistMax = (h.tail + 1) %
          shellHistMax := by
        rw [← heq, hk9, shellHistMax]
        omega
      dsimp only
      rw [hcell, Function.update_self]

theorem submitted_remembers (lines : List Row) :
    Remembers (submitted lines) (lines.drop (lines.length - (shellHistMax - 1))) ∧
      (submitted lines).curr = (submitted lines).tail := by
  induction lines using List.reverseRecOn with
  | nil => exact ⟨⟨Circular.nil (by decide), fun _ _ _ => rfl⟩, rfl⟩
  | append_singleton lines line ih =>
    have hrun : submitted (lines ++ [line]) = (submitted lines).submit line := by
      rw [submitted, List.foldl_append]
      rfl
    have hdrop : (lines.drop (lines.length - (shellHistMax - 1)) ++ [line]).drop
        ((lines.drop (lines.length - (shellHistMax - 1))).length + 1 - (shellHistMax - 1)) =
          (lines ++ [line]).drop ((lines ++ [line]).length - (shellHistMax - 1)) := by
      rw [← List.drop_append_of_le_length (Nat.sub_le _ _), List.drop_drop, List.length_drop,
        List.length_append, List.length_singleton, shellHistMax]
      congr 1
      omega
    rw [hrun]
    refine ⟨hdrop ▸ ih.1.submit line, ?_⟩
    rw [History.submit]
    split_ifs <;> rfl

/-- `hist_curr` is `p` rows before `hist_tail`. -/
structure Points (h : History) (l : List Row) (p : Nat) : Prop extends Remembers h l where
  p_le : p ≤ l.length
  curr : h.curr = (h.head + (l.length - p)) % shellHistMax

section Points

variable {h : History} {l : List Row} {p : Nat}

theorem Points.up (hp : Points h l p) : Points h.up l (min (p + 1) l.length) := by
  have hlt := hp.cells.length_lt
  have hhead := hp.cells.r_lt
  have hle := hp.p_le
  have hcurr := hp.curr
  rw [shellHistMax] at hlt hhead hcurr
  by_cases hlast : p = l.length
  · have hstay : h.up = h := if_neg (by rw [not_not, hcurr, hlast]; omega)
    rw [hstay, hlast, Nat.min_eq_right (Nat.le_succ _)]
    exact hlast ▸ hp
  · have hmove : h.up = { h with curr := if h.curr = 0 then shellHistMax - 1 else h.curr - 1 } :=
      if_pos (by rw [hcurr]; omega)
    rw [hmove, Nat.min_eq_left (by omega)]
    refine ⟨⟨hp.cells, hp.empty⟩, by omega, ?_⟩
    rw [shellHistMax]
    dsimp only
    split_ifs <;> omega

theorem Points.dn (hp : Points h l p) : Points h.dn l (p - 1) := by
  have hlt := hp.cells.length_lt
  have hhead := hp.cells.r_lt
  have hle := hp.p_le
  have hcurr := hp.curr
  have htail := hp.cells.w_eq
  rw [shellHistMax] at hlt hhead hcurr htail
  by_cases hfirst : p = 0
  · have hstay : h.dn = h := if_neg (by rw [not_not, hcurr, htail, hfirst, Nat.sub_zero])
    subst hfirst
    rw [hstay]
    exact hp
  · have hmove : h.dn = { h with curr := if h.curr = shellHistMax - 1 then 0 else h.curr + 1 } :=
      if_pos (by rw [hcurr, htail]; omega)
    rw [hmove]
    refine ⟨⟨hp.cells, hp.empty⟩, by omega, ?_⟩
    rw [shellHistMax]
    dsimp only
    split_ifs <;> omega

theorem Points.row {lines : List Row} (hl : l = lines.drop (lines.length - (shellHistMax - 1)))
    (hp : Points h l p) :
    (h.rows h.curr).chars = recent lines p := by
  have hle := hp.p_le
  rw [hp.curr]
  cases p with
  | zero =>
    rw [Nat.sub_zero, hp.empty l.length (le_refl _) hp.cells.length_lt]
    rfl
  | succ p =>
    have hlen : l.length = min lines.length 9 := by
      rw [hl, List.length_drop, shellHistMax]
      omega
    have hget : l[l.length - (p + 1)]? = some (l.get ⟨l.length - (p + 1), by omega⟩) :=
      List.getElem?_eq_getElem _
    rw [hp.cells.cell _ _ hget, recent, List.getElem?_reverse (by omega)]
    have hdrop : ∀ i, l[i]? = lines[lines.length - (shellHistMax - 1) + i]? := by
      intro i
      rw [hl, List.getElem?_drop]
    have hsame : lines[lines.length - 1 - p]? = l[l.length - (p + 1)]? := by
      rw [hdrop, shellHistMax]
      congr 1
      omega
    rw [hsame, hget]
    rfl

theorem Points.onSegment (hp : Points h l p) : h.head < shellHistMax ∧ h.tail < shellHistMax ∧
    h.curr < shellHistMax ∧ h.OnSegment := by
  have hlt := hp.cells.length_lt
  have hhead := hp.cells.r_lt
  have hle := hp.p_le
  have hcurr := hp.curr
  have htail := hp.cells.w_eq
  rw [History.OnSegment, hcurr, htail]
  rw [shellHistMax] at *
  omega

end Points

/-- The editor shows the line `p` submissions ago. -/
structure Walks (lines : List Row) (p : Nat) (s : Editor) : Prop where
  found : s.isFound = false
  points : Points s.hist (lines.drop (lines.length - (shellHistMax - 1))) p
  text : s.text = recent lines p

theorem readKey_arrow (prompt : Text) (commands : List Text) {s : Editor}
    (hfound : s.isFound = false) (a : Arrow) :
    readKey prompt commands a.code s =
      some (.reading (s.recall (match a with
        | .up => s.hist.up
        | .dn => s.hist.dn))) := by
  rw [readKey, if_neg (by simp [hfound])]
  cases a <;> rfl

section Walk

variable (prompt : Text) (commands : List Text) {lines : List Row} {p : Nat} {s : Editor}

theorem Walks.arrow (h : Walks lines p s) (a : Arrow) :
    ∃ s', readKey prompt commands a.code s = some (.reading s') ∧
    Walks lines (a.move lines.length p) s' := by
  have hlen : (lines.drop (lines.length - (shellHistMax - 1))).length = min lines.length
      (shellHistMax - 1) := by
    rw [List.length_drop]
    omega
  cases a with
  | up =>
    have hup := h.points.up
    rw [hlen] at hup
    exact ⟨_, readKey_arrow prompt commands h.found .up, h.found, hup,
      (s.text_recall _).trans (hup.row rfl)⟩
  | dn =>
    have hdn := h.points.dn
    exact ⟨_, readKey_arrow prompt commands h.found .dn, h.found, hdn,
      (s.text_recall _).trans (hdn.row rfl)⟩

theorem Walks.arrows (h : Walks lines p s) (arrows : List Arrow) :
    ∃ s', readKeys prompt commands (arrows.map Arrow.code) s = some s' ∧
      Walks lines (arrows.foldl (fun p a => a.move lines.length p) p) s' := by
  induction arrows generalizing p s with
  | nil => exact ⟨s, rfl, h⟩
  | cons a arrows ih =>
    obtain ⟨s', hkey, h'⟩ := h.arrow prompt commands a
    rw [List.map_cons, readKeys, hkey]
    exact ih h'

theorem Walks.enter (h : Walks lines p s) :
    ∃ s', readKey prompt commands 0x0A s = some (.returned (recent lines p) s') ∧
    s'.hist = s.hist ∧ s'.isFound = false := by
  have hprint : ∀ c ∈ s.text, Printable c := by
    rw [h.text, ← h.points.row rfl]
    exact (s.hist.rows s.hist.curr).printable
  have hreturn : readKey prompt commands 0x0A s =
      some (.returned s.submitted { s with buf := Function.update s.buf s.i 0, screen := [] }) := by
    rw [readKey, if_neg (by simp [h.found])]
    rfl
  rw [s.submitted_eq hprint, h.text] at hreturn
  exact ⟨_, hreturn, rfl, h.found⟩

end Walk

/-- After some lines, `readline` walks through the last nine of them. The arrows lead to the line
that the position says, Enter submits it, and the indices stay on the ring. -/
theorem readline_recalls (prompt : Text) (commands : List Text) (lines : List Row)
    (arrows : List Arrow) (buf : Nat → Byte) (tabIdx : Nat) (isTab : Bool) :
    ∃ s, readKeys prompt commands (arrows.map Arrow.code)
        (.start prompt ⟨buf, 0, tabIdx, isTab, false, submitted lines, []⟩) = some s ∧
      s.text = recent lines (position lines.length arrows) ∧
      (∃ s', readKey prompt commands 0x0A s = some
        (.returned (recent lines (position lines.length arrows)) s') ∧
        s'.hist = s.hist ∧ s'.isFound = false) ∧
      s.hist.head < shellHistMax ∧ s.hist.tail < shellHistMax ∧ s.hist.curr < shellHistMax ∧
      s.hist.OnSegment := by
  obtain ⟨hr, hcurr⟩ := submitted_remembers lines
  have hpoints : Points (submitted lines) (lines.drop (lines.length - (shellHistMax - 1))) 0 :=
    ⟨hr, Nat.zero_le _, hcurr.trans hr.cells.w_eq⟩
  have hstart : Walks lines 0 (.start prompt ⟨buf, 0, tabIdx, isTab, false, submitted lines, []⟩) :=
    ⟨rfl, hpoints, rfl⟩
  obtain ⟨s, hkeys, h⟩ := hstart.arrows prompt commands arrows
  exact ⟨s, hkeys, h.text, h.enter prompt commands, h.points.onSegment⟩

end NctuCourses.Osdi.Shell
