import Mathlib.Data.List.TakeWhile

namespace NctuCourses.Lib

/-- An input stream: the characters to come, `eofbit` and `failbit`. -/
structure IStream where
  rest : List Char
  eof : Bool
  fail : Bool
  deriving DecidableEq

namespace IStream

/-- A stream that has just been opened. -/
def ofText (text : List Char) : IStream := ⟨text, false, false⟩

/-- `std::getline`. On a stream that is not good only `failbit` is set. Otherwise characters
are taken up to the delimiter; `eofbit` is set when the end comes first, and `failbit` when
there was no character at all. -/
def getline (delim : Char) (s : IStream) (str : List Char) : IStream × List Char :=
  if s.eof || s.fail then ({ s with fail := true }, str)
  else
    let line := s.rest.takeWhile (· ≠ delim)
    match s.rest.dropWhile (· ≠ delim) with
    | [] => (⟨[], true, line.isEmpty⟩, line)
    | _ :: rest => (⟨rest, false, false⟩, line)

/-- Texts with `sep` between them, and after the last one if `close`. -/
def separate (sep : Char) (close : Bool) : List (List Char) → List Char
  | [] => []
  | [w] => w ++ if close then [sep] else []
  | w :: v :: ws => w ++ sep :: separate sep close (v :: ws)

variable {delim : Char} {line : List Char}

theorem getline_eof (s : IStream) (hs : s.eof = true) (str : List Char) :
    s.getline delim str = ({ s with fail := true }, str) := by
  simp [getline, hs]

theorem ne_of_not_mem (h : delim ∉ line) : ∀ c ∈ line, decide (c ≠ delim) = true := by
  intro c hc
  rw [decide_eq_true_eq]
  intro he
  exact h (he ▸ hc)

theorem getline_line (h : delim ∉ line) (rest str : List Char) :
    (ofText (line ++ delim :: rest)).getline delim str = (ofText rest, line) := by
  have htake : (line ++ delim :: rest).takeWhile (· ≠ delim) = line := by
    rw [List.takeWhile_append_of_pos (ne_of_not_mem h)]
    simp
  have hdrop : (line ++ delim :: rest).dropWhile (· ≠ delim) = delim :: rest := by
    rw [List.dropWhile_append_of_pos (ne_of_not_mem h)]
    simp
  simp only [getline, ofText, Bool.or_self, Bool.false_eq_true, if_false, htake, hdrop]

theorem getline_last (h : delim ∉ line) (str : List Char) :
    (ofText line).getline delim str = (⟨[], true, line.isEmpty⟩, line) := by
  have htake : line.takeWhile (· ≠ delim) = line := List.takeWhile_eq_self_iff.mpr (ne_of_not_mem h)
  have hdrop : line.dropWhile (· ≠ delim) = [] := List.dropWhile_eq_nil_iff.mpr (ne_of_not_mem h)
  simp only [getline, ofText, Bool.or_self, Bool.false_eq_true, if_false, htake, hdrop]

theorem mem_separate {sep c : Char} {close : Bool} {ws : List (List Char)}
    (h : c ∈ separate sep close ws) :
    c = sep ∨ ∃ w ∈ ws, c ∈ w := by
  induction ws with
  | nil => cases h
  | cons w ws ih =>
    cases ws with
    | nil =>
      cases List.mem_append.mp h with
      | inl h => exact .inr ⟨w, by simp, h⟩
      | inr h =>
        split at h
        · exact .inl (List.mem_singleton.mp h)
        · cases h
    | cons v ws =>
      cases List.mem_append.mp h with
      | inl h => exact .inr ⟨w, by simp, h⟩
      | inr h =>
        cases List.mem_cons.mp h with
        | inl h => exact .inl h
        | inr h =>
          obtain h | ⟨u, hu, hc⟩ := ih h
          · exact .inl h
          · exact .inr ⟨u, List.mem_cons_of_mem w hu, hc⟩

end IStream

end NctuCourses.Lib
