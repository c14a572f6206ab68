import Mathlib.Tactic

namespace NctuCourses.Libmini

/-- `long`. -/
abbrev Long := BitVec 64

/-- `errno`, and what has been written to which file descriptor. -/
structure Writer where
  errno : Long
  writes : List (Int × List Char)

/-- `PERRMSG_MIN`. -/
def perrmsgMin : Int := 0

/-- `PERRMSG_MAX`. -/
def perrmsgMax : Int := 34

def errmsg : List String :=
  ["Success",
    "Operation not permitted",
    "No such file or directory",
    "No such process",
    "Interrupted system call",
    "I/O error",
    "No such device or address",
    "Argument list too long",
    "Exec format error",
    "Bad file number",
    "No child processes",
    "Try again",
    "Out of memory",
    "Permission denied",
    "Bad address",
    "Block device required",
    "Device or resource busy",
    "File exists",
    "Cross-device link",
    "No such device",
    "Not a directory",
    "Is a directory",
    "Invalid argument",
    "File table overflow",
    "Too many open files",
    "Not a typewriter",
    "Text file busy",
    "File too large",
    "No space left on device",
    "Illegal seek",
    "Read-only file system",
    "Too many links",
    "Broken pipe",
    "Math argument out of domain of func",
    "Math result not representable"]

/-- `errmsg[i]`, undefined outside the table. -/
def errmsgAt (i : Long) : Option String := if 0 ≤ i.toInt then errmsg[i.toInt.toNat]? else none

/-- `write`. The system call number `k` of a run returns `sysWrite k`. -/
def write (sysWrite : Nat → Long) (fd : Int) (buf : String) (count : Nat) (w : Writer) :
    Long × Writer :=
  let ret := sysWrite w.writes.length
  let w : Writer := ⟨0, w.writes ++ [(fd, buf.toList.take count)]⟩
  if ret.toInt < 0 then (-1, { w with errno := -ret }) else (ret, w)

/-- The first part of `perror`; a null pointer is no prefix. -/
def perrorPrefix (sysWrite : Nat → Long) (pfx : Option String) (w : Writer) : Writer :=
  match pfx with
  | none => w
  | some p =>
    let w := (write sysWrite 2 p p.length w).2
    (write sysWrite 2 ": " 2 w).2

def perror (sysWrite : Nat → Long) (pfx : Option String) (w : Writer) : Option Writer := do
  let unknown := "Unknown"
  let backup := w.errno
  let w := perrorPrefix sysWrite pfx w
  let w ←
    if w.errno.toInt < perrmsgMin ∨ w.errno.toInt > perrmsgMax then
      some (write sysWrite 2 unknown unknown.length w).2
    else do
      let msg ← errmsgAt backup
      some (write sysWrite 2 msg msg.length w).2
  some (write sysWrite 2 "\n" 1 w).2

/-- An error number with a message of its own. -/
def Known (e : Long) : Prop := perrmsgMin ≤ e.toInt ∧ e.toInt ≤ perrmsgMax

instance (e : Long) : Decidable (Known e) := inferInstanceAs (Decidable (_ ∧ _))

/-- The message for an error number. -/
def message (e : Long) : String := if Known e then errmsg.getD e.toInt.toNat "" else "Unknown"

/-- The text before the message. -/
def heading : Option String → List Char
  | none => []
  | some p => p.toList ++ ": ".toList

/-- What a call of `perror` should print for the error `e`. -/
def report (pfx : Option String) (e : Long) : List Char :=
  heading pfx ++ (message e).toList ++ "\n".toList

/-- The text on standard error. -/
def Writer.text (w : Writer) : List Char := w.writes.flatMap Prod.snd

theorem errmsg_length : errmsg.length = 35 := rfl

theorem unknown_notMem_errmsg : "Unknown" ∉ errmsg := by decide

theorem known_iff {e : Long} : Known e ↔ ¬(e.toInt < perrmsgMin ∨ e.toInt > perrmsgMax) := by
  unfold Known
  omega

theorem errmsgAt_of_known {e : Long} (he : Known e) : errmsgAt e = some (message e) := by
  have h0 : 0 ≤ e.toInt := he.1
  have hlt : e.toInt.toNat < errmsg.length := by
    have h34 : e.toInt ≤ 34 := he.2
    rw [errmsg_length]
    omega
  rw [errmsgAt, if_pos h0, message, if_pos he, List.getD_eq_getElem?_getD,
    List.getElem?_eq_getElem hlt]
  rfl

theorem errmsgAt_of_not_known {e : Long} (he : ¬Known e) : errmsgAt e = none := by
  rw [errmsgAt]
  split_ifs with h0
  · apply List.getElem?_eq_none
    rw [errmsg_length]
    unfold Known perrmsgMin perrmsgMax at he
    omega
  · rfl

theorem message_ne_unknown {e : Long} (he : Known e) : message e ≠ "Unknown" := by
  intro h
  have h0 : 0 ≤ e.toInt := he.1
  have hmem := errmsgAt_of_known he
  rw [h, errmsgAt, if_pos h0] at hmem
  exact unknown_notMem_errmsg (List.mem_of_getElem? hmem)

section Write

variable (sysWrite : Nat → Long) (fd : Int) (buf : String) (w : Writer)

theorem write_writes :
    (write sysWrite fd buf buf.length w).2.writes = w.writes ++ [(fd, buf.toList)] := by
  have htake : buf.toList.take buf.length = buf.toList :=
    List.take_of_length_le String.length_toList.le
  unfold write
  dsimp only
  rw [htake]
  split_ifs <;> rfl

/-- `errno` after a call is in the table unless the call has failed with a greater error number. -/
theorem known_write (count : Nat) :
    Known (write sysWrite fd buf count w).2.errno ↔ -34 ≤ (sysWrite w.writes.length).toInt := by
  unfold write
  dsimp only
  generalize sysWrite w.writes.length = ret
  split_ifs with hneg
  · have hle := BitVec.le_toInt ret
    unfold Known perrmsgMin perrmsgMax
    rw [BitVec.toInt_neg]
    by_cases hmin : ret.toInt = -2 ^ 63
    · rw [hmin]
      decide
    · rw [Int.bmod_eq_of_le (by omega) (by omega)]
      omega
  · have hzero : Known 0#64 := by decide
    exact iff_of_true hzero (by omega)

end Write

section Perror

variable (sysWrite : Nat → Long) (pfx : Option String) (e : Long)

/-- Everything has gone to standard error, and makes up the text `t`. -/
structure Printed (w : Writer) (t : List Char) : Prop where
  stderr : ∀ x ∈ w.writes, x.1 = 2
  text : w.text = t

theorem Printed.write {w : Writer} {t : List Char} (h : Printed w t) (buf : String) :
    Printed (write sysWrite 2 buf buf.length w).2 (t ++ buf.toList) := by
  constructor
  · intro x hx
    rw [write_writes, List.mem_append, List.mem_singleton] at hx
    cases hx with
    | inl hx => exact h.stderr x hx
    | inr hx => rw [hx]
  · rw [Writer.text, write_writes, List.flatMap_append, ← Writer.text, h.text]
    simp

theorem printed_heading : Printed (perrorPrefix sysWrite pfx ⟨e, []⟩) (heading pfx) := by
  have hstart : Printed ⟨e, []⟩ [] := ⟨by simp, rfl⟩
  cases pfx with
  | none => exact hstart
  | some p => exact (hstart.write sysWrite p).write sysWrite ": "

theorem known_heading : Known (perrorPrefix sysWrite pfx ⟨e, []⟩).errno ↔
    if pfx = none then Known e else -34 ≤ (sysWrite 1).toInt := by
  cases pfx with
  | none => exact Iff.rfl
  | some p =>
    have hone : (write sysWrite 2 p p.length ⟨e, []⟩).2.writes.length = 1 := by
      rw [write_writes]
      rfl
    rw [if_neg (by simp)]
    rw [← hone]
    exact known_write sysWrite 2 ": " (write sysWrite 2 p p.length ⟨e, []⟩).2 2

theorem perror_known (h : Known (perrorPrefix sysWrite pfx ⟨e, []⟩).errno) (he : Known e) :
    ∃ w, perror sysWrite pfx ⟨e, []⟩ = some w ∧
    Printed w (heading pfx ++ (message e).toList ++ "\n".toList) := by
  refine ⟨_, ?_, ((printed_heading sysWrite pfx e).write sysWrite (message e)).write sysWrite "\n"⟩
  simp only [perror, if_neg (known_iff.mp h), errmsgAt_of_known he]
  rfl

theorem perror_outside (h : Known (perrorPrefix sysWrite pfx ⟨e, []⟩).errno) (he : ¬Known e) :
    perror sysWrite pfx ⟨e, []⟩ = none := by
  simp only [perror, if_neg (known_iff.mp h), errmsgAt_of_not_known he]
  rfl

theorem perror_unknown (h : ¬Known (perrorPrefix sysWrite pfx ⟨e, []⟩).errno) :
    ∃ w, perror sysWrite pfx ⟨e, []⟩ = some w ∧
    Printed w (heading pfx ++ "Unknown".toList ++ "\n".toList) := by
  have hout := not_not.mp (mt known_iff.mpr h)
  refine ⟨_, ?_, ((printed_heading sysWrite pfx e).write sysWrite "Unknown").write sysWrite "\n"⟩
  simp only [perror, if_pos hout]
  rfl

/-- `perror` returns, having looked up nothing outside its table, and has printed the report for the
error it was called with, exactly if there is no prefix or the check, which sees the outcome of the
second call, agrees with the error. -/
theorem perror_reports_iff :
    (∃ w, perror sysWrite pfx ⟨e, []⟩ = some w ∧ (∀ x ∈ w.writes, x.1 = 2) ∧
      w.text = report pfx e) ↔
      (pfx = none ∨ (Known e ↔ -34 ≤ (sysWrite 1).toInt)) := by
  have hcheck := known_heading sysWrite pfx e
  have hcond : (pfx = none ∨ (Known e ↔ -34 ≤ (sysWrite 1).toInt)) ↔
      (Known e ↔ Known (perrorPrefix sysWrite pfx ⟨e, []⟩).errno) := by
    rw [hcheck]
    split_ifs with hp <;> simp [hp]
  rw [hcond]
  by_cases hk : Known (perrorPrefix sysWrite pfx ⟨e, []⟩).errno
  · by_cases he : Known e
    · obtain ⟨w, hw, hprinted⟩ := perror_known sysWrite pfx e hk he
      exact iff_of_true ⟨w, hw, hprinted.stderr, hprinted.text⟩ (iff_of_true he hk)
    · refine iff_of_false ?_ fun h => he (h.mpr hk)
      intro ⟨w, hw, _⟩
      rw [perror_outside sysWrite pfx e hk he] at hw
      cases hw
  · obtain ⟨w, hw, hprinted⟩ := perror_unknown sysWrite pfx e hk
    by_cases he : Known e
    · refine iff_of_false ?_ fun h => hk (h.mp he)
      intro ⟨w', hw', _, htext⟩
      obtain rfl := Option.some.inj (hw.symm.trans hw')
      rw [hprinted.text, report] at htext
      have hmsg := List.append_cancel_left (List.append_cancel_right htext)
      exact message_ne_unknown he (String.toList_inj.mp hmsg).symm
    · refine iff_of_true ⟨w, hw, hprinted.stderr, ?_⟩ (iff_of_false he hk)
      rw [hprinted.text, report, message, if_neg he]

end Perror

/-- All writes succeed: `perror("open")` with an `errno` of 40 reads past the table. With an `errno`
of 2 it says `Unknown` when the write of `": "` fails with the error 122. -/
theorem perror_misreports : perror (fun _ => 2#64) (some "open") ⟨40#64, []⟩ = none ∧
    ∃ w, perror (fun _ => -122#64) (some "open") ⟨2#64, []⟩ = some w ∧
    w.text = "open: Unknown\n".toList := by
  constructor
  · exact perror_outside _ _ _ (by decide) (by decide)
  · obtain ⟨w, hw, hprinted⟩ := perror_unknown (fun _ => -122#64) (some "open") 2#64 (by decide)
    exact ⟨w, hw, hprinted.text⟩

end NctuCourses.Libmini
