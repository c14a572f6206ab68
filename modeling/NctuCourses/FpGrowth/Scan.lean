import NctuCourses.Lib.IStream
import NctuCourses.FpGrowth.Mine

namespace NctuCourses.FpGrowth

open NctuCourses.Lib

/-- `std::isspace`. -/
def isSpace (c : Char) : Bool := c == ' ' || '\t' ≤ c && c ≤ '\r'

/-- Whether there is a minus, and what follows the sign. -/
def takeSign : List Char → Bool × List Char
  | '-' :: str => (true, str)
  | '+' :: str => (false, str)
  | str => (false, str)

/-- `std::stoi`: white space, a sign, and as many digits as there are; it throws if there is none or
if the number is not an `int`. -/
def stoi (str : List Char) : Option Int :=
  let (negative, str) := takeSign (str.dropWhile isSpace)
  let digits := str.takeWhile Char.isDigit
  let n : Int := Nat.ofDigitChars 10 digits 0
  let n := if negative then -n else n
  if digits = [] ∨ n < -2 ^ 31 ∨ 2 ^ 31 ≤ n then none else some n

/-- The loop over one line, `while (getline(ss, n, ','))`. -/
def readItems : Nat → IStream → List Char → List Int → Option (List Int)
  | 0, _, _, _ => none
  | fuel + 1, ss, n, data =>
    let (ss, n) := ss.getline ',' n
    if ss.fail then some data
    else (stoi n).bind fun item => readItems fuel ss n (data ++ [item])

/-- The loop of a scan, `while (!getline(fin, st).eof())`; `body` is what it does with `data`. -/
def scan {σ : Type} (body : σ → List Int → Option σ) : Nat → IStream → List Char → σ → Option σ
  | 0, _, _, _ => none
  | fuel + 1, fin, st, s =>
    let (fin, st) := fin.getline '\n' st
    if fin.eof then some s
    else (readItems fuel (.ofText st) [] []).bind fun data =>
      (body s data).bind (scan body fuel fin st)

/-- The body of the first scan. -/
def countLine (fp : FPgrowth) (data : List Int) : Option FPgrowth :=
  some (fp.countItemFrequency data)

/-- The body of the second scan. -/
def insertLine (fuel : Nat) (fp : FPgrowth) (t : FPTree) (data : List Int) : Option FPTree :=
  (fp.sortAndTrimTransaction data).bind fun trans => t.insertNodes fuel trans 1

/-- `main`, up to the result that it prints. Each scan opens the file again; what `st` has before is
lost with its first line. -/
def main (fuel : Nat) (minSupport : Rat) (file : List Char) : Option Patterns :=
  (scan countLine fuel (.ofText file) [] (.new minSupport)).bind fun fp =>
    let fp := fp.calculateMinSupportCount
    (scan (insertLine fuel fp) fuel (.ofText file) [] .empty).bind
      (findPattern fp.minSupportCount fuel)

def decimal (item : Int) : List Char := Nat.toDigits 10 item.toNat

def writeLine (trans : List Int) : List Char := IStream.separate ',' false (trans.map decimal)

/-- One transaction a line; `newline` is for the last one. -/
def writeFile (newline : Bool) (transactions : List (List Int)) : List Char :=
  IStream.separate '\n' newline (transactions.map writeLine)

/-- `body` with a record of what it is called with. -/
def traced {σ : Type} (body : σ → List Int → Option σ) :
    σ × List (List Int) → List Int → Option (σ × List (List Int))
  | (s, passed), data => (body s data).map fun s => (s, passed ++ [data])

theorem isDigit_decimal {item : Int} {c : Char} (h : c ∈ decimal item) : c.isDigit = true :=
  Nat.isDigit_of_mem_toDigits (by decide) (by decide) h

theorem decimal_ne_nil (item : Int) : decimal item ≠ [] := Nat.toDigits_ne_nil

theorem ne_of_isDigit {c d : Char} (hc : c.isDigit = true) (hd : d.isDigit = false) : c ≠ d := by
  intro he
  rw [he, hd] at hc
  cases hc

theorem not_isSpace {c : Char} (h : c.isDigit = true) : isSpace c = false := by
  obtain ⟨hlow, _⟩ := Char.isDigit_iff_toNat.mp h
  have htab : ¬ c ≤ '\r' := by
    rw [Char.le_def, UInt32.le_iff_toNat_le]
    intro hle
    exact absurd (hlow.trans hle) (by decide)
  simp [isSpace, htab, ne_of_isDigit h (show (' ' : Char).isDigit = false by decide)]

theorem takeSign_digit {c : Char} {str : List Char} (h : c.isDigit = true) :
    takeSign (c :: str) = (false, c :: str) := by
  unfold takeSign
  split
  next he => exact absurd (List.cons.inj he).1 (ne_of_isDigit h (by decide))
  next he => exact absurd (List.cons.inj he).1 (ne_of_isDigit h (by decide))
  next => rfl

theorem stoi_decimal {item : Int} (h0 : 0 ≤ item) (h : item < 2 ^ 31) :
    stoi (decimal item) = some item := by
  obtain ⟨c, cs, hc⟩ := List.exists_cons_of_ne_nil (decimal_ne_nil item)
  have hdigit : c.isDigit = true := isDigit_decimal (by rw [hc]; simp)
  have hspace : (decimal item).dropWhile isSpace = decimal item := by
    rw [hc, List.dropWhile_cons_of_neg (by simp [not_isSpace hdigit])]
  have hsign : takeSign (decimal item) = (false, decimal item) := by
    rw [hc]
    exact takeSign_digit hdigit
  have htake : (decimal item).takeWhile Char.isDigit = decimal item :=
    List.takeWhile_eq_self_iff.mpr fun c hc => isDigit_decimal hc
  have hvalue : (Nat.ofDigitChars 10 (decimal item) 0 : Int) = item := by
    rw [decimal, Nat.ofDigitChars_toDigits (by decide) (by decide)]
    omega
  have hrange : ¬(decimal item = [] ∨ item < -2 ^ 31 ∨ 2 ^ 31 ≤ item) := by
    have := decimal_ne_nil item
    simp only [this, false_or]
    omega
  simp only [stoi, hspace, hsign, htake, hvalue, Bool.false_eq_true, if_false, hrange]

section Written

variable {trans : List Int} {transactions : List (List Int)} {newline : Bool}

/-- A transaction that the file can have: not empty, of non-negative ints. -/
def Writable (trans : List Int) : Prop := trans ≠ [] ∧ ∀ item ∈ trans, 0 ≤ item ∧ item < 2 ^ 31

theorem not_mem_decimal {item : Int} {c : Char} (hc : c.isDigit = false) : c ∉ decimal item := by
  intro h
  exact ne_of_isDigit (isDigit_decimal h) hc rfl

theorem newline_not_mem (trans : List Int) : '\n' ∉ writeLine trans := by
  intro h
  obtain h | ⟨w, hw, h⟩ := IStream.mem_separate h
  · cases h
  · obtain ⟨item, _, rfl⟩ := List.mem_map.mp hw
    exact not_mem_decimal (by decide) h

theorem readItems_end {ss : IStream} (h : ss.eof = true) (n : List Char) (data : List Int)
    (k : Nat) :
    readItems (k + 1) ss n data = some data := by
  simp [readItems, ss.getline_eof h]

theorem readItems_writeLine (h : Writable trans) (k : Nat) (hk : trans.length < k) (n : List Char)
    (data : List Int) : readItems k (.ofText (writeLine trans)) n data = some (data ++ trans) := by
  obtain ⟨hne, hitems⟩ := h
  induction trans generalizing k n data with
  | nil => exact absurd rfl hne
  | cons item trans ih =>
    obtain ⟨k, rfl⟩ : ∃ j, k = j + 1 := ⟨k - 1, by omega⟩
    obtain ⟨h0, h31⟩ := hitems item (by simp)
    have hcomma : ',' ∉ decimal item := not_mem_decimal (by decide)
    cases trans with
    | nil =>
      obtain ⟨k, rfl⟩ : ∃ j, k = j + 1 := ⟨k - 1, by simp at hk; omega⟩
      have hline : writeLine [item] = decimal item := by simp [writeLine, IStream.separate]
      have hempty : (decimal item).isEmpty = false := by simp [decimal_ne_nil item]
      rw [hline, readItems, IStream.getline_last hcomma]
      simp only [hempty, Bool.false_eq_true, if_false, stoi_decimal h0 h31, Option.bind_some]
      exact readItems_end rfl _ _ k
    | cons item' trans =>
      have hline : writeLine (item :: item' :: trans) = decimal item ++ ',' :: writeLine
          (item' :: trans) := rfl
      rw [hline, readItems, IStream.getline_line hcomma]
      simp only [IStream.ofText, Bool.false_eq_true, if_false, stoi_decimal h0 h31,
        Option.bind_some]
      have hrest := ih k (by simpa using hk) (decimal item) (data ++ [item]) (by simp)
        fun x hx => hitems x (by simp [hx])
      rw [IStream.ofText] at hrest
      rw [hrest]
      simp

/-- What a scan gets from a file: without a newline at the end, the
last line is read but not used. -/
def records (newline : Bool) (transactions : List (List Int)) : List (List Int) :=
  if newline then transactions else transactions.dropLast

theorem records_eq_iff :
    records newline transactions = transactions ↔ newline = true ∨ transactions = [] := by
  cases newline with
  | true => simp [records]
  | false =>
    have hlen : transactions.dropLast = transactions → transactions = [] := by
      intro h
      have := congrArg List.length h
      rw [List.length_dropLast] at this
      exact List.length_eq_zero_iff.mp (by omega)
    constructor
    · intro h
      exact .inr (hlen h)
    · intro h
      obtain rfl := h.resolve_left (by decide)
      rfl

variable {σ : Type}

theorem scan_nil (body : σ → List Int → Option σ) (k : Nat) (st : List Char) (s : σ) :
    scan body (k + 1) (.ofText []) st s = some s := rfl

theorem scan_line (body : σ → List Int → Option σ) (h : Writable trans) {k : Nat}
    (hk : trans.length < k) (rest st : List Char) (s : σ) :
    scan body (k + 1) (.ofText (writeLine trans ++ '\n' :: rest)) st s =
      (body s trans).bind (scan body k (.ofText rest) (writeLine trans)) := by
  rw [scan, IStream.getline_line (newline_not_mem trans)]
  simp only [IStream.ofText, Bool.false_eq_true, if_false]
  have hread := readItems_writeLine h k hk [] []
  rw [IStream.ofText] at hread
  rw [hread]
  rfl

theorem scan_writeFile (newline : Bool) (h : ∀ trans ∈ transactions, Writable trans) :
    ∃ n, ∀ k, n ≤ k → ∀ (body : σ → List Int → Option σ) st s,
      scan body k (.ofText (writeFile newline transactions)) st s =
        (records newline transactions).foldlM body s := by
  induction transactions with
  | nil =>
    refine ⟨1, fun k hk body st s => ?_⟩
    obtain ⟨k, rfl⟩ : ∃ j, k = j + 1 := ⟨k - 1, by omega⟩
    cases newline <;> exact scan_nil body k st s
  | cons trans transactions ih =>
    obtain ⟨n, ih⟩ := ih fun trans ht => h trans (by simp [ht])
    have htrans := h trans (by simp)
    refine ⟨max n (trans.length + 1) + 1, fun k hk body st s => ?_⟩
    obtain ⟨k, rfl⟩ : ∃ j, k = j + 1 := ⟨k - 1, by omega⟩
    cases transactions with
    | cons trans' transactions =>
      have hfile : writeFile newline (trans :: trans' :: transactions) =
          writeLine trans ++ '\n' :: writeFile newline (trans' :: transactions) := rfl
      have hrecords : records newline (trans :: trans' :: transactions) =
          trans :: records newline (trans' :: transactions) := by
        cases newline <;> rfl
      rw [hfile, scan_line body htrans (by omega), hrecords, List.foldlM_cons]
      congr 1
      funext s'
      exact ih k (by omega) body (writeLine trans) s'
    | nil =>
      cases newline with
      | true =>
        have hfile : writeFile true [trans] = writeLine trans ++ '\n' :: [] := rfl
        rw [hfile, scan_line body htrans (by omega)]
        change _ = (body s trans).bind some
        congr 1
        funext s'
        exact ih k (by omega) body (writeLine trans) s'
      | false =>
        -- The end comes before a newline, so `eof` holds although there was a line.
        have hfile : writeFile false [trans] = writeLine trans := by
          simp [writeFile, IStream.separate]
        rw [hfile, scan, IStream.getline_last (newline_not_mem trans)]
        rfl

end Written

theorem foldlM_traced {σ : Type} (body : σ → List Int → Option σ) (l passed : List (List Int))
    (s : σ) :
    l.foldlM (traced body) (s, passed) = (l.foldlM body s).map fun s => (s, passed ++ l) := by
  induction l generalizing s passed with
  | nil => simp
  | cons data l ih =>
    rw [List.foldlM_cons, List.foldlM_cons]
    cases hs : body s data with
    | none => simp [traced, hs]
    | some s' =>
      have := ih (passed ++ [data]) s'
      simp only [List.append_assoc, List.singleton_append] at this
      simpa [traced, hs] using this

theorem scan_converges {σ : Type} {transactions : List (List Int)} {newline : Bool}
    (h : ∀ trans ∈ transactions, Writable trans) {body : Nat → σ → List Int → Option σ} {s s' : σ}
    (hloop : Converges (fun k => (records newline transactions).foldlM (body k) s) s')
    (st : List Char) :
    Converges (fun k => scan (body k) k (.ofText (writeFile newline transactions)) st s) s' := by
  obtain ⟨n, hn⟩ := scan_writeFile (σ := σ) newline h
  obtain ⟨m, hm⟩ := hloop
  refine ⟨max n m, fun k hk => ?_⟩
  change scan (body k) k _ st s = some s'
  rw [hn k (by omega)]
  exact hm k (by omega)

theorem traced_converges {σ : Type} {body : Nat → σ → List Int → Option σ} {l : List (List Int)}
    {s s' : σ} (h : Converges (fun k => l.foldlM (body k) s) s') :
    Converges (fun k => l.foldlM (traced (body k)) (s, [])) (s', l) := by
  simp only [foldlM_traced, List.nil_append]
  exact h.map fun s => (s, l)

theorem countLine_foldlM (l : List (List Int)) (fp : FPgrowth) :
    l.foldlM countLine fp = some (l.foldl FPgrowth.countItemFrequency fp) := by
  induction l generalizing fp with
  | nil => rfl
  | cons data l ih => exact ih (fp.countItemFrequency data)

/-- The second scan comes to its end, whatever the order and the repetitions in the transactions. -/
theorem insertLine_foldlM (fp : FPgrowth) {l : List (List Int)}
    (h : ∀ trans ∈ l, ∀ x ∈ trans, x ∈ fp.itemFrequency ∧ x ≠ -1) :
    ∃ t, Converges (fun k => l.foldlM (insertLine k fp) .empty) t := by
  have hloop := Converges.foldlM l (fun k => insertLine k fp) .empty
    (fun _ t => ∃ db, Represents t db) ⟨[], Represents.empty⟩ ?_
  · obtain ⟨t, ht, _⟩ := hloop
    exact ⟨t, ht⟩
  · intro done trans rest t hl hI
    obtain ⟨db, hdb⟩ := hI
    have htrans : trans ∈ l := by simp [hl]
    have hcontains : trans.all fp.itemFrequency.contains = true := by
      rw [List.all_eq_true]
      exact fun x hx => (h trans htrans x hx).1
    obtain ⟨out, hout⟩ : ∃ out, fp.sortAndTrimTransaction trans = some out :=
      ⟨_, by rw [FPgrowth.sortAndTrimTransaction, if_pos hcontains]⟩
    have hmem : ∀ x ∈ out, x ≠ -1 := by
      intro x hx
      rw [FPgrowth.sortAndTrimTransaction, if_pos hcontains] at hout
      obtain rfl := Option.some.inj hout
      exact (h trans htrans x (List.mem_mergeSort.mp ((List.dropWhile_sublist _).mem hx))).2
    obtain ⟨t', hconv, ht'⟩ := hdb.insertNodes hmem 1
    refine ⟨t', ?_, _, ht'⟩
    simpa only [insertLine, hout, Option.bind_some] using hconv

theorem mem_records {newline : Bool} {transactions : List (List Int)} {trans : List Int}
    (h : trans ∈ records newline transactions) : trans ∈ transactions := by
  rw [records] at h
  split at h
  · exact h
  · exact List.mem_of_mem_dropLast h

/-- The two scans of `main`, with what they pass to `CountItemFrequency` and to
`SortAndTrimTransaction`. -/
theorem scans_exact {transactions : List (List Int)} (h : ∀ trans ∈ transactions, Writable trans)
    (newline : Bool) (minSupport : Rat) :
    ∃ fp t passed₁ passed₂,
      Converges (fun k => scan (traced countLine) k (.ofText (writeFile newline transactions)) []
        (.new minSupport, [])) (fp, passed₁) ∧
      Converges (fun k => scan (traced (insertLine k fp.calculateMinSupportCount)) k
        (.ofText (writeFile newline transactions)) [] (.empty, [])) (t, passed₂) ∧
      (passed₁ = transactions ↔ newline = true ∨ transactions = []) ∧
      (passed₂ = transactions ↔ newline = true ∨ transactions = []) := by
  have hfirst := traced_converges (Converges.of_eq fun _ =>
    countLine_foldlM (records newline transactions) (.new minSupport))
  obtain ⟨t, ht⟩ := insertLine_foldlM
    ((records newline transactions).foldl FPgrowth.countItemFrequency
      (.new minSupport)).calculateMinSupportCount
    (l := records newline transactions) fun trans htrans x hx => by
      obtain ⟨_, hitems⟩ := h trans (mem_records htrans)
      have := hitems x hx
      exact ⟨(FPgrowth.mem_count x).mpr (.inr ⟨trans, htrans, hx⟩), by omega⟩
  exact ⟨_, t, _, _, scan_converges h hfirst [], scan_converges h (traced_converges ht) [],
    records_eq_iff, records_eq_iff⟩

/-- A file of one line with a newline is read. -/
theorem scans_exact_newline :
    ∃ fp, Converges (fun k => scan (traced countLine) k (.ofText ['1', '0', ',', '3', '\n']) []
      (.new 1, [])) (fp, [[10, 3]]) := by
  obtain ⟨fp, t, passed₁, passed₂, hfirst, _, hpassed, _⟩ :=
    @scans_exact [[10, 3]] (by simp [Writable]) true 1
  rw [hpassed.mpr (.inl rfl)] at hfirst
  exact ⟨fp, hfirst⟩

/-- Without the newline, its transaction is lost in both scans. -/
theorem scans_lose_last :
    writeFile false [[10, 3]] = ['1', '0', ',', '3'] ∧
    Converges (fun k => scan (traced countLine) k (.ofText ['1', '0', ',', '3']) [] (.new 1, []))
      (.new 1, []) ∧
    Converges (fun k => scan (traced (insertLine k (FPgrowth.new 1).calculateMinSupportCount)) k
      (.ofText ['1', '0', ',', '3']) [] (.empty, [])) (.empty, []) := by
  refine ⟨by decide, ⟨1, fun k hk => ?_⟩, ⟨1, fun k hk => ?_⟩⟩
  all_goals
    obtain ⟨k, rfl⟩ : ∃ j, k = j + 1 := ⟨k - 1, by omega⟩
    rfl

/-- With a newline after every line, `main` mines the transactions of the file. -/
theorem main_writeFile {transactions : List (List Int)} (h : ∀ trans ∈ transactions, Writable trans)
    (minSupport : Rat) : ∃ n, ∀ k, n ≤ k →
      main k minSupport (writeFile true transactions) = FPgrowth.run k minSupport transactions := by
  obtain ⟨n, hn⟩ := scan_writeFile (σ := FPgrowth) true h
  obtain ⟨m, hm⟩ := scan_writeFile (σ := FPTree) true h
  refine ⟨max n m, fun k hk => ?_⟩
  rw [main, hn k (by omega), countLine_foldlM, Option.bind_some]
  dsimp only
  rw [hm k (by omega)]
  rfl

end NctuCourses.FpGrowth
