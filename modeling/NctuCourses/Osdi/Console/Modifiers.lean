import Mathlib.Logic.Function.Iterate
import NctuCourses.Osdi.Console.Kbd

namespace NctuCourses.Osdi.Console

/-- A key by its scancode. The break code of a plain key is not the prefix byte. -/
structure Key where
  ext : Bool
  code : Byte
  make_code : code &&& 0x80 = 0
  plain : ext = false → code ≠ 0x60
  deriving DecidableEq

/-- The index of a key in the tables. -/
def Key.data (k : Key) : Byte := if k.ext then k.code ||| 0x80 else k.code

inductive Event where
  | make (k : Key)
  | brk (k : Key)
  deriving DecidableEq

/-- The bytes that the keyboard sends. -/
def Event.bytes : Event → List Byte
  | .make k => if k.ext then [0xE0, k.code] else [k.code]
  | .brk k => if k.ext then [0xE0, k.code ||| 0x80] else [k.code ||| 0x80]

/-- The keyboard and the decoder after one call for each event. -/
def decoded (es : List Event) : Kbd :=
  (fun s => (kbdProcData s).1)^[es.length] (.initial (es.flatMap Event.bytes))

/-- The keys held once `k` is pressed, for the first time or by repetition. -/
def press (held : List Key) (k : Key) : List Key := if k ∈ held then held else k :: held

def release (held : List Key) (k : Key) : List Key := held.filter (· ≠ k)

/-- No two keys with the same modifier are held together. -/
def Apart (held : List Key) : Prop :=
  ∀ k ∈ held, ∀ k' ∈ held, shiftcode k.data ≠ 0 → shiftcode k'.data = shiftcode k.data → k' = k

instance (held : List Key) : Decidable (Apart held) :=
  inferInstanceAs (Decidable (∀ k ∈ held, ∀ k' ∈ held, _ → _ → _))

/-- What a keyboard sends that holds the keys `held` at the start and no modifier in the end. -/
def Sent : List Key → List Event → Prop
  | held, [] => ∀ k ∈ held, shiftcode k.data = 0
  | held, .make k :: es => Apart (press held k) ∧ Sent (press held k) es
  | held, .brk k :: es => k ∈ held ∧ Sent (release held k) es

instance Sent.decidable : (held : List Key) → (es : List Event) → Decidable (Sent held es)
  | held, [] => inferInstanceAs (Decidable (∀ k ∈ held, shiftcode k.data = 0))
  | held, .make k :: es => @instDecidableAnd _ _ _ (Sent.decidable (press held k) es)
  | held, .brk k :: es => @instDecidableAnd _ _ _ (Sent.decidable (release held k) es)

/-- Some key with the modifier is held. -/
def holds (m : Byte) (held : List Key) : Bool := held.any fun k => shiftcode k.data = m

/-- The index of `charcode` for the keys held. -/
def heldIndex (held : List Key) : Word :=
  (if holds Mod.ctl held then Mod.ctl else 0) ||| (if holds Mod.shift held then Mod.shift else 0)

/-- The look-ups that the key presses ask for. -/
def presses : List Key → List Event → List (Word × Byte)
  | _, [] => []
  | held, .make k :: es => (heldIndex (press held k), k.data) :: presses (press held k) es
  | held, .brk k :: es => presses (release held k) es

def leftCtl : Key := ⟨false, 0x1D, by decide, by decide⟩
def rightCtl : Key := ⟨true, 0x1D, by decide, by decide⟩
def leftAlt : Key := ⟨false, 0x38, by decide, by decide⟩
def rightAlt : Key := ⟨true, 0x38, by decide, by decide⟩

def nextPress : List Event → Option Key
  | [] => none
  | .make k :: _ => some k
  | .brk _ :: es => nextPress es

/-- After the right Ctrl key is released, a Ctrl key is pressed next. After the right Alt key is
released, the left one is pressed at some time. -/
def Unstuck : List Event → Prop
  | [] => True
  | .make _ :: es => Unstuck es
  | .brk k :: es =>
    (k = rightCtl → nextPress es = some leftCtl ∨ nextPress es = some rightCtl) ∧
    (k = rightAlt → .make leftAlt ∈ es) ∧ Unstuck es

instance Unstuck.decidable : (es : List Event) → Decidable (Unstuck es)
  | [] => .isTrue trivial
  | .make _ :: es => Unstuck.decidable es
  | .brk _ :: es => @instDecidableAnd _ _ _ (@instDecidableAnd _ _ _ (Unstuck.decidable es))

section Decode

/-- What an event does to `shift`. -/
def Event.shift : Event → Word → Word
  | .make k, shift => pressShift k.data shift
  | .brk k, shift => if k.ext then shift else releaseShift k.code shift

/-- The look-ups of the decoder. -/
def lookups : Word → List Event → List (Word × Byte)
  | _, [] => []
  | shift, .make k :: es =>
    (charIndex (pressShift k.data shift), k.data) :: lookups (pressShift k.data shift) es
  | shift, .brk k :: es => lookups ((Event.brk k).shift shift) es

theorem make_byte : ∀ code : Byte, code &&& 0x80 = 0 → code ≠ 0xE0 := by decide +kernel

theorem break_byte : ∀ code : Byte, code &&& 0x80 = 0 →
    (code ||| 0x80) &&& 0x80 ≠ 0 ∧ (code ||| 0x80) &&& 0x7F = code ∧
    (code ≠ 0x60 → code ||| 0x80 ≠ 0xE0) := by
  decide +kernel

theorem kbdProcData_make (k : Key) (rest : List Byte) (last : Byte) (shift : Word)
    (ls : List (Word × Byte)) (n : Nat) :
    kbdProcData ⟨⟨(Event.make k).bytes ++ rest, last⟩, shift, ls, n⟩ =
      keyPressed k.data ⟨⟨rest, k.code⟩, shift, ls, n⟩ := by
  obtain ⟨ext, code, hmake, hplain⟩ := k
  cases ext with
  | true => exact (kbdProcData_extended code rest last shift ls n).trans (if_neg
      (not_not.mpr hmake))
  | false =>
    exact (kbdProcData_plain rest last shift ls n (make_byte code hmake)).trans
      (if_neg (not_not.mpr hmake))

theorem kbdProcData_brk (k : Key) (rest : List Byte) (last : Byte) (shift : Word)
    (ls : List (Word × Byte)) (n : Nat) :
    kbdProcData ⟨⟨(Event.brk k).bytes ++ rest, last⟩, shift, ls, n⟩ =
      (⟨⟨rest, k.code ||| 0x80⟩, (Event.brk k).shift shift, ls, n⟩, 0) := by
  obtain ⟨ext, code, hmake, hplain⟩ := k
  obtain ⟨hbreak, hcode, he0⟩ := break_byte code hmake
  cases ext with
  | true => exact (kbdProcData_extended (code ||| 0x80) rest last shift ls n).trans (if_pos hbreak)
  | false =>
    have h := (kbdProcData_plain rest last shift ls n (he0 (hplain rfl))).trans (if_pos hbreak)
    rw [hcode] at h
    exact h

theorem iterate_kbdProcData (es : List Event) (last : Byte) (shift : Word) (ls : List (Word × Byte))
    (n : Nat) :
    let s := (fun s => (kbdProcData s).1)^[es.length] ⟨⟨es.flatMap Event.bytes, last⟩, shift, ls, n⟩
    s.port.queue = [] ∧ s.shift = es.foldl (fun shift e => e.shift shift) shift ∧
      s.lookups = ls ++ lookups shift es := by
  induction es generalizing last shift ls n with
  | nil => exact ⟨rfl, rfl, (List.append_nil ls).symm⟩
  | cons e es ih =>
    rw [List.flatMap_cons, List.length_cons, Function.iterate_succ_apply]
    cases e with
    | make k =>
      rw [kbdProcData_make]
      obtain ⟨hqueue, hshift, hls⟩ := ih k.code (pressShift k.data shift)
        (ls ++ [(charIndex (pressShift k.data shift), k.data)]) _
      refine ⟨hqueue, hshift, hls.trans ?_⟩
      rw [List.append_assoc]
      rfl
    | brk k =>
      rw [kbdProcData_brk]
      exact ih _ _ _ _

theorem decoded_eq (es : List Event) :
    (decoded es).port.queue = [] ∧ (decoded es).shift = es.foldl (fun shift e => e.shift shift) 0 ∧
      (decoded es).lookups = lookups 0 es :=
  iterate_kbdProcData es 0 0 [] 0

end Decode

section Bits

/-- What an event does to the bit of a modifier. -/
def stepBit (m : Byte) : Event → Bool → Bool
  | .make k, b => b || shiftcode k.data = m
  | .brk k, b => if k.ext then b else b && !decide (shiftcode k.data = m)

theorem shiftcode_bit : ∀ (data : Byte) (i : Fin 3),
    (shiftcode data).getLsbD i = decide (shiftcode data = 1#8 <<< i.val) := by decide +kernel

theorem togglecode_bit : ∀ (data : Byte) (i : Fin 3), (togglecode data).getLsbD i = false := by
  decide +kernel

theorem Event.shift_bit (e : Event) (shift : Word) (i : Fin 3) :
    (e.shift shift).getLsbD i = stepBit (1#8 <<< i.val) e (shift.getLsbD i) := by
  have hi : i.val < 32 := by omega
  cases e with
  | make k =>
    simp only [Event.shift, pressShift, stepBit, BitVec.getLsbD_xor, BitVec.getLsbD_or,
      BitVec.getLsbD_setWidth, hi, decide_true, Bool.true_and, shiftcode_bit,
      togglecode_bit, Bool.xor_false]
  | brk k =>
    by_cases hk : k.ext = true
    · simp only [Event.shift, stepBit, if_pos hk]
    · have hdata : k.data = k.code := if_neg hk
      simp only [Event.shift, stepBit, if_neg hk, releaseShift, BitVec.getLsbD_and,
        BitVec.getLsbD_not, BitVec.getLsbD_setWidth, hi, decide_true, Bool.true_and,
        shiftcode_bit, hdata]

theorem charIndex_eq_iff (shift : Word) (held : List Key) : charIndex shift = heldIndex held ↔
    shift.getLsbD 0 = holds Mod.shift held ∧ shift.getLsbD 1 = holds Mod.ctl held := by
  have hand : (charIndex shift).toNat = shift.toNat % 4 :=
    Nat.and_two_pow_sub_one_eq_mod shift.toNat 2
  rw [← BitVec.toNat_inj, hand, BitVec.getLsbD, BitVec.getLsbD, Nat.testBit_eq_decide_div_mod_eq,
    Nat.testBit_eq_decide_div_mod_eq, heldIndex]
  cases holds Mod.shift held <;> cases holds Mod.ctl held <;> simp [Mod.shift, Mod.ctl] <;> omega

theorem modifiers_eq_zero_iff (shift : Word) : shift &&& (Mod.shift ||| Mod.ctl ||| Mod.alt) = 0 ↔
    shift.getLsbD 0 = false ∧ shift.getLsbD 1 = false ∧ shift.getLsbD 2 = false := by
  have hand : (shift &&& (Mod.shift ||| Mod.ctl ||| Mod.alt)).toNat = shift.toNat % 8 :=
    Nat.and_two_pow_sub_one_eq_mod shift.toNat 3
  rw [← BitVec.toNat_inj, hand, BitVec.getLsbD, BitVec.getLsbD, BitVec.getLsbD,
    Nat.testBit_eq_decide_div_mod_eq, Nat.testBit_eq_decide_div_mod_eq,
    Nat.testBit_eq_decide_div_mod_eq]
  simp
  omega

/-- The bit of a modifier is the one held at every key press, and clear in the end. -/
def TracksBit (m : Byte) : Bool → List Key → List Event → Prop
  | b, _, [] => b = false
  | b, held, .make k :: es =>
    stepBit m (.make k) b = holds m (press held k) ∧ TracksBit m (stepBit m (.make k) b)
      (press held k) es
  | b, held, .brk k :: es => TracksBit m (stepBit m (.brk k) b) (release held k) es

theorem lookups_iff (shift : Word) (held : List Key) (es : List Event) :
    (lookups shift es = presses held es ∧
      es.foldl (fun shift e => e.shift shift) shift &&& (Mod.shift ||| Mod.ctl ||| Mod.alt) = 0) ↔
    TracksBit Mod.shift (shift.getLsbD 0) held es ∧ TracksBit Mod.ctl (shift.getLsbD 1) held es ∧
      es.foldl (fun b e => stepBit Mod.alt e b) (shift.getLsbD 2) = false := by
  induction es generalizing shift held with
  | nil =>
    rw [modifiers_eq_zero_iff]
    exact and_iff_right rfl
  | cons e es ih =>
    have h0 : (e.shift shift).getLsbD 0 = stepBit Mod.shift e (shift.getLsbD 0) :=
      e.shift_bit shift 0
    have h1 : (e.shift shift).getLsbD 1 = stepBit Mod.ctl e (shift.getLsbD 1) := e.shift_bit shift 1
    have h2 : (e.shift shift).getLsbD 2 = stepBit Mod.alt e (shift.getLsbD 2) := e.shift_bit shift 2
    cases e with
    | make k =>
      have hnext := ih ((Event.make k).shift shift) (press held k)
      have hindex := charIndex_eq_iff ((Event.make k).shift shift) (press held k)
      rw [h0, h1, h2] at hnext
      rw [h0, h1] at hindex
      constructor
      · intro ⟨hls, hend⟩
        obtain ⟨hhead, htail⟩ := List.cons.inj hls
        obtain ⟨hs, hc⟩ := hindex.mp (Prod.mk.inj hhead).1
        obtain ⟨ht0, ht1, ht2⟩ := hnext.mp ⟨htail, hend⟩
        exact ⟨⟨hs, ht0⟩, ⟨hc, ht1⟩, ht2⟩
      · intro ⟨⟨hs, ht0⟩, ⟨hc, ht1⟩, ht2⟩
        obtain ⟨htail, hend⟩ := hnext.mpr ⟨ht0, ht1, ht2⟩
        exact ⟨congrArg₂ List.cons (Prod.ext (hindex.mpr ⟨hs, hc⟩) rfl) htail, hend⟩
    | brk k =>
      have hnext := ih ((Event.brk k).shift shift) (release held k)
      rw [h0, h1, h2] at hnext
      exact hnext

end Bits

section Held

variable {m : Byte} {held : List Key} {k : Key}

theorem holds_iff : holds m held = true ↔ ∃ k ∈ held, shiftcode k.data = m := by
  simp [holds]

theorem mem_press {k' : Key} : k' ∈ press held k ↔ k' = k ∨ k' ∈ held := by
  rw [press]
  split_ifs with hk
  · exact ⟨.inr, fun h => h.elim (fun h => h ▸ hk) id⟩
  · exact List.mem_cons

theorem holds_press : holds m (press held k) = (holds m held || shiftcode k.data = m) := by
  rw [Bool.eq_iff_iff, Bool.or_eq_true, decide_eq_true_eq, holds_iff, holds_iff]
  simp only [mem_press, or_and_right, exists_or, exists_eq_left]
  exact or_comm

theorem holds_press_self (h : shiftcode k.data = m) : holds m (press held k) = true := by
  simp [holds_press, h]

theorem holds_press_of_ne (h : shiftcode k.data ≠ m) : holds m (press held k) = holds m held := by
  simp [holds_press, h]

theorem holds_release_of_ne (h : shiftcode k.data ≠ m) :
    holds m (release held k) = holds m held := by
  rw [Bool.eq_iff_iff, holds_iff, holds_iff]
  constructor
  · intro ⟨k', hk', hm⟩
    exact ⟨k', List.mem_of_mem_filter hk', hm⟩
  · intro ⟨k', hk', hm⟩
    refine ⟨k', List.mem_filter.mpr ⟨hk', decide_eq_true ?_⟩, hm⟩
    rintro rfl
    exact h hm

theorem Apart.holds_release (ha : Apart held) (hk : k ∈ held) (hm : m ≠ 0)
    (h : shiftcode k.data = m) :
    holds m (release held k) = false := by
  rw [Bool.eq_false_iff, ne_eq, holds_iff]
  intro ⟨k', hk', hm'⟩
  obtain ⟨hmem, hne⟩ := List.mem_filter.mp hk'
  exact of_decide_eq_true hne (ha k hk k' hmem (h.symm ▸ hm) (hm'.trans h.symm))

theorem Apart.release (ha : Apart held) : Apart (release held k) := by
  intro k₁ h₁ k₂ h₂
  exact ha k₁ (List.mem_of_mem_filter h₁) k₂ (List.mem_of_mem_filter h₂)

theorem holds_of_sent_nil (hs : Sent held []) (hm : m ≠ 0) : holds m held = false := by
  rw [Bool.eq_false_iff, ne_eq, holds_iff]
  intro ⟨k, hk, h⟩
  exact hm (h.symm.trans (hs k hk))

end Held

section StepBit

variable {m : Byte} {k : Key} (b : Bool)

theorem stepBit_make (h : shiftcode k.data = m) : stepBit m (.make k) b = true := by
  simp [stepBit, h]

theorem stepBit_make_of_ne (h : shiftcode k.data ≠ m) : stepBit m (.make k) b = b := by
  simp [stepBit, h]

theorem stepBit_brk (h : shiftcode k.data = m) : stepBit m (.brk k) b = (k.ext && b) := by
  cases hk : k.ext with
  | true => simp [stepBit, hk]
  | false => simp [stepBit, hk, h]

theorem stepBit_brk_of_ne (h : shiftcode k.data ≠ m) : stepBit m (.brk k) b = b := by
  simp [stepBit, h]

end StepBit

section Sticky

variable {m : Byte}

/-- The next key pressed has the modifier. -/
def NextCarries (m : Byte) (es : List Event) : Prop :=
  ∃ k, nextPress es = some k ∧ shiftcode k.data = m

/-- After each release that the decoder ignores, a key with the modifier is pressed next. -/
def NextAfter (m : Byte) : List Event → Prop
  | [] => True
  | .make _ :: es => NextAfter m es
  | .brk k :: es => (k.ext = true → shiftcode k.data = m → NextCarries m es) ∧ NextAfter m es

/-- A plain key with the modifier is pressed. -/
def PlainPressed (m : Byte) (es : List Event) : Prop :=
  ∃ k, .make k ∈ es ∧ k.ext = false ∧ shiftcode k.data = m

/-- After each release that the decoder ignores, a plain key with the modifier is pressed. -/
def PlainAfter (m : Byte) : List Event → Prop
  | [] => True
  | .make _ :: es => PlainAfter m es
  | .brk k :: es => (k.ext = true → shiftcode k.data = m → PlainPressed m es) ∧ PlainAfter m es

/-- The bit is set when a key with the modifier is held, and may be left over from one that was. -/
theorem tracksBit_iff (hm : m ≠ 0) {held : List Key} {es : List Event} (ha : Apart held)
    (hs : Sent held es) {b : Bool} (hb : holds m held = true → b = true) :
    TracksBit m b held es ↔ NextAfter m es ∧ (b = true → holds m held = true ∨
      NextCarries m es) := by
  induction es generalizing held b with
  | nil =>
    simp [TracksBit, NextAfter, holds_of_sent_nil hs hm, NextCarries, nextPress]
  | cons e es ih =>
    cases e with
    | make k =>
      by_cases hk : shiftcode k.data = m
      · have hbit := stepBit_make b hk
        have hheld : holds m (press held k) = true := holds_press_self hk
        have hnext := ih hs.1 hs.2 fun _ => hbit
        constructor
        · intro h
          exact ⟨(hnext.mp h.2).1, fun _ => .inr ⟨k, rfl, hk⟩⟩
        · intro h
          exact ⟨hbit.trans hheld.symm, hnext.mpr ⟨h.1, fun _ => .inl hheld⟩⟩
      · have hbit := stepBit_make_of_ne b hk
        have hheld : holds m (press held k) = holds m held := holds_press_of_ne hk
        have hcarries : ¬NextCarries m (.make k :: es) := by
          intro ⟨k', hk', hm'⟩
          exact hk (Option.some.inj hk' ▸ hm')
        rw [TracksBit, ih hs.1 hs.2 (by rw [hbit, hheld]; exact hb), hbit, hheld]
        constructor
        · intro ⟨heq, hafter, _⟩
          exact ⟨hafter, fun h => .inl (heq.symm.trans h)⟩
        · intro ⟨hafter, hleft⟩
          have hh : b = true → holds m held = true := fun h => (hleft h).resolve_right hcarries
          exact ⟨Bool.eq_iff_iff.mpr ⟨hh, hb⟩, hafter, fun h => .inl (hh h)⟩
    | brk k =>
      by_cases hk : shiftcode k.data = m
      · have hheld : holds m held = true := holds_iff.mpr ⟨k, hs.1, hk⟩
        have hheld' : holds m (release held k) = false := ha.holds_release hs.1 hm hk
        rw [TracksBit, ih ha.release hs.2 (by rw [hheld']; exact nofun), hheld', hheld]
        rw [stepBit_brk b hk, hb hheld, Bool.and_true]
        simp [NextAfter, hk, and_comm]
      · have hbit := stepBit_brk_of_ne b hk
        have hheld : holds m (release held k) = holds m held := holds_release_of_ne hk
        rw [TracksBit, ih ha.release hs.2 (by rw [hbit, hheld]; exact hb), hbit, hheld]
        simp [NextAfter, hk, NextCarries, nextPress]

/-- A modifier that is held is released, by a plain key or with a plain key to follow. -/
theorem plainPressed_of_held (hm : m ≠ 0) {held : List Key} {es : List Event} (hs : Sent held es)
    {k : Key} (hk : k ∈ held) (hext : k.ext = true) (hcode : shiftcode k.data = m)
    (hafter : PlainAfter m es) :
    PlainPressed m es := by
  induction es generalizing held with
  | nil => exact absurd (hcode.symm.trans (hs k hk)) hm
  | cons e es ih =>
    have htail : PlainPressed m es → PlainPressed m (e :: es) := by
      intro ⟨k', hk', h⟩
      exact ⟨k', List.mem_cons_of_mem _ hk', h⟩
    cases e with
    | make k' => exact htail (ih hs.2 (mem_press.mpr (.inr hk)) hafter)
    | brk k' =>
      by_cases hkk : k = k'
      · subst hkk
        exact htail (hafter.1 hext hcode)
      · exact htail (ih hs.2 (List.mem_filter.mpr ⟨hk, decide_eq_true hkk⟩) hafter.2)

/-- The bit is clear in the end if what is left over of it is cleared by a plain key. -/
theorem clearsBit_iff (hm : m ≠ 0) {held : List Key} {es : List Event} (ha : Apart held)
    (hs : Sent held es) {b : Bool} (hb : holds m held = true → b = true) :
    es.foldl (fun b e => stepBit m e b) b = false ↔
      PlainAfter m es ∧ (b = true → holds m held = true ∨ PlainPressed m es) := by
  induction es generalizing held b with
  | nil => simp [PlainAfter, holds_of_sent_nil hs hm, PlainPressed]
  | cons e es ih =>
    rw [List.foldl_cons]
    cases e with
    | make k =>
      have hpressed : PlainPressed m (.make k :: es) ↔ k.ext = false ∧ shiftcode k.data = m ∨
          PlainPressed m es := by
        simp [PlainPressed, or_and_right, exists_or]
      by_cases hk : shiftcode k.data = m
      · have hbit := stepBit_make b hk
        have hheld : holds m (press held k) = true := holds_press_self hk
        rw [ih hs.1 hs.2 fun _ => hbit]
        refine and_congr_right fun hafter => iff_of_true (fun _ => .inl hheld) fun _ =>
          .inr (hpressed.mpr ?_)
        by_cases hext : k.ext = true
        · exact .inr (plainPressed_of_held hm hs.2 (mem_press.mpr (.inl rfl)) hext hk hafter)
        · exact .inl ⟨eq_false_of_ne_true hext, hk⟩
      · have hbit := stepBit_make_of_ne b hk
        have hheld : holds m (press held k) = holds m held := holds_press_of_ne hk
        rw [ih hs.1 hs.2 (by rw [hbit, hheld]; exact hb), hbit, hheld, hpressed]
        simp [PlainAfter, hk]
    | brk k =>
      have hpressed : PlainPressed m (.brk k :: es) ↔ PlainPressed m es := by simp [PlainPressed]
      by_cases hk : shiftcode k.data = m
      · have hheld : holds m held = true := holds_iff.mpr ⟨k, hs.1, hk⟩
        have hheld' : holds m (release held k) = false := ha.holds_release hs.1 hm hk
        rw [ih ha.release hs.2 (by rw [hheld']; exact nofun), hheld', hheld]
        rw [stepBit_brk b hk, hb hheld, Bool.and_true]
        simp [PlainAfter, hk, and_comm]
      · have hbit := stepBit_brk_of_ne b hk
        have hheld : holds m (release held k) = holds m held := holds_release_of_ne hk
        rw [ih ha.release hs.2 (by rw [hbit, hheld]; exact hb), hbit, hheld, hpressed]
        simp [PlainAfter, hk]

end Sticky

section Keys

theorem ctl_iff (k : Key) : shiftcode k.data = Mod.ctl ↔ k = leftCtl ∨ k = rightCtl := by
  have h : ∀ (ext : Bool) (code : Byte), code &&& 0x80 = 0 →
      (shiftcode (if ext then code ||| 0x80 else code) = Mod.ctl ↔
        ext = false ∧ code = 0x1D ∨ ext = true ∧ code = 0x1D) := by decide +kernel
  obtain ⟨ext, code, hmake, hplain⟩ := k
  simpa [leftCtl, rightCtl, Key.data] using h ext code hmake

theorem alt_iff (k : Key) : shiftcode k.data = Mod.alt ↔ k = leftAlt ∨ k = rightAlt := by
  have h : ∀ (ext : Bool) (code : Byte), code &&& 0x80 = 0 →
      (shiftcode (if ext then code ||| 0x80 else code) = Mod.alt ↔
        ext = false ∧ code = 0x38 ∨ ext = true ∧ code = 0x38) := by decide +kernel
  obtain ⟨ext, code, hmake, hplain⟩ := k
  simpa [leftAlt, rightAlt, Key.data] using h ext code hmake

theorem eq_right_iff {m : Byte} {k l r : Key} (hm : shiftcode k.data = m ↔ k = l ∨ k = r)
    (hl : l.ext = false) (hr : r.ext = true) : k = r ↔ k.ext = true ∧ shiftcode k.data = m := by
  rw [hm]
  constructor
  · rintro rfl
    exact ⟨hr, .inr rfl⟩
  · rintro ⟨hext, rfl | rfl⟩
    · cases hl.symm.trans hext
    · rfl

theorem ext_shift (k : Key) (hext : k.ext = true) : shiftcode k.data ≠ Mod.shift := by
  have h : ∀ code : Byte, code &&& 0x80 = 0 → shiftcode (code ||| 0x80) ≠ Mod.shift := by
    decide +kernel
  rw [Key.data, if_pos hext]
  exact h k.code k.make_code

theorem nextAfter_shift (es : List Event) : NextAfter Mod.shift es := by
  induction es with
  | nil => trivial
  | cons e es ih =>
    cases e with
    | make k => exact ih
    | brk k => exact ⟨fun hext h => absurd h (ext_shift k hext), ih⟩

theorem nextCarries_ctl (es : List Event) :
    NextCarries Mod.ctl es ↔ nextPress es = some leftCtl ∨ nextPress es = some rightCtl := by
  simp only [NextCarries, ctl_iff, and_or_left, exists_or, exists_eq_right]

theorem plainPressed_alt (es : List Event) : PlainPressed Mod.alt es ↔ .make leftAlt ∈ es := by
  constructor
  · intro ⟨k, hk, hext, halt⟩
    rcases (alt_iff k).mp halt with rfl | rfl
    · exact hk
    · cases hext
  · intro h
    exact ⟨leftAlt, h, rfl, (alt_iff _).mpr (.inl rfl)⟩

theorem unstuck_iff (es : List Event) :
    Unstuck es ↔ NextAfter Mod.ctl es ∧ PlainAfter Mod.alt es := by
  induction es with
  | nil => exact iff_of_true trivial ⟨trivial, trivial⟩
  | cons e es ih =>
    cases e with
    | make k => exact ih
    | brk k =>
      have hctl := eq_right_iff (ctl_iff k) rfl rfl
      have halt := eq_right_iff (alt_iff k) rfl rfl
      rw [Unstuck, NextAfter, PlainAfter, ih, hctl, halt, and_imp, and_imp, nextCarries_ctl,
        plainPressed_alt]
      exact ⟨fun ⟨h1, h2, h3, h4⟩ => ⟨⟨h1, h3⟩, h2, h4⟩, fun ⟨⟨h1, h3⟩, h2, h4⟩ => ⟨h1, h2, h3, h4⟩⟩

end Keys

/-- The decoder reads all bytes. No modifier is left in the end and every key press is looked up
under the modifiers held, exactly if the right Ctrl and Alt keys, whose release the decoder ignores,
are followed as `Unstuck` says. -/
theorem modifiers_tracked_iff {es : List Event} (hs : Sent [] es) : (decoded es).port.queue = [] ∧
    ((decoded es).shift &&& (Mod.shift ||| Mod.ctl ||| Mod.alt) = 0 ∧
      (decoded es).lookups = presses [] es ↔ Unstuck es) := by
  obtain ⟨hqueue, hshift, hls⟩ := decoded_eq es
  have ha : Apart [] := nofun
  refine ⟨hqueue, ?_⟩
  rw [hshift, hls, and_comm, lookups_iff, tracksBit_iff (by decide) ha hs nofun,
    tracksBit_iff (by decide) ha hs nofun, clearsBit_iff (by decide) ha hs nofun, unstuck_iff]
  simp [nextAfter_shift]

def keyA : Key := ⟨false, 0x1E, by decide, by decide⟩
def leftShift : Key := ⟨false, 0x2A, by decide, by decide⟩

/-- Shift-A, and both Ctrl keys in turn. -/
def typed : List Event :=
  [.make leftShift, .make keyA, .brk keyA, .brk leftShift, .make rightCtl, .make rightCtl,
    .brk rightCtl, .make leftCtl, .make keyA, .brk leftCtl, .brk keyA]

theorem modifiers_tracked_typed : Sent [] typed ∧ (decoded typed).port.queue = [] ∧
    (decoded typed).shift &&& (Mod.shift ||| Mod.ctl ||| Mod.alt) = 0 ∧
    (decoded typed).lookups = presses [] typed := by
  have hs : Sent [] typed := by decide
  obtain ⟨hqueue, h⟩ := modifiers_tracked_iff hs
  exact ⟨hs, hqueue, h.mpr (by decide)⟩

/-- The right Ctrl key is pressed and released, then `a`: it is looked up as
Ctrl-A, and the bit `CTL` stays. -/
theorem rightCtl_sticks : Sent [] [.make rightCtl, .brk rightCtl, .make keyA, .brk keyA] ∧
    (decoded [.make rightCtl, .brk rightCtl, .make keyA, .brk keyA]).shift = Mod.ctl ∧
    (decoded [.make rightCtl, .brk rightCtl, .make keyA, .brk keyA]).lookups =
      [(2#32, 0x9D#8), (2#32, 0x1E#8)] ∧
    presses [] [.make rightCtl, .brk rightCtl, .make keyA, .brk keyA] =
      [(2#32, 0x9D#8), (0#32, 0x1E#8)] := by
  decide

end NctuCourses.Osdi.Console
