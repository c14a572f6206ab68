import NctuCourses.Lib.Circular
import NctuCourses.Osdi.Console.Kbd

namespace NctuCourses.Osdi.Console

open Lib

def consbufsize : Nat := 512

/-- `struct cons`. -/
structure Cons where
  buf : Nat → Byte
  rpos : Nat
  wpos : Nat

/-- The keyboard and the console buffer, with the characters that `kbd_proc_data` has produced so
far and those that `cons_getc` has returned. -/
structure Input where
  kbd : Kbd
  cons : Cons
  produced : List Int
  returned : List Int

/-- The bytes reach the keyboard controller. -/
def Input.arrive (bytes : List Byte) (s : Input) : Input :=
  { s with kbd := { s.kbd with port := { s.kbd.port with queue := s.kbd.port.queue ++ bytes } } }

theorem Input.arrive_length (bytes : List Byte) (s : Input) :
    (s.arrive bytes).kbd.port.queue.length = s.kbd.port.queue.length + bytes.length :=
  List.length_append

/-- The call `(*proc)()`. -/
def Input.proc (s : Input) : Input × Int :=
  let (kbd, c) := kbdProcData s.kbd
  ({ s with kbd, produced := if c = -1 ∨ c = 0 then s.produced else s.produced ++ [c] }, c)

/-- The character is put into the buffer. -/
def Cons.put (c : Int) (s : Cons) : Cons where
  buf := Function.update s.buf s.wpos (BitVec.ofInt 8 c)
  rpos := s.rpos
  wpos := if s.wpos + 1 = consbufsize then 0 else s.wpos + 1

theorem Input.proc_decreases {s : Input} (h : s.proc.2 ≠ -1) :
    s.proc.1.kbd.port.queue.length < s.kbd.port.queue.length := by
  rcases kbdProcData_spec s.kbd with ⟨_, hnone⟩ | ⟨hlt, _⟩
  · exact absurd (congrArg Prod.snd hnone) h
  · exact hlt

/-- `cons_intr(kbd_proc_data)`. Before each call of `proc` some bytes may have arrived. -/
def consIntr (arrivals : List (List Byte)) (s : Input) : Input :=
  let r := (s.arrive (arrivals.headD [])).proc
  if r.2 = -1 then r.1
  else if r.2 = 0 then consIntr arrivals.tail r.1
  else { r.1 with cons := r.1.cons.put r.2 }
termination_by arrivals.flatten.length + s.kbd.port.queue.length
decreasing_by
  rename_i hne _
  have hlt := Input.proc_decreases hne
  rw [Input.arrive_length] at hlt
  cases arrivals with
  | nil => exact Nat.add_lt_add_left hlt _
  | cons bytes arrivals =>
    rw [List.flatten_cons, List.length_append]
    rw [List.headD_cons] at hlt ⊢
    rw [List.tail_cons]
    omega

/-- `cons_getc`. -/
def consGetc (s : Input) : Input × Int :=
  if s.cons.rpos ≠ s.cons.wpos then
    let c : Int := (s.cons.buf s.cons.rpos).toNat
    let rpos := if s.cons.rpos + 1 = consbufsize then 0 else s.cons.rpos + 1
    ({ s with cons := { s.cons with rpos }, returned := if c = 0 then s.returned
      else s.returned ++ [c] }, c)
  else (s, 0)

inductive ConsEvent where
  | intr (arrivals : List (List Byte))
  | getc

def ConsEvent.apply : ConsEvent → Input → Input
  | .intr arrivals, s => consIntr arrivals s
  | .getc, s => (consGetc s).1

/-- The console after interrupts and reads, from the start. -/
def consRun (es : List ConsEvent) : Input :=
  es.foldl (fun s e => e.apply s) ⟨.initial [], ⟨fun _ => 0, 0, 0⟩, [], []⟩

theorem consRun_snoc (es : List ConsEvent) (e : ConsEvent) :
    consRun (es ++ [e]) = e.apply (consRun es) := by
  rw [consRun, List.foldl_append]
  rfl

/-- The characters produced and not yet returned. -/
def Input.waiting (s : Input) : Nat := s.produced.length - s.returned.length

/-- What an interrupt does to the buffer: it leaves it alone or adds the one character that
`kbd_proc_data` has produced. -/
theorem consIntr_cases (arrivals : List (List Byte)) (s : Input) :
    (consIntr arrivals s).returned = s.returned ∧
    ((consIntr arrivals s).produced = s.produced ∧ (consIntr arrivals s).cons = s.cons ∨
      ∃ c : Int, 1 ≤ c ∧ c ≤ 255 ∧ (consIntr arrivals s).produced = s.produced ++ [c] ∧
        (consIntr arrivals s).cons = s.cons.put c) := by
  fun_induction consIntr arrivals s with
  | case1 arrivals s r h =>
    have hr : r.1.produced = s.produced := if_pos (.inl h)
    exact ⟨rfl, .inl ⟨hr, rfl⟩⟩
  | case2 arrivals s r _ h ih =>
    have hr : r.1.produced = s.produced := if_pos (.inr h)
    rw [hr] at ih
    exact ih
  | case3 arrivals s r hne h =>
    have hr : r.1.produced = s.produced ++ [r.2] := if_neg (not_or.mpr ⟨hne, h⟩)
    rcases kbdProcData_spec (s.arrive (arrivals.headD [])).kbd with ⟨_, hnone⟩ | ⟨_, h0, h255⟩
    · exact absurd (congrArg Prod.snd hnone) hne
    · exact ⟨rfl, .inr ⟨r.2, lt_of_le_of_ne h0 (Ne.symm h), h255, hr, rfl⟩⟩

/-- The buffer holds the characters that are waiting. -/
structure Input.Holds (s : Input) (l : List Byte) : Prop where
  cells : Circular consbufsize s.cons.buf s.cons.rpos s.cons.wpos l
  produced : s.produced = s.returned ++ l.map fun c => (c.toNat : Int)
  nonzero : ∀ c ∈ l, c ≠ 0

theorem Input.Holds.intr {s : Input} {l : List Byte} (h : s.Holds l) (arrivals : List (List Byte))
    (hroom : (consIntr arrivals s).waiting ≤ consbufsize - 1) :
    ∃ l', (consIntr arrivals s).Holds l' := by
  obtain ⟨hret, ⟨hprod, hcons⟩ | ⟨c, h1, h255, hprod, hcons⟩⟩ := consIntr_cases arrivals s
  · exact ⟨l, by rw [hcons]; exact h.cells, by rw [hprod, hret]; exact h.produced, h.nonzero⟩
  · have hlen : l.length + 1 < consbufsize := by
      rw [Input.waiting, hprod, hret, h.produced] at hroom
      simp only [List.length_append, List.length_map, List.length_singleton, consbufsize] at hroom ⊢
      omega
    have hbyte : ((BitVec.ofInt 8 c).toNat : Int) = c := by
      rw [BitVec.toNat_ofInt]
      omega
    refine ⟨l ++ [BitVec.ofInt 8 c], ?_, ?_, ?_⟩
    · rw [hcons]
      have hput := h.cells.put hlen (BitVec.ofInt 8 c)
      rw [← next_eq_mod h.cells.w_lt] at hput
      exact hput
    · rw [hprod, hret, h.produced, List.append_assoc, List.map_append, List.map_singleton, hbyte]
    · intro b hb
      rcases List.mem_append.mp hb with hb | hb
      · exact h.nonzero b hb
      · rintro rfl
        rw [← List.mem_singleton.mp hb] at hbyte
        have hzero : c = 0 := hbyte.symm
        omega

theorem Input.Holds.getc {s : Input} {l : List Byte} (h : s.Holds l) :
    (∃ l', (consGetc s).1.Holds l') ∧ ((consGetc s).2 = 0 ↔ l = []) := by
  have hmeet := h.cells.eq_iff
  cases l with
  | nil =>
    have hnone : consGetc s = (s, 0) := if_neg (not_not.mpr (hmeet.mpr rfl))
    rw [hnone]
    exact ⟨⟨[], h⟩, iff_of_true rfl rfl⟩
  | cons c l =>
    have hne : s.cons.rpos ≠ s.cons.wpos := fun heq => List.cons_ne_nil c l (hmeet.mp heq)
    have hc : ((c.toNat : Int)) ≠ 0 := by
      have h0 := h.nonzero c List.mem_cons_self
      intro hz
      exact h0 (BitVec.eq_of_toNat_eq (Int.ofNat_inj.mp hz))
    have hfirst := h.cells.first
    have hsome : consGetc s =
        (⟨s.kbd, ⟨s.cons.buf, if s.cons.rpos + 1 = consbufsize then 0 else s.cons.rpos + 1,
        s.cons.wpos⟩, s.produced, s.returned ++ [(c.toNat : Int)]⟩, (c.toNat : Int)) := by
      simp only [consGetc, if_pos hne, hfirst, if_neg hc]
    rw [hsome]
    refine ⟨⟨l, ?_, ?_, ?_⟩, iff_of_false hc (List.cons_ne_nil c l)⟩
    · dsimp only
      rw [next_eq_mod h.cells.r_lt]
      exact h.cells.drop
    · rw [List.append_assoc]
      exact h.produced
    · intro b hb
      exact h.nonzero b (List.mem_cons_of_mem c hb)

theorem consRun_holds {es : List ConsEvent}
    (hroom : ∀ p, p <+: es → (consRun p).waiting ≤ consbufsize - 1) :
    ∃ l, (consRun es).Holds l := by
  induction es using List.reverseRecOn with
  | nil => exact ⟨[], Circular.nil (by decide), rfl, nofun⟩
  | append_singleton es e ih =>
    obtain ⟨l, h⟩ := ih fun p hp => hroom p (hp.trans (List.prefix_append es [e]))
    have hlast := hroom _ (List.prefix_refl _)
    rw [consRun_snoc] at hlast ⊢
    cases e with
    | intr arrivals => exact h.intr arrivals hlast
    | getc => exact h.getc.1

/-- Console input is first-in first-out while at most 511 characters are waiting. -/
theorem consRun_fifo {es : List ConsEvent}
    (hroom : ∀ p, p <+: es → (consRun p).waiting ≤ consbufsize - 1) :
    (consRun es).returned <+: (consRun es).produced ∧
    ((consGetc (consRun es)).2 = 0 ↔ (consRun es).returned = (consRun es).produced) ∧
    (consRun es).cons.rpos < consbufsize ∧ (consRun es).cons.wpos < consbufsize := by
  obtain ⟨l, h⟩ := consRun_holds hroom
  refine ⟨?_, ?_, h.cells.r_lt, h.cells.w_lt⟩
  · rw [h.produced]
    exact List.prefix_append _ _
  · rw [h.getc.2, h.produced]
    simp

theorem waiting_le_length (es : List ConsEvent) : (consRun es).waiting ≤ es.length := by
  refine (Nat.sub_le _ _).trans ?_
  induction es using List.reverseRecOn with
  | nil => exact le_refl 0
  | append_singleton es e ih =>
    rw [consRun_snoc, List.length_append, List.length_singleton]
    cases e with
    | intr arrivals =>
      obtain ⟨_, ⟨hprod, _⟩ | ⟨c, _, _, hprod, _⟩⟩ := consIntr_cases arrivals (consRun es)
      · rw [ConsEvent.apply, hprod]
        omega
      · rw [ConsEvent.apply, hprod, List.length_append, List.length_singleton]
        omega
    | getc =>
      have hprod : (consGetc (consRun es)).1.produced = (consRun es).produced := by
        rw [consGetc]
        split_ifs <;> rfl
      rw [ConsEvent.apply, hprod]
      omega

/-- `a`, then `b` with Shift, read in between and afterwards. -/
def typedAb : List ConsEvent :=
  [.intr [[0x1E]], .getc, .intr [[0x9E], [0x2A], [0x30]], .getc, .getc]

/-- The characters are returned in the order they were typed in, and nothing is left. -/
theorem consRun_fifo_typedAb : (consRun typedAb).returned = [0x61, 0x42] ∧
    (consRun typedAb).returned = (consRun typedAb).produced := by
  have hroom : ∀ p, p <+: typedAb → (consRun p).waiting ≤ consbufsize - 1 := by
    intro p hp
    calc (consRun p).waiting ≤ p.length := waiting_le_length p
      _ ≤ typedAb.length := hp.length_le
      _ ≤ consbufsize - 1 := by decide
  have hall := (consRun_fifo hroom).2.1.mp (by decide +kernel)
  have hproduced : (consRun typedAb).produced = [0x61, 0x42] := by decide +kernel
  exact ⟨hall.trans hproduced, hall⟩

end NctuCourses.Osdi.Console
