import Mathlib.Data.Set.Function
import Mathlib.Tactic

namespace NctuCourses.Libmini

/-- `NSIG`, one more than the last signal number. -/
def nsig : Int := 65

/-- `EINVAL`. -/
def einval : Int := 22

/-- A signal number the calls accept. -/
abbrev Signal := {n : Int // 0 < n ∧ n < nsig}

/-- What a call sees of its caller: the field behind `set`, `none` for
a null pointer, and `errno`. -/
structure Caller where
  set : Option (BitVec 64)
  errno : Int
deriving DecidableEq, Repr

/-- `1 << (signum - 1)` as an operand of the 64-bit field: the count is taken modulo 32,
the `int` is sign-extended. -/
def sigbit (signum : Int) : BitVec 64 :=
  (1#32 <<< ((signum - 1) % 32).toNat).signExtend 64

/-- The failing exit that every call has. -/
def Caller.invalid (c : Caller) : Int × Caller := (-1, { c with errno := einval })

/-- The checks and the update shared by `sigaddset` and `sigdelset`. -/
def sigupdate (f : BitVec 64 → BitVec 64) (c : Caller) (signum : Int) : Int × Caller :=
  match c.set with
  | none => c.invalid
  | some s => if signum ≤ 0 ∨ nsig ≤ signum then c.invalid else (0, { c with set := some (f s) })

def sigemptyset (c : Caller) : Int × Caller :=
  match c.set with
  | none => c.invalid
  | some _ => (0, { c with set := some 0#64 })

def sigfillset (c : Caller) : Int × Caller :=
  match c.set with
  | none => c.invalid
  | some _ => (0, { c with set := some (~~~(3#64 <<< 31)) })

def sigaddset (c : Caller) (signum : Int) : Int × Caller :=
  sigupdate (fun s => s ||| sigbit signum) c signum

def sigdelset (c : Caller) (signum : Int) : Int × Caller :=
  sigupdate (fun s => s &&& (~~~0#64 - sigbit signum)) c signum

def sigismember (c : Caller) (signum : Int) : Int × Caller :=
  match c.set with
  | none => c.invalid
  | some s =>
    if signum ≤ 0 ∨ nsig ≤ signum then c.invalid
    else if s &&& sigbit signum ≠ 0#64 then (1, c) else (0, c)

/-- The calls that change a set. -/
inductive Call where
  | empty
  | add (signum : Int)
  | del (signum : Int)
deriving DecidableEq, Repr

def Call.exec (c : Caller) : Call → Caller
  | .empty => (sigemptyset c).2
  | .add n => (sigaddset c n).2
  | .del n => (sigdelset c n).2

/-- What a call means for a mathematical set of signals. -/
def Call.meaning (A : Set Int) : Call → Set Int
  | .empty => ∅
  | .add n => if 0 < n ∧ n < nsig then insert n A else A
  | .del n => A \ {n}

/-- The call names a signal of `D`, an invalid number or none at all. -/
def Call.On (D : Set Signal) : Call → Prop
  | .empty => True
  | .add n | .del n => ∀ h : 0 < n ∧ n < nsig, ⟨n, h⟩ ∈ D

/-- The members of the set behind the pointer, as `sigismember` tells them. -/
def members (c : Caller) : Set Int := {m | (sigismember c m).1 = 1}

/-- The bits of the operand: below 31 the one that the shift selects, and for
the sign bit all from 31 on. -/
theorem getLsbD_sigbit (n : Int) (i : Nat) (hi : i < 64) :
    (sigbit n).getLsbD i = decide (min i 31 = ((n - 1) % 32).toNat) := by
  have hr : ((n - 1) % 32).toNat < 32 := by omega
  unfold sigbit
  rw [← BitVec.twoPow_eq, BitVec.getLsbD_signExtend, BitVec.msb_eq_getLsbD_last]
  simp only [BitVec.getLsbD_twoPow]
  by_cases h : i < 32
  · grind
  · grind

/-- The set behind the pointer meets the operand of `n`. -/
theorem and_sigbit_ne_zero (s : BitVec 64) (n : Int) :
    s &&& sigbit n ≠ 0#64 ↔ ∃ i < 64, s.getLsbD i = true ∧ min i 31 = ((n - 1) % 32).toNat := by
  constructor
  · intro h
    by_contra hno
    apply h
    apply BitVec.eq_of_getLsbD_eq
    intro i hi
    rw [BitVec.getLsbD_and, getLsbD_sigbit n i hi, BitVec.getLsbD_zero]
    by_contra hb
    apply hno
    refine ⟨i, hi, ?_⟩
    simpa using hb
  · intro ⟨i, hi, hs, hr⟩ h
    have hb : (s &&& sigbit n).getLsbD i = true := by
      rw [BitVec.getLsbD_and, getLsbD_sigbit n i hi, hs, hr]
      simp
    rw [h, BitVec.getLsbD_zero] at hb
    exact absurd hb (by decide)

theorem or_sigbit (s : BitVec 64) (n m : Int) :
    (s ||| sigbit n) &&& sigbit m ≠ 0#64 ↔ n % 32 = m % 32 ∨ s &&& sigbit m ≠ 0#64 := by
  simp only [and_sigbit_ne_zero, BitVec.getLsbD_or, Bool.or_eq_true]
  constructor
  · intro ⟨i, hi, hb, hm⟩
    cases hb with
    | inl hs => exact .inr ⟨i, hi, hs, hm⟩
    | inr hn =>
      rw [getLsbD_sigbit n i hi, decide_eq_true_eq] at hn
      exact .inl (by omega)
  · intro h
    cases h with
    | inl h =>
      refine ⟨((n - 1) % 32).toNat, by omega, .inr ?_, by omega⟩
      rw [getLsbD_sigbit n _ (by omega), decide_eq_true_eq]
      omega
    | inr h =>
      obtain ⟨i, hi, hs, hm⟩ := h
      exact ⟨i, hi, .inl hs, hm⟩

theorem sub_sigbit (s : BitVec 64) (n m : Int) :
    (s &&& (~~~0#64 - sigbit n)) &&& sigbit m ≠ 0#64 ↔ n % 32 ≠ m % 32 ∧ s &&& sigbit m ≠ 0#64 := by
  have hnot : ~~~0#64 - sigbit n = ~~~(sigbit n) := by
    rw [BitVec.not_eq_neg_add]
    bv_omega
  rw [hnot]
  simp only [and_sigbit_ne_zero, BitVec.getLsbD_and, BitVec.getLsbD_not, Bool.and_eq_true]
  constructor
  · intro ⟨i, hi, hb, hm⟩
    have hn := hb.2.2
    rw [getLsbD_sigbit n i hi, Bool.not_eq_true', decide_eq_false_iff_not] at hn
    exact ⟨by omega, i, hi, hb.1, hm⟩
  · intro ⟨hne, i, hi, hs, hm⟩
    refine ⟨i, hi, ⟨hs, by simpa using hi, ?_⟩, hm⟩
    rw [getLsbD_sigbit n i hi, Bool.not_eq_true', decide_eq_false_iff_not]
    omega

theorem mem_members {s : BitVec 64} {e m : Int} :
    m ∈ members ⟨some s, e⟩ ↔ (0 < m ∧ m < nsig) ∧ s &&& sigbit m ≠ 0#64 := by
  unfold members sigismember
  rw [Set.mem_ofPred_eq]
  by_cases hm : m ≤ 0 ∨ nsig ≤ m
  · have hno : ¬ (0 < m ∧ m < nsig) := by omega
    simp [hm, hno, Caller.invalid]
  · have hok : 0 < m ∧ m < nsig := by omega
    by_cases hb : s &&& sigbit m = 0#64
    · simp [hm, hok, hb]
    · simp [hm, hok, hb]

/-- A call with a number outside the range changes nothing of the set and says so. -/
theorem sigupdate_invalid (f : BitVec 64 → BitVec 64) (c : Caller) {n : Int}
    (h : ¬ (0 < n ∧ n < nsig)) :
    sigupdate f c n = c.invalid := by
  have hn : n ≤ 0 ∨ nsig ≤ n := by omega
  unfold sigupdate
  cases c.set with
  | none => rfl
  | some s => exact if_pos hn

theorem sigismember_invalid (c : Caller) {n : Int} (h : ¬ (0 < n ∧ n < nsig)) :
    sigismember c n = c.invalid := by
  have hn : n ≤ 0 ∨ nsig ≤ n := by omega
  unfold sigismember
  cases c.set with
  | none => rfl
  | some s => exact if_pos hn

theorem sigupdate_valid (f : BitVec 64 → BitVec 64) (s : BitVec 64) (e : Int) {n : Int}
    (h : 0 < n ∧ n < nsig) :
    sigupdate f ⟨some s, e⟩ n = (0, ⟨some (f s), e⟩) := by
  have hn : ¬ (n ≤ 0 ∨ nsig ≤ n) := by omega
  exact if_neg hn

/-- The calls treat the field as a set of the signals of `D`: one call at a time, and
over any sequence of calls. -/
structure ActsAsSet (D : Set Signal) : Prop where
  add : ∀ (s : BitVec 64) (e : Int), ∀ n ∈ D, ∀ m ∈ D,
    ((sigismember (sigaddset ⟨some s, e⟩ n).2 m).1 = 1 ↔ m = n ∨ (sigismember ⟨some s, e⟩ m).1 = 1)
  del : ∀ (s : BitVec 64) (e : Int), ∀ n ∈ D, ∀ m ∈ D,
    ((sigismember (sigdelset ⟨some s, e⟩ n).2 m).1 = 1 ↔ m ≠ n ∧ (sigismember ⟨some s, e⟩ m).1 = 1)
  run : ∀ (s : BitVec 64) (e : Int) (calls : List Call), (∀ call ∈ calls, call.On D) → ∀ m ∈ D,
    ((sigismember (calls.foldl Call.exec ⟨some s, e⟩) m).1 = 1 ↔
      m.1 ∈ calls.foldl Call.meaning (members ⟨some s, e⟩))

section Incongruent

variable {D : Set Signal}

theorem mem_sigaddset (hD : D.InjOn fun n => n.1 % 32) (s : BitVec 64) (e : Int) {n m : Signal}
    (hn : n ∈ D) (hm : m ∈ D) :
    m.1 ∈ members (sigaddset ⟨some s, e⟩ n).2 ↔ m = n ∨ m.1 ∈ members ⟨some s, e⟩ := by
  unfold sigaddset
  rw [sigupdate_valid _ s e n.2, mem_members, mem_members, or_sigbit]
  have hnm : n.1 % 32 = m.1 % 32 ↔ m = n := by
    constructor
    · intro h
      exact (hD hn hm h).symm
    · intro h
      rw [h]
  rw [hnm]
  simp [m.2]

theorem mem_sigdelset (hD : D.InjOn fun n => n.1 % 32) (s : BitVec 64) (e : Int) {n m : Signal}
    (hn : n ∈ D) (hm : m ∈ D) :
    m.1 ∈ members (sigdelset ⟨some s, e⟩ n).2 ↔ m ≠ n ∧ m.1 ∈ members ⟨some s, e⟩ := by
  unfold sigdelset
  rw [sigupdate_valid _ s e n.2, mem_members, mem_members, sub_sigbit]
  have hnm : n.1 % 32 ≠ m.1 % 32 ↔ m ≠ n := by
    constructor
    · intro h hmn
      exact h (by rw [hmn])
    · intro h hmod
      exact h (hD hn hm hmod).symm
  rw [hnm]
  simp [m.2]

/-- The field behind the pointer and the mathematical set `A` have the same members in `D`. -/
def Agrees (D : Set Signal) (c : Caller) (A : Set Int) : Prop :=
  ∃ s e, c = ⟨some s, e⟩ ∧ ∀ m ∈ D, (m.1 ∈ members c ↔ m.1 ∈ A)

theorem Agrees.invalid {c : Caller} {A : Set Int} (h : Agrees D c A) : Agrees D c.invalid.2 A := by
  obtain ⟨s, e, rfl, hA⟩ := h
  refine ⟨s, einval, rfl, ?_⟩
  intro m hm
  rw [← hA m hm]
  exact mem_members.trans mem_members.symm

theorem Agrees.exec (hD : D.InjOn fun n => n.1 % 32) {c : Caller} {A : Set Int} (h : Agrees D c A)
    {call : Call} (hon : call.On D) : Agrees D (call.exec c) (call.meaning A) := by
  obtain ⟨s, e, rfl, hA⟩ := id h
  cases call with
  | empty =>
    refine ⟨0#64, e, rfl, ?_⟩
    intro m _
    change m.1 ∈ members ⟨some 0#64, e⟩ ↔ m.1 ∈ (∅ : Set Int)
    rw [mem_members]
    simp
  | add n =>
    change Agrees D (sigaddset ⟨some s, e⟩ n).2 (if 0 < n ∧ n < nsig then insert n A else A)
    by_cases hn : 0 < n ∧ n < nsig
    · rw [if_pos hn]
      refine ⟨s ||| sigbit n, e, congrArg Prod.snd (sigupdate_valid _ s e hn), ?_⟩
      intro m hm
      rw [mem_sigaddset hD s e (hon hn) hm, hA m hm, Set.mem_insert_iff, Subtype.ext_iff]
    · rw [if_neg hn]
      unfold sigaddset
      rw [sigupdate_invalid _ _ hn]
      exact h.invalid
  | del n =>
    change Agrees D (sigdelset ⟨some s, e⟩ n).2 (A \ {n})
    by_cases hn : 0 < n ∧ n < nsig
    · refine ⟨s &&& (~~~0#64 - sigbit n), e, congrArg Prod.snd (sigupdate_valid _ s e hn), ?_⟩
      intro m hm
      rw [mem_sigdelset hD s e (hon hn) hm, hA m hm, Set.mem_sdiff, Set.mem_singleton_iff,
        Ne, Subtype.ext_iff, and_comm]
    · unfold sigdelset
      rw [sigupdate_invalid _ _ hn]
      obtain ⟨s', e', hc, hm'⟩ := h.invalid
      refine ⟨s', e', hc, ?_⟩
      intro m hm
      rw [hm' m hm, Set.mem_sdiff, Set.mem_singleton_iff]
      have hne : m.1 ≠ n := fun hmn => hn (hmn ▸ m.2)
      simp [hne]

theorem Agrees.run (hD : D.InjOn fun n => n.1 % 32) {calls : List Call}
    (hon : ∀ call ∈ calls, call.On D) {c : Caller} {A : Set Int} (h : Agrees D c A) :
    Agrees D (calls.foldl Call.exec c) (calls.foldl Call.meaning A) := by
  induction calls generalizing c A with
  | nil => exact h
  | cons call calls ih =>
    rw [List.foldl_cons, List.foldl_cons]
    apply ih
    · intro x hx
      exact hon x (List.mem_cons_of_mem _ hx)
    · exact h.exec hD (hon call List.mem_cons_self)

end Incongruent

theorem injOn_le_thirtytwo : ({n | n.1 ≤ 32} : Set Signal).InjOn fun n => n.1 % 32 := by
  intro n hn m hm h
  have h1 := n.2
  have h2 := m.2
  apply Subtype.ext
  simp only [Set.mem_ofPred_eq] at hn hm h
  omega

/-- The calls act as set operations on exactly those collections of signals in which no two numbers
agree modulo 32; a number outside the range is refused whatever the set is. -/
theorem sigset_actsAsSet (D : Set Signal) :
    (ActsAsSet D ↔ D.InjOn fun n => n.1 % 32) ∧
    ∀ (c : Caller) (n : Int), ¬ (0 < n ∧ n < nsig) →
      sigaddset c n = (-1, { c with errno := einval }) ∧
      sigdelset c n = (-1, { c with errno := einval }) ∧
        sigismember c n = (-1, { c with errno := einval }) := by
  refine ⟨⟨?_, ?_⟩, ?_⟩
  · intro h n hn m hm hmod
    -- adding `n` to the empty set makes `m` a member
    have hmem : m.1 ∈ members (sigaddset ⟨some 0#64, 0⟩ n).2 := by
      unfold sigaddset
      rw [sigupdate_valid _ _ _ n.2, mem_members, or_sigbit]
      exact ⟨m.2, .inl hmod⟩
    cases (h.add 0#64 0 n hn m hm).mp hmem with
    | inl heq => exact heq.symm
    | inr h0 => exact absurd (BitVec.zero_and) (mem_members.mp h0).2
  · intro hD
    constructor
    · intro s e n hn m hm
      exact mem_sigaddset hD s e hn hm
    · intro s e n hn m hm
      exact mem_sigdelset hD s e hn hm
    · intro s e calls hon m hm
      have h0 : Agrees D ⟨some s, e⟩ (members ⟨some s, e⟩) := ⟨s, e, rfl, fun m _ => Iff.rfl⟩
      obtain ⟨_, _, _, hA⟩ := h0.run hD hon
      exact hA m hm
  · intro c n hn
    refine ⟨sigupdate_invalid _ c hn, sigupdate_invalid _ c hn, ?_⟩
    exact sigismember_invalid c hn

theorem actsAsSet_le_thirtytwo :
    ActsAsSet {n | n.1 ≤ 32} ∧ sigaddset ⟨some 5#64, 0⟩ 65 = (-1, ⟨some 5#64, einval⟩) :=
  ⟨(sigset_actsAsSet _).1.mpr injOn_le_thirtytwo,
    ((sigset_actsAsSet ∅).2 ⟨some 5#64, 0⟩ 65 (by decide)).1⟩

/-- Adding signal 33 to the empty set makes signal 1 a member, and deleting
signal 1 from it then removes 33. -/
theorem sigaddset_thirtythree :
    (sigismember (sigaddset ⟨some 0#64, 0⟩ 33).2 1).1 = 1 ∧ (sigismember ⟨some 0#64, 0⟩ 1).1 = 0 ∧
      (sigismember (sigdelset (sigaddset ⟨some 0#64, 0⟩ 33).2 1).2 33).1 = 0 ∧
        ¬ ActsAsSet Set.univ := by
  refine ⟨by decide, by decide, by decide, ?_⟩
  intro h
  have hadd := (h.add 0#64 0 ⟨33, by decide⟩ (Set.mem_univ _) ⟨1, by decide⟩ (Set.mem_univ _)).mp
    (by decide)
  exact absurd hadd (by decide)

/-- `sigfillset` leaves out two bits, but every signal is still a member. -/
theorem members_sigfillset (s : BitVec 64) (e : Int) :
    members (sigfillset ⟨some s, e⟩).2 = {m | 0 < m ∧ m < nsig} := by
  ext m
  change m ∈ members ⟨some (~~~(3#64 <<< 31)), e⟩ ↔ 0 < m ∧ m < nsig
  rw [mem_members, and_sigbit_ne_zero]
  apply and_iff_left_of_imp
  intro _
  by_cases hm : ((m - 1) % 32).toNat = 31
  · exact ⟨33, by decide, by decide, by omega⟩
  · refine ⟨((m - 1) % 32).toNat, by omega, ?_, by omega⟩
    have hr : ((m - 1) % 32).toNat < 31 := by omega
    generalize ((m - 1) % 32).toNat = k at hr
    interval_cases k <;> rfl

end NctuCourses.Libmini
