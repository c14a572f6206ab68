import Mathlib.Algebra.BigOperators.Group.Finset.Basic
import NctuCourses.Lib.Run
import NctuCourses.Mpi.Prime

namespace NctuCourses.Mpi

open NctuCourses.Lib

/-- The two messages of a rank, with tag 0 and tag 1. -/
inductive Msg where
  | pc (v : Int)
  | result (v : Nat)
deriving DecidableEq, Repr

def Msg.pc? : Msg → Option Int
  | .pc v => some v
  | .result _ => none

def Msg.result? : Msg → Option Nat
  | .pc _ => none
  | .result v => some v

/-- `MPI_Recv` from one source: the oldest message under way that has the tag. -/
def takeFirst {α : Type} (tag : Msg → Option α) : List Msg → Option (α × List Msg)
  | [] => none
  | m :: ms =>
    match tag m with
    | some a => some (a, ms)
    | none => (takeFirst tag ms).map fun p => (p.1, m :: p.2)

/-- What a rank sends. -/
def outbox (p : Int × Nat) : List Msg := [.pc p.1, .result p.2]

/-- Rank 0 in its receiving loop; `pc` is there between the two receives of a turn. -/
structure Root where
  i : Nat
  pc : Option Int
  finalPc : Int
  finalResult : Nat

/-- How much each rank has sent, what is under way to rank 0, and rank 0 itself. -/
structure World where
  sent : Nat → Nat
  chan : Nat → List Msg
  root : Root

inductive Event where
  | send (rank : Nat)
  | recv
deriving DecidableEq, Repr

/-- One more message of a rank is under way. -/
@[simps]
def World.put (w : World) (rank : Nat) (m : Msg) : World where
  sent := Function.update w.sent rank (w.sent rank + 1)
  chan := Function.update w.chan rank (w.chan rank ++ [m])
  root := w.root

/-- Rank 0 has taken a message of the rank it listens to; `rest` is still under way. -/
@[simps]
def World.take (w : World) (rest : List Msg) (root : Root) : World where
  sent := w.sent
  chan := Function.update w.chan w.root.i rest
  root := root

def World.exec (parts : Nat → Int × Nat) (size : Nat) (w : World) : Event → Option World
  | .send rank =>
    if 1 ≤ rank ∧ rank < size then (outbox (parts rank))[w.sent rank]?.map (w.put rank) else none
  | .recv =>
    if w.root.i < size then
      match w.root.pc with
      | none =>
        (takeFirst Msg.pc? (w.chan w.root.i)).map fun p => w.take p.2 { w.root with pc := some p.1 }
      | some pc =>
        (takeFirst Msg.result? (w.chan w.root.i)).bind fun p =>
          (cint (w.root.finalPc + pc)).map fun finalPc =>
            w.take p.2 ⟨w.root.i + 1, none, finalPc,
              if w.root.finalResult < p.1 then p.1 else w.root.finalResult⟩
    else none

/-- Rank 0 has done its own part and begins to receive. -/
def start (p : Int × Nat) : Option World :=
  (cint (p.1 + 4)).map fun finalPc => ⟨fun _ => 0, fun _ => [], ⟨1, none, finalPc, p.2⟩⟩

theorem isGreatest_foldl_max (l : List Nat) (m : Nat) :
    IsGreatest {n | n = m ∨ n ∈ l} (l.foldl max m) := by
  induction l generalizing m with
  | nil => simp [IsGreatest]
  | cons a l ih =>
    rw [List.foldl_cons]
    obtain ⟨hmem, hub⟩ := ih (max m a)
    constructor
    · cases hmem with
      | inl h =>
        rw [Set.mem_ofPred_eq, h, List.mem_cons]
        cases max_choice m a with
        | inl h => exact .inl h
        | inr h => exact .inr (.inl h)
      | inr h => exact .inr (List.mem_cons_of_mem _ h)
    · intro n hn
      have hmax : max m a ≤ l.foldl max (max m a) := hub (.inl rfl)
      cases hn with
      | inl h => omega
      | inr h =>
        cases h with
        | head => omega
        | tail _ h => exact hub (.inr h)

section Gather

variable {size limit : Nat}

/-- The primes that the ranks below `i` have found, with the initial value of `result`. -/
def found (size limit i : Nat) : Set Nat :=
  {n | n = 11 ∨ n ∈ (candidatesBelow size limit i).filter isprime}

theorem part_isGreatest (size limit rank : Nat) :
    IsGreatest {n | n = 11 ∨ n ∈ (candidates size limit rank).filter isprime}
      (part size limit rank).2 :=
  isGreatest_foldl_max _ _

theorem found_succ (size limit i : Nat) :
    found size limit (i + 1) = found size limit i ∪ {n | n = 11 ∨
      n ∈ (candidates size limit i).filter isprime} := by
  ext n
  simp only [found, candidatesBelow_succ, List.filter_append, List.mem_append,
    Set.mem_union, Set.mem_ofPred_eq]
  tauto

theorem countP_below_succ (size limit i : Nat) :
    (((candidatesBelow size limit (i + 1)).countP isprime : Nat) : Int) =
      ((candidatesBelow size limit i).countP isprime : Nat) + (part size limit i).1 := by
  rw [candidatesBelow_succ, List.countP_append]
  push_cast
  rfl

theorem countP_below_mono (size limit : Nat) {i j : Nat} (h : i ≤ j) :
    (candidatesBelow size limit i).countP isprime ≤
      (candidatesBelow size limit j).countP isprime := by
  induction h with
  | refl => exact le_refl _
  | step _ ih =>
    rw [candidatesBelow_succ, List.countP_append]
    omega

/-- What rank 0 adds up stays within `int`. -/
theorem total_lt (hsize : 1 ≤ size) (hlimit : 11 ≤ limit) (hcount : limit.primeCounting < 2 ^ 31)
    {i : Nat} (hi : i < size) :
    4 + ((candidatesBelow size limit i).countP isprime : Nat) + (part size limit i).1 < 2 ^ 31 := by
  have hmono := countP_below_mono size limit (show i + 1 ≤ size from hi)
  have hall := countP_candidates hsize hlimit
  have hsucc := countP_below_succ size limit i
  omega

theorem part_nonneg (size limit rank : Nat) : 0 ≤ (part size limit rank).1 := Int.natCast_nonneg _

/-- How many messages of a rank have been received. -/
def World.received (w : World) (r : Nat) : Nat :=
  if r < w.root.i then 2 else if r = w.root.i then w.root.pc.isSome.toNat else 0

/-- Rank 0 has taken the parts of the ranks below `i`, and of the others nothing is
lost, changed or reordered. -/
structure GatherInv (size limit : Nat) (es : List Event) (w : World) : Prop where
  lo : 1 ≤ w.root.i
  hi : w.root.i ≤ size
  sent : ∀ r, w.sent r ≤ 2
  received : ∀ r, 1 ≤ r → r < size → w.received r ≤ w.sent r
  chan : ∀ r, 1 ≤ r → r < size → w.chan r = ((outbox (part size limit r)).take (w.sent r)).drop
    (w.received r)
  pc : ∀ v, w.root.pc = some v → v = (part size limit w.root.i).1 ∧ w.root.i < size
  total : w.root.finalPc = 4 + ((candidatesBelow size limit w.root.i).countP isprime : Nat)
  largest : IsGreatest (found size limit w.root.i) w.root.finalResult
  steps : es.length = (∑ r ∈ Finset.range size, w.sent r) +
    (2 * (w.root.i - 1) + w.root.pc.isSome.toNat)

theorem takeFirst_pc (p : Int × Nat) (n : Nat) :
    takeFirst Msg.pc? ((outbox p).take n) = if n = 0 then none
    else some (p.1, ((outbox p).take n).drop 1) := by
  match n with
  | 0 => rfl
  | n + 1 => rfl

theorem takeFirst_result (p : Int × Nat) (n : Nat) :
    takeFirst Msg.result? (((outbox p).take n).drop 1) =
      if n < 2 then none else some (p.2, ((outbox p).take n).drop 2) := by
  match n with
  | 0 => rfl
  | 1 => rfl
  | n + 2 => simp [outbox, takeFirst, Msg.result?]

namespace GatherInv

variable {es : List Event} {w w' : World}

theorem initial (hsize : 1 ≤ size) (h : start (part size limit 0) = some w) :
    GatherInv size limit [] w := by
  obtain ⟨total, htotal, rfl⟩ := Option.map_eq_some_iff.mp h
  have hbelow : candidatesBelow size limit 1 = candidates size limit 0 := by
    simp [candidatesBelow, List.range_succ]
  constructor
  · exact le_refl 1
  · exact hsize
  · intro r
    exact Nat.zero_le 2
  · intro r hr _
    simp [World.received, Nat.not_lt.mpr hr]
  · intro r _ _
    exact List.drop_nil.symm
  · intro v hv
    cases hv
  · rw [← (cint_some.mp htotal).1]
    change (part size limit 0).1 + 4 = 4 + ((candidatesBelow size limit 1).countP isprime : Nat)
    rw [hbelow, Int.add_comm]
    rfl
  · change IsGreatest (found size limit 1) (part size limit 0).2
    rw [found, hbelow]
    exact part_isGreatest size limit 0
  · simp

theorem put (h : GatherInv size limit es w) {rank : Nat} (h1 : 1 ≤ rank) (h2 : rank < size)
    {m : Msg} (hm : (outbox (part size limit rank))[w.sent rank]? = some m) :
    GatherInv size limit (es ++ [.send rank]) (w.put rank m) := by
  obtain ⟨hlt, hget⟩ := List.getElem?_eq_some_iff.mp hm
  have hlt2 : w.sent rank < 2 := hlt
  have hrec := h.received rank h1 h2
  constructor
  case lo => exact h.lo
  case hi => exact h.hi
  case pc => exact h.pc
  case total => exact h.total
  case largest => exact h.largest
  case sent =>
    intro r
    have := h.sent r
    rw [World.put_sent]
    by_cases hr : r = rank
    · rw [hr, Function.update_self]
      omega
    · rwa [Function.update_of_ne hr]
  case received =>
    intro r hr1 hr2
    have := h.received r hr1 hr2
    change w.received r ≤ _
    rw [World.put_sent]
    by_cases hr : r = rank
    · rw [hr, Function.update_self]
      omega
    · rwa [Function.update_of_ne hr]
  case chan =>
    intro r hr1 hr2
    change _ = List.drop (w.received r) _
    rw [World.put_chan, World.put_sent]
    by_cases hr : r = rank
    · rw [hr, Function.update_self, Function.update_self, h.chan rank h1 h2,
        List.take_succ_eq_append_getElem hlt, hget, List.drop_append_of_le_length]
      rw [List.length_take]
      exact le_min hrec (hrec.trans hlt.le)
    · rw [Function.update_of_ne hr, Function.update_of_ne hr]
      exact h.chan r hr1 hr2
  case steps =>
    have hmem := Finset.mem_range.mpr h2
    simp only [World.put_sent, World.put_root]
    rw [List.length_append, h.steps, Finset.sum_update_of_mem hmem,
      Finset.sum_eq_add_sum_sdiff_singleton_of_mem hmem w.sent, List.length_singleton]
    omega

theorem received_self (w : World) : w.received w.root.i = w.root.pc.isSome.toNat := by
  simp [World.received]

theorem recvPc (h : GatherInv size limit es w) (hi : w.root.i < size) (hpc : w.root.pc = none)
    {p : Int × List Msg} (hp : takeFirst Msg.pc? (w.chan w.root.i) = some p) :
    GatherInv size limit (es ++ [.recv]) (w.take p.2 { w.root with pc := some p.1 }) := by
  have hrec0 : w.received w.root.i = 0 := by rw [received_self, hpc]; rfl
  rw [h.chan _ h.lo hi, hrec0, List.drop_zero, takeFirst_pc] at hp
  split at hp
  case isTrue => cases hp
  case isFalse hsent =>
  cases hp
  have hother : ∀ {r}, r ≠ w.root.i →
      (w.take (((outbox (part size limit w.root.i)).take (w.sent w.root.i)).drop 1)
      { w.root with pc := some (part size limit w.root.i).1 }).received r = w.received r := by
    intro r hr
    simp [World.received, hr]
  have hself : (w.take (((outbox (part size limit w.root.i)).take (w.sent w.root.i)).drop 1)
      { w.root with pc := some (part size limit w.root.i).1 }).received w.root.i = 1 := by
    simp [World.received]
  constructor
  case lo => exact h.lo
  case hi => exact h.hi
  case sent => exact h.sent
  case total => exact h.total
  case largest => exact h.largest
  case pc =>
    intro v hv
    exact ⟨(Option.some.inj hv).symm, hi⟩
  case received =>
    intro r h1 h2
    by_cases hr : r = w.root.i
    · rw [hr, hself, World.take_sent]
      omega
    · rw [hother hr]
      exact h.received r h1 h2
  case chan =>
    intro r h1 h2
    rw [World.take_chan, World.take_sent]
    by_cases hr : r = w.root.i
    · rw [hr, Function.update_self, hself]
    · rw [Function.update_of_ne hr, hother hr]
      exact h.chan r h1 h2
  case steps =>
    rw [List.length_append, h.steps, hpc]
    rfl

theorem recvResult (h : GatherInv size limit es w) (hi : w.root.i < size) {pc : Int}
    (hpc : w.root.pc = some pc) {p : Nat × List Msg}
    (hp : takeFirst Msg.result? (w.chan w.root.i) = some p) :
    GatherInv size limit (es ++ [.recv]) (w.take p.2 ⟨w.root.i + 1, none, w.root.finalPc + pc,
      if w.root.finalResult < p.1 then p.1 else w.root.finalResult⟩) := by
  have hrec1 : w.received w.root.i = 1 := by rw [received_self, hpc]; rfl
  rw [h.chan _ h.lo hi, hrec1, takeFirst_result] at hp
  split at hp
  case isTrue => cases hp
  case isFalse hsent =>
  cases hp
  have hreceived : ∀ r root,
      (w.take (((outbox (part size limit w.root.i)).take (w.sent w.root.i)).drop 2)
      ⟨w.root.i + 1, none, w.root.finalPc + pc, root⟩).received r =
        if r = w.root.i then 2 else w.received r := by
    intro r root
    simp only [World.received, World.take_root]
    grind
  have hpart := h.pc pc hpc
  constructor
  case lo => exact Nat.le_succ_of_le h.lo
  case hi => exact hi
  case sent => exact h.sent
  case pc =>
    intro v hv
    cases hv
  case total =>
    change w.root.finalPc + pc = 4 + ((candidatesBelow size limit (w.root.i + 1)).countP
      isprime : Nat)
    rw [countP_below_succ, h.total, hpart.1]
    omega
  case largest =>
    change IsGreatest (found size limit (w.root.i + 1))
      (if w.root.finalResult < (part size limit w.root.i).2 then (part size limit w.root.i).2
        else w.root.finalResult)
    rw [found_succ, ← max_def_lt]
    exact h.largest.union (part_isGreatest size limit w.root.i)
  case received =>
    intro r h1 h2
    rw [hreceived, World.take_sent]
    split
    case isTrue hr => rw [hr]; omega
    case isFalse => exact h.received r h1 h2
  case chan =>
    intro r h1 h2
    rw [hreceived, World.take_chan, World.take_sent]
    by_cases hr : r = w.root.i
    · rw [if_pos hr, hr, Function.update_self]
    · rw [if_neg hr, Function.update_of_ne hr]
      exact h.chan r h1 h2
  case steps =>
    have := h.lo
    rw [List.length_append, h.steps, hpc]
    simp only [World.take_sent, World.take_root, Option.isSome_none, Option.isSome_some,
      Bool.toNat_true, Bool.toNat_false, List.length_singleton]
    omega

theorem exec (h : GatherInv size limit es w) {e : Event}
    (hw : w.exec (part size limit) size e = some w') :
    GatherInv size limit (es ++ [e]) w' := by
  cases e with
  | send rank =>
    rw [World.exec] at hw
    split at hw
    case isFalse => cases hw
    case isTrue hrank =>
    obtain ⟨m, hm, rfl⟩ := Option.map_eq_some_iff.mp hw
    exact h.put hrank.1 hrank.2 hm
  | recv =>
    rw [World.exec] at hw
    split at hw
    case isFalse => cases hw
    case isTrue hi =>
    split at hw
    case h_1 hpc =>
      obtain ⟨p, hp, rfl⟩ := Option.map_eq_some_iff.mp hw
      exact h.recvPc hi hpc hp
    case h_2 pc hpc =>
      obtain ⟨p, hp, hw⟩ := Option.bind_eq_some_iff.mp hw
      obtain ⟨total, htotal, rfl⟩ := Option.map_eq_some_iff.mp hw
      rw [← (cint_some.mp htotal).1]
      exact h.recvResult hi hpc hp

/-- As long as rank 0 listens, somebody can go on: the rank it listens to can
send, or rank 0 can receive. -/
theorem progress (h : GatherInv size limit es w) (hsize : 1 ≤ size) (hlimit : 11 ≤ limit)
    (hcount : limit.primeCounting < 2 ^ 31) (hi : w.root.i < size) :
    ∃ e w', w.exec (part size limit) size e = some w' := by
  have hsend : ∀ m, (outbox (part size limit w.root.i))[w.sent w.root.i]? = some m →
      ∃ e w', w.exec (part size limit) size e = some w' := by
    intro m hm
    refine ⟨.send w.root.i, w.put w.root.i m, ?_⟩
    rw [World.exec, if_pos ⟨h.lo, hi⟩, hm]
    rfl
  have hchan := h.chan _ h.lo hi
  rw [received_self] at hchan
  cases hpc : w.root.pc with
  | none =>
    by_cases hsent : w.sent w.root.i = 0
    · exact hsend (.pc (part size limit w.root.i).1) (by rw [hsent]; rfl)
    · rw [hpc] at hchan
      refine ⟨.recv, Option.isSome_iff_exists.mp ?_⟩
      rw [World.exec, if_pos hi, hpc]
      dsimp only
      rw [hchan, Option.isSome_none, Bool.toNat_false, List.drop_zero, takeFirst_pc, if_neg hsent]
      rfl
  | some pc =>
    have hle := h.received _ h.lo hi
    rw [received_self, hpc] at hle
    rw [hpc] at hchan
    by_cases hsent : w.sent w.root.i < 2
    · have hone : w.sent w.root.i = 1 := by
        simp only [Option.isSome_some, Bool.toNat_true] at hle
        omega
      exact hsend (.result (part size limit w.root.i).2) (by rw [hone]; rfl)
    · have hlt := total_lt hsize hlimit hcount hi
      have hpos := part_nonneg size limit w.root.i
      have htotal := h.total
      have hpart := (h.pc pc hpc).1
      have hcint : cint (w.root.finalPc + pc) = some (w.root.finalPc + pc) :=
        cint_some.mpr ⟨rfl, by omega, by omega⟩
      refine ⟨.recv, Option.isSome_iff_exists.mp ?_⟩
      rw [World.exec, if_pos hi, hpc]
      dsimp only
      rw [hchan, Option.isSome_some, Bool.toNat_true, takeFirst_result, if_neg hsent,
        Option.bind_some, hcint]
      rfl

theorem length_le (h : GatherInv size limit es w) : es.length ≤ 4 * size := by
  have hsum : ∑ r ∈ Finset.range size, w.sent r ≤ ∑ _r ∈ Finset.range size, 2 :=
    Finset.sum_le_sum fun r _ => h.sent r
  rw [Finset.sum_const, Finset.card_range, smul_eq_mul] at hsum
  have hsteps := h.steps
  have hlo := h.lo
  have hhi := h.hi
  cases hpc : w.root.pc with
  | none =>
    rw [hpc, Option.isSome_none, Bool.toNat_false] at hsteps
    omega
  | some pc =>
    have := (h.pc pc hpc).2
    rw [hpc, Option.isSome_some, Bool.toNat_true] at hsteps
    omega

/-- When rank 0 has heard of all ranks it has the number of primes and the greatest of them. -/
theorem done (h : GatherInv size limit es w) (hsize : 1 ≤ size) (hlimit : 11 ≤ limit)
    (hi : size ≤ w.root.i) :
    w.root.finalPc = limit.primeCounting ∧ IsGreatest {p | p.Prime ∧ p ≤ limit}
      w.root.finalResult := by
  have hsz : w.root.i = size := Nat.le_antisymm h.hi hi
  have htotal := h.total
  have hlargest := h.largest
  rw [hsz] at htotal hlargest
  constructor
  · rw [htotal, ← countP_candidates hsize hlimit]
    push_cast
    omega
  · have hmem : ∀ n, n ∈ found size limit size → n.Prime ∧ n ≤ limit := by
      intro n hn
      cases hn with
      | inl h => rw [h]; exact ⟨by decide, hlimit⟩
      | inr h =>
        obtain ⟨hin, hp⟩ := List.mem_filter.mp h
        have hin' := (candidatesBelow_perm hsize limit).mem_iff.mp hin
        have hlt := ((mem_indices (by decide)).mp hin').2.1
        exact ⟨(isprime_of_mem hin').mp hp, by omega⟩
    refine ⟨hmem _ hlargest.1, ?_⟩
    intro p hp
    by_cases hsmall : p < 11
    · have : 11 ≤ w.root.finalResult := hlargest.2 (.inl rfl)
      omega
    · have hodd : p % 2 = 1 := (hp.1.eq_two_or_odd).resolve_left (by omega)
      have hin : p ∈ indices 11 2 (limit + 1) :=
        (mem_indices (by decide)).mpr ⟨by omega, by have := hp.2; omega, by omega⟩
      apply hlargest.2
      right
      exact List.mem_filter.mpr ⟨(candidatesBelow_perm hsize limit).mem_iff.mpr hin,
        (isprime_of_mem hin).mpr hp.1⟩

end GatherInv

end Gather

/-- All ranks finish their loops, every interleaving of the messages comes to an end, and rank 0
then prints the number of primes up to the limit and the greatest of them. -/
def CountsPrimes (size limit : Nat) : Prop :=
  ∃ parts : Nat → Int × Nat, (∀ rank < size, Converges (scan size limit rank) (parts rank)) ∧
    ∃ w₀, start (parts 0) = some w₀ ∧
      ∀ es w, Reach (fun w e w' => w.exec parts size e = some w') w₀ es w →
        es.length ≤ 4 * size ∧
        (w.root.i < size → ∃ e w', w.exec parts size e = some w') ∧
        (size ≤ w.root.i →
          w.root.finalPc = limit.primeCounting ∧ IsGreatest {p | p.Prime ∧
            p ≤ limit} w.root.finalResult)

/-- The count is exact for any number of ranks for which the bounds of
the loops stay within `int`. -/
theorem prime_countsPrimes {size limit : Nat} (hsize : 1 ≤ size) (hlimit : 11 ≤ limit)
    (hbound : limit + 2 * size < 2 ^ 64) (hcount : limit.primeCounting < 2 ^ 31) :
    CountsPrimes size limit ↔ size + 5 ≤ 2 ^ 30 := by
  constructor
  · intro ⟨parts, hparts, _⟩
    by_contra hlarge
    obtain ⟨n, hn⟩ := hparts (2 ^ 30 - 5) (by omega)
    have hnone := hn n (le_refl n)
    rw [scan_overflow (by omega)] at hnone
    cases hnone
  · intro hfit
    have hstart : start (part size limit 0) = some ⟨fun _ => 0, fun _ => [],
        ⟨1, none, (part size limit 0).1 + 4,
        (part size limit 0).2⟩⟩ := by
      have hlt := total_lt hsize hlimit hcount (show 0 < size by omega)
      have hpos := part_nonneg size limit 0
      rw [start, cint_some.mpr ⟨rfl, by omega, by omega⟩]
      rfl
    refine ⟨part size limit, ?_, _, hstart, ?_⟩
    · intro rank hrank
      have hlt := total_lt hsize hlimit hcount hrank
      exact scan_converges hfit hrank hbound (by omega)
    · intro es w hreach
      have hinv : GatherInv size limit es w :=
        hreach.historyInvariant (.initial hsize hstart) fun _ _ _ _ h hstep => h.exec hstep
      exact ⟨hinv.length_le, hinv.progress hsize hlimit hcount, hinv.done hsize hlimit⟩

theorem prime_countsPrimes_three : CountsPrimes 3 30 :=
  have hcount : Nat.primeCounting 30 ≤ 31 := Nat.count_le _
  (prime_countsPrimes (by decide) (by decide) (by norm_num) (by omega)).mpr (by norm_num)

/-- With `2 ^ 30` ranks the stride `2 * size` overflows before rank 0 comes to its second candidate,
the prime 2147483659. -/
theorem scan_two_pow_thirty :
    (∀ fuel, scan (2 ^ 30) 2147483659 0 fuel = none) ∧ ¬ CountsPrimes (2 ^ 30) 2147483659 := by
  have hnone : ∀ fuel, scan (2 ^ 30) 2147483659 0 fuel = none := fun fuel => rfl
  refine ⟨hnone, ?_⟩
  intro ⟨parts, hparts, _⟩
  obtain ⟨n, hn⟩ := hparts 0 (by decide)
  have h := hn n (le_refl n)
  rw [hnone] at h
  cases h

end NctuCourses.Mpi
