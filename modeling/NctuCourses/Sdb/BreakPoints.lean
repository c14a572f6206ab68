import NctuCourses.Lib.Fuel
import NctuCourses.Lib.Linked
import NctuCourses.Lib.Run
import NctuCourses.Sdb.Patched

namespace NctuCourses.Sdb

open NctuCourses.Lib

abbrev Ptr := Nat

/-- `BreakPoints` of sdb.h. -/
structure Cell extends BreakPoint where
  next : Option Ptr
deriving DecidableEq

/-- The cells that are allocated, and `pg->breakpoints`. -/
structure Breaks where
  cell : Ptr → Option Cell
  head : Option Ptr

namespace Breaks

/-- `BreakPointExist` from `cur` on. As in the other loops, reading a cell that
is not allocated is an error. -/
def breakPointExist (s : Breaks) (id : Int) (addr : Addr) : Nat → Option Ptr → Option Int
  | 0, _ => none
  | _ + 1, none => some 0
  | fuel + 1, some cur =>
    (s.cell cur).bind fun c =>
      if c.id = id then some 1 else if c.addr = addr then some 2
        else s.breakPointExist id addr fuel c.next

/-- `while (cur->next != NULL) cur = cur->next`. -/
def lastCell (s : Breaks) : Nat → Ptr → Option Ptr
  | 0, _ => none
  | fuel + 1, cur =>
    (s.cell cur).bind fun c =>
      match c.next with
      | none => some cur
      | some next => s.lastCell fuel next

/-- `p` is what `malloc` returns. -/
def addBreakPoint (s : Breaks) (p : Ptr) (id : Int) (addr : Addr) (code : Byte) (fuel : Nat) :
    Option (Int × Breaks) :=
  (s.breakPointExist id addr fuel s.head).bind fun ret =>
    if ret ≠ 0 then some (ret, s)
    else
      match s.head with
      | none => some (0, ⟨Function.update s.cell p (some ⟨⟨id, addr, code⟩, none⟩), some p⟩)
      | some cur =>
        (s.lastCell fuel cur).bind fun cur => (s.cell cur).map fun c =>
          (0, { s with
            cell := Function.update (Function.update s.cell cur (some { c with next := some p })) p
              (some ⟨⟨id, addr, code⟩, none⟩) })

/-- The loop of `DeleteBreakPoint`: the cell before the one with the id. -/
def findBefore (s : Breaks) (id : Int) : Nat → Ptr → Option (Option Ptr)
  | 0, _ => none
  | fuel + 1, cur =>
    (s.cell cur).bind fun c =>
      match c.next with
      | none => some none
      | some next => (s.cell next).bind fun d => if d.id = id then some (some cur)
          else s.findBefore id fuel next

/-- The value returned, what is in `*addr` and `*code`, and the list. -/
def deleteBreakPoint (s : Breaks) (id : Int) (out : Addr × Byte) (fuel : Nat) :
    Option (Int × (Addr × Byte) × Breaks) :=
  match s.head with
  | none => some (-1, out, s)
  | some cur =>
    (s.cell cur).bind fun c =>
      if c.id = id then
        some (0, (c.addr, c.origCode), ⟨Function.update s.cell cur none, c.next⟩)
      else
        (s.findBefore id fuel cur).bind fun found =>
          match found with
          | none => some (-1, out, s)
          | some cur => (s.cell cur).bind fun c => c.next.bind fun del => (s.cell del).map fun d =>
            (0, (d.addr, d.origCode),
              { s with cell := Function.update (Function.update s.cell cur
                (some { c with next := d.next })) del none })

def next (s : Breaks) (p : Ptr) : Option Ptr := (s.cell p).bind Cell.next

def point (s : Breaks) (p : Ptr) : Option BreakPoint := (s.cell p).map Cell.toBreakPoint

/-- From `cur` on, the cells `ps` hold the breakpoints `bs`. -/
structure Holds (s : Breaks) (cur : Option Ptr) (ps : List Ptr) (bs : List BreakPoint) : Prop where
  linked : Linked s.next cur ps
  points : ps.map s.point = bs.map some

section Walk

variable {s : Breaks} {cur : Option Ptr} {ps : List Ptr} {bs : List BreakPoint}

theorem Holds.nil (h : s.Holds cur ps []) : cur = none ∧ ps = [] := by
  have hps : ps = [] := by simpa using h.points
  subst hps
  exact ⟨h.linked, rfl⟩

theorem Holds.cons {b : BreakPoint} (h : s.Holds cur ps (b :: bs)) :
    ∃ p rest next, cur = some p ∧ ps = p :: rest ∧ s.cell p = some ⟨b, next⟩ ∧
    s.Holds next rest bs := by
  cases ps with
  | nil => simpa using h.points
  | cons p rest =>
    have hpts := h.points
    rw [List.map_cons, List.map_cons, List.cons.injEq] at hpts
    obtain ⟨c, hc, hcb⟩ := Option.map_eq_some_iff.mp hpts.1
    subst hcb
    have hl := h.linked.2
    rw [show s.next p = c.next by rw [next, hc]; rfl] at hl
    exact ⟨p, rest, c.next, h.linked.1, rfl, hc, hl, hpts.2⟩

theorem Holds.breakPointExist_converges (h : s.Holds cur ps bs) (id : Int) (addr : Addr) :
    Converges (fun k => s.breakPointExist id addr k cur) (Sdb.breakPointExist bs id addr) := by
  induction bs generalizing cur ps with
  | nil =>
    obtain ⟨rfl, _⟩ := h.nil
    exact .succ (g := fun _ => some 0) (fun _ => rfl) (.pure 0)
  | cons b bs ih =>
    obtain ⟨p, rest, next, rfl, _, hp, ht⟩ := h.cons
    rw [Sdb.breakPointExist]
    apply Converges.succ (g := fun k =>
      if b.id = id then some 1 else if b.addr = addr then some 2
        else s.breakPointExist id addr k next)
    · intro k
      rw [breakPointExist, hp]
      rfl
    · by_cases h1 : b.id = id
      · simp only [h1, if_true]
        exact .pure 1
      · by_cases h2 : b.addr = addr
        · simp only [h1, if_false, h2, if_true]
          exact .pure 2
        · simp only [h1, if_false, h2]
          exact ih ht

theorem Holds.lastCell_converges {p : Ptr} (h : s.Holds (some p) ps bs) :
    ∃ last, ps.getLast? = some last ∧ Converges (fun k => s.lastCell k p) last := by
  induction bs generalizing p ps with
  | nil => cases h.nil.1
  | cons b bs ih =>
    obtain ⟨_, rest, next, hcur, rfl, hp, ht⟩ := h.cons
    obtain rfl := Option.some.inj hcur
    cases bs with
    | nil =>
      obtain ⟨rfl, rfl⟩ := ht.nil
      refine ⟨p, rfl, .succ (g := fun _ => some p) ?_ (.pure p)⟩
      intro k
      rw [lastCell, hp]
      rfl
    | cons b' bs =>
      obtain ⟨q, rest', _, rfl, hrest, _, _⟩ := ht.cons
      obtain ⟨last, hlast, hconv⟩ := ih ht
      refine ⟨last, ?_, .succ ?_ hconv⟩
      · rw [hrest] at hlast ⊢
        rwa [List.getLast?_cons_cons]
      · intro k
        rw [lastCell, hp]
        rfl

theorem Holds.mem (h : s.Holds cur ps bs) {p : Ptr} (hp : p ∈ ps) : ∃ c, s.cell p = some c := by
  have hmem : s.point p ∈ bs.map some := h.points ▸ List.mem_map_of_mem hp
  obtain ⟨b, _, hb⟩ := List.mem_map.mp hmem
  obtain ⟨c, hc, _⟩ := Option.map_eq_some_iff.mp hb.symm
  exact ⟨c, hc⟩

/-- The loop finds the cell before the first one that has the id, as far
as the cells behind `p` go. -/
theorem Holds.findBefore_converges {p : Ptr} {b : BreakPoint} (h : s.Holds (some p) ps (b :: bs))
    (id : Int) :
    match Sdb.deleteBreakPoint bs id with
    | none => Converges (fun k => s.findBefore id k p) none
    | some (d, rest) => ∃ l₁ q del l₂, ps = l₁ ++ q :: del :: l₂ ∧ s.next q = some del ∧
    s.point del = some d ∧
        (l₁ ++ q :: l₂).map s.point = (b :: rest).map some ∧
        Converges (fun k => s.findBefore id k p) (some q) := by
  induction bs generalizing p ps b with
  | nil =>
    obtain ⟨_, rest, next, hcur, rfl, hp, ht⟩ := h.cons
    obtain rfl := Option.some.inj hcur
    obtain ⟨rfl, rfl⟩ := ht.nil
    apply Converges.succ (g := fun _ => some none) ?_ (.pure none)
    intro k
    rw [findBefore, hp]
    rfl
  | cons c bs ih =>
    obtain ⟨_, rest, next, hcur, rfl, hp, ht⟩ := h.cons
    obtain rfl := Option.some.inj hcur
    obtain ⟨del, rest', next', rfl, rfl, hdel, ht'⟩ := ht.cons
    have hpoint : s.point p = some b := by rw [point, hp]; rfl
    have hstep : ∀ k, s.findBefore id (k + 1) p = if c.id = id then some (some p)
        else s.findBefore id k del := by
      intro k
      rw [findBefore, hp]
      change (s.cell del).bind _ = _
      rw [hdel]
      rfl
    rw [Sdb.deleteBreakPoint]
    by_cases hid : c.id = id
    · rw [if_pos hid]
      refine ⟨[], p, del, rest', rfl,
        by rw [Breaks.next, hp]; rfl, by rw [point, hdel]; rfl, ?_, ?_⟩
      · rw [List.nil_append, List.map_cons, hpoint, ht'.points]
        rfl
      · apply Converges.succ (g := fun _ => some (some p)) ?_ (.pure _)
        intro k
        rw [hstep, if_pos hid]
    · rw [if_neg hid]
      have hnext : ∀ k, s.findBefore id (k + 1) p = s.findBefore id k del :=
        fun k => by rw [hstep, if_neg hid]
      have hrec := ih ht
      cases hd : Sdb.deleteBreakPoint bs id with
      | none =>
        rw [hd] at hrec
        exact .succ hnext hrec
      | some r =>
        rw [hd] at hrec
        obtain ⟨l₁, q, del', l₂, hps, hq, hdel', hpts, hconv⟩ := hrec
        refine ⟨p :: l₁, q, del', l₂, by rw [hps]; rfl, hq, hdel', ?_, .succ hnext hconv⟩
        rw [List.cons_append, List.map_cons, hpts, hpoint]
        rfl

end Walk

section Update

variable {s s' : Breaks} {ps : List Ptr} {bs : List BreakPoint}

theorem Holds.append (h : s.Holds s.head ps bs) {p : Ptr} {b : BreakPoint}
    (hnew : s'.cell p = some ⟨b, none⟩)
    (hlast : ∀ q, ps.getLast? = some q → s'.next q = some p ∧ s'.point q = s.point q)
    (hother : ∀ q ∈ ps, ps.getLast? ≠ some q → s'.cell q = s.cell q)
    (hhead : s'.head = if ps = [] then some p else s.head) :
    s'.Holds s'.head (ps ++ [p]) (bs ++ [b]) := by
  constructor
  · apply h.linked.snoc
    · rw [next, hnew]
      rfl
    · intro q hq
      exact (hlast q hq).1
    · intro q hq hne
      rw [next, next, hother q hq hne]
    · exact hhead
  · have hsame : ps.map s'.point = ps.map s.point := by
      apply List.map_congr_left
      intro q hq
      by_cases hl : ps.getLast? = some q
      · exact (hlast q hl).2
      · rw [point, point, hother q hq hl]
    rw [List.map_append, List.map_append, hsame, h.points, List.map_singleton, point, hnew]
    rfl

theorem Holds.remove {l₁ l₂ : List Ptr} {a : Ptr} (h : s.Holds s.head (l₁ ++ a :: l₂) bs)
    {rest : List BreakPoint} (hrest : (l₁ ++ l₂).map s.point = rest.map some)
    (hlast : ∀ q, l₁.getLast? = some q → s'.next q = s.next a ∧ s'.point q = s.point q)
    (hother : ∀ q ∈ l₁ ++ l₂, l₁.getLast? ≠ some q → s'.cell q = s.cell q)
    (hhead : s'.head = if l₁ = [] then s.next a else s.head) :
    s'.Holds s'.head (l₁ ++ l₂) rest := by
  constructor
  · apply h.linked.unlink
    · intro q hq
      exact (hlast q hq).1
    · intro q hq hne
      rw [next, next, hother q hq hne]
    · exact hhead
  · rw [← hrest]
    apply List.map_congr_left
    intro q hq
    by_cases hl : l₁.getLast? = some q
    · exact (hlast q hl).2
    · rw [point, point, hother q hq hl]

theorem Holds.appendFirst (h : s.Holds s.head ps bs) (hhead : s.head = none) (p : Ptr)
    (b : BreakPoint) :
    (⟨Function.update s.cell p (some ⟨b, none⟩), some p⟩ : Breaks).Holds (some p)
      (ps ++ [p]) (bs ++ [b]) := by
  have hps : ps = [] := h.linked.head_eq_none_iff.mp hhead
  subst hps
  refine h.append (Function.update_self ..) (fun q hq => ?_) (fun q hq => ?_) (by rw [if_pos rfl])
  · cases hq
  · cases hq

theorem Holds.appendLast (h : s.Holds s.head ps bs) {p last : Ptr} (hp : p ∉ ps)
    (hlast : ps.getLast? = some last) {c : Cell} (hc : s.cell last = some c) (b : BreakPoint) :
    ({ s with
      cell := Function.update (Function.update s.cell last (some { c with next := some p })) p
        (some ⟨b, none⟩) } : Breaks).Holds s.head (ps ++ [p]) (bs ++ [b]) := by
  have hmem := List.mem_of_getLast? hlast
  have hne : last ≠ p := fun he => hp (he ▸ hmem)
  apply h.append
  · exact Function.update_self ..
  · intro q hq
    obtain rfl := Option.some.inj (hlast.symm.trans hq)
    simp [next, point, Function.update_of_ne hne, hc]
  · intro q hq hne'
    have hqp : q ≠ p := fun he => hp (he ▸ hq)
    have hql : q ≠ last := fun he => hne' (he ▸ hlast)
    change Function.update _ _ _ _ = _
    rw [Function.update_of_ne hqp, Function.update_of_ne hql]
  · rw [if_neg]
    intro hnil
    rw [hnil] at hmem
    cases hmem

theorem Holds.removeFirst {p : Ptr} {tail : List Ptr} {c : Cell} (h : s.Holds s.head (p :: tail) bs)
    (hc : s.cell p = some c) {rest : List BreakPoint} (hrest : tail.map s.point = rest.map some) :
    (⟨Function.update s.cell p none, c.next⟩ : Breaks).Holds c.next tail rest := by
  have hnd := List.nodup_cons.mp h.linked.nodup
  have h' : s.Holds s.head ([] ++ p :: tail) bs := h
  change Holds _ _ ([] ++ tail) _
  apply h'.remove hrest
  · intro q hq
    cases hq
  · intro q hq _
    have hqp : q ≠ p := fun he => hnd.1 (he ▸ hq)
    exact Function.update_of_ne hqp _ _
  · rw [if_pos rfl, Breaks.next, hc]
    rfl

theorem Holds.removeAfter {l₁ l₂ : List Ptr} {q del : Ptr} {c d : Cell}
    (h : s.Holds s.head (l₁ ++ q :: del :: l₂) bs) (hc : s.cell q = some c)
    (hd : s.cell del = some d) {rest : List BreakPoint}
    (hrest : (l₁ ++ q :: l₂).map s.point = rest.map some) :
    ({ s with cell := Function.update (Function.update s.cell q
      (some { c with next := d.next })) del none } :
      Breaks).Holds s.head (l₁ ++ q :: l₂) rest := by
  have happ : l₁ ++ q :: del :: l₂ = (l₁ ++ [q]) ++ del :: l₂ := by simp
  have happ' : l₁ ++ q :: l₂ = (l₁ ++ [q]) ++ l₂ := by simp
  rw [happ] at h
  rw [happ'] at hrest ⊢
  have hnd := List.nodup_append.mp h.linked.nodup
  have hdel : ∀ x ∈ (l₁ ++ [q]) ++ l₂, x ≠ del := by
    intro x hx he
    rw [he] at hx
    cases List.mem_append.mp hx with
    | inl hx => exact hnd.2.2 del hx del List.mem_cons_self rfl
    | inr hx => exact (List.nodup_cons.mp hnd.2.1).1 hx
  have hqd : q ≠ del := hdel q (by simp)
  apply h.remove hrest
  · intro x hx
    obtain rfl : q = x := by simpa using hx
    simp [Breaks.next, point, Function.update_of_ne hqd, hc, hd]
  · intro x hx hne
    have hxq : x ≠ q := fun he => hne (by simp [he])
    change Function.update _ _ _ _ = _
    rw [Function.update_of_ne (hdel x hx), Function.update_of_ne hxq]
  · rw [if_neg (by simp)]

/-- `AddBreakPoint` does to the cells what the list function does to the list. -/
theorem Holds.addBreakPoint (h : s.Holds s.head ps bs) {p : Ptr} (hp : s.cell p = none) (id : Int)
    (addr : Addr) (code : Byte) :
    ∃ s' ps', Converges (s.addBreakPoint p id addr code)
      ((Sdb.addBreakPoint bs id addr code).1, s') ∧
      s'.Holds s'.head ps' (Sdb.addBreakPoint bs id addr code).2 ∧
      ((Sdb.addBreakPoint bs id addr code).1 ≠ 0 → s' = s) := by
  have hex := h.breakPointExist_converges id addr
  have hpps : p ∉ ps := fun hmem => by
    obtain ⟨c, hc⟩ := h.mem hmem
    rw [hp] at hc
    cases hc
  rw [Sdb.addBreakPoint]
  by_cases hret : Sdb.breakPointExist bs id addr ≠ 0
  · rw [if_pos hret]
    refine ⟨s, ps, ?_, h, fun _ => rfl⟩
    apply hex.bind
    simp only [if_pos hret]
    exact .pure _
  · rw [if_neg hret]
    cases hhead : s.head with
    | none =>
      refine ⟨⟨Function.update s.cell p (some ⟨⟨id, addr, code⟩, none⟩), some p⟩, ps ++ [p], ?_,
        h.appendFirst hhead p _, fun h0 => absurd rfl h0⟩
      apply hex.bind
      simp only [if_neg hret, hhead]
      exact .pure _
    | some cur =>
      obtain ⟨last, hlast, hconv⟩ := (hhead ▸ h).lastCell_converges
      obtain ⟨c, hc⟩ := h.mem (List.mem_of_getLast? hlast)
      refine ⟨{ s with
        cell := Function.update (Function.update s.cell last (some { c with next := some p })) p
          (some ⟨⟨id, addr, code⟩, none⟩) }, ps ++ [p], ?_, h.appendLast hpps hlast hc _,
          fun h0 => absurd rfl h0⟩
      apply hex.bind
      simp only [if_neg hret, hhead]
      apply hconv.bind
      simp only [hc]
      exact .pure _

/-- `DeleteBreakPoint` does to the cells what the list function does to the list. -/
theorem Holds.deleteBreakPoint (h : s.Holds s.head ps bs) (id : Int) (out : Addr × Byte) :
    match Sdb.deleteBreakPoint bs id with
    | none => Converges (s.deleteBreakPoint id out) (-1, out, s)
    | some (d, rest) =>
      ∃ s' ps', Converges (s.deleteBreakPoint id out) (0, (d.addr, d.origCode), s') ∧
      s'.Holds s'.head ps' rest := by
  cases bs with
  | nil =>
    obtain ⟨hhead, _⟩ := h.nil
    apply Converges.of_eq
    intro k
    rw [Breaks.deleteBreakPoint, hhead]
  | cons b bs =>
    obtain ⟨p, tail, next, hhead, rfl, hp, ht⟩ := h.cons
    have hfind := (hhead ▸ h).findBefore_converges id
    rw [Sdb.deleteBreakPoint]
    by_cases hid : b.id = id
    · rw [if_pos hid]
      refine ⟨⟨Function.update s.cell p none, next⟩, tail, ?_, h.removeFirst hp ht.points⟩
      apply Converges.of_eq
      intro k
      rw [Breaks.deleteBreakPoint, hhead]
      simp [hp, hid]
    · rw [if_neg hid]
      have hwalk : ∀ k, s.deleteBreakPoint id out k = (s.findBefore id k p).bind fun found =>
          match found with
          | none => some (-1, out, s)
          | some cur => (s.cell cur).bind fun c => c.next.bind fun del => (s.cell del).map fun d =>
            (0, (d.addr, d.origCode),
              { s with cell := Function.update (Function.update s.cell cur
                (some { c with next := d.next })) del none }) := by
        intro k
        rw [Breaks.deleteBreakPoint, hhead]
        change (s.cell p).bind _ = _
        rw [hp, Option.bind_some, if_neg hid]
      cases hd : Sdb.deleteBreakPoint bs id with
      | none =>
        rw [hd] at hfind
        rw [funext hwalk]
        exact hfind.bind (.pure _)
      | some r =>
        rw [hd] at hfind
        obtain ⟨l₁, q, del, l₂, hps, hq, hdel, hpts, hconv⟩ := hfind
        obtain ⟨c, hc, hcn⟩ := Option.bind_eq_some_iff.mp hq
        obtain ⟨d, hdc, hdr⟩ := Option.map_eq_some_iff.mp hdel
        rw [hps] at h
        refine ⟨{ s with
          cell := Function.update (Function.update s.cell q (some { c with next := d.next }))
            del none }, l₁ ++ q :: l₂, ?_, h.removeAfter hc hdc hpts⟩
        rw [funext hwalk]
        apply hconv.bind
        simp only [hc, Option.bind_some, hcn, hdc, Option.map_some, ← hdr]
        exact .pure _

end Update

end Breaks

theorem breakPointExist_cases (bs : List BreakPoint) (id : Int) (addr : Addr) :
    (breakPointExist bs id addr = 0 ∧ ∀ b ∈ bs, b.id ≠ id ∧ b.addr ≠ addr) ∨
    (breakPointExist bs id addr = 1 ∧ ∃ b ∈ bs, b.id = id) ∨
    (breakPointExist bs id addr = 2 ∧ ∃ b ∈ bs, b.addr = addr) := by
  induction bs with
  | nil => exact .inl ⟨rfl, by simp⟩
  | cons b bs ih =>
    rw [breakPointExist]
    by_cases h1 : b.id = id
    · exact .inr (.inl ⟨if_pos h1, b, List.mem_cons_self, h1⟩)
    · rw [if_neg h1]
      by_cases h2 : b.addr = addr
      · exact .inr (.inr ⟨if_pos h2, b, List.mem_cons_self, h2⟩)
      · rw [if_neg h2]
        simp only [List.forall_mem_cons, List.exists_mem_cons_iff, h1, h2, ne_eq,
          not_false_eq_true, true_and, false_or]
        exact ih

/-- The calls on the list, with what they return. `p` is the cell that
`malloc` gives to `AddBreakPoint`. -/
inductive ListCall where
  | add (p : Ptr) (id : Int) (addr : Addr) (code : Byte) (ret : Int)
  | del (id : Int) (ret : Int) (out : Addr × Byte)
deriving DecidableEq

def ListStep (s : Breaks) : ListCall → Breaks → Prop
  | .add p id addr code ret, s' =>
    s.cell p = none ∧ Converges (s.addBreakPoint p id addr code) (ret, s')
  | .del id ret out, s' => ∃ out₀, Converges (s.deleteBreakPoint id out₀) (ret, out, s')

/-- The list before the first call. -/
def noBreaks : Breaks := ⟨fun _ => none, none⟩

/-- No id and no address twice, and the entries stand in the order of the calls that have put them
there; none has been deleted since. -/
structure OrderedSet (cs : List ListCall) (bs : List BreakPoint) : Prop where
  ids : (bs.map (·.id)).Nodup
  addrs : (bs.map (·.addr)).Nodup
  order : ∃ time : BreakPoint → Nat, bs.Pairwise (fun b b' => time b < time b') ∧
    ∀ b ∈ bs, (∃ p, cs[time b]? = some (.add p b.id b.addr b.origCode 0)) ∧
      ∀ t, time b < t → ∀ out, cs[t]? ≠ some (.del b.id 0 out)

namespace OrderedSet

variable {cs : List ListCall} {bs : List BreakPoint}

theorem snoc (h : OrderedSet cs bs) {c : ListCall} (hc : ∀ b ∈ bs, ∀ out, c ≠ .del b.id 0 out) :
    OrderedSet (cs ++ [c]) bs := by
  obtain ⟨time, hsorted, htime⟩ := h.order
  refine ⟨h.ids, h.addrs, time, hsorted, ?_⟩
  intro b hb
  obtain ⟨⟨p, hp⟩, hlater⟩ := htime b hb
  obtain ⟨hlt, _⟩ := List.getElem?_eq_some_iff.mp hp
  refine ⟨⟨p, by rw [List.getElem?_append_left hlt]; exact hp⟩, ?_⟩
  intro t ht out heq
  by_cases hlen : t < cs.length
  · rw [List.getElem?_append_left hlen] at heq
    exact hlater t ht out heq
  · obtain ⟨_, hget⟩ := List.getElem?_eq_some_iff.mp heq
    rw [List.getElem_append_right (by omega)] at hget
    exact hc b hb out (by simpa using hget)

theorem sublist (h : OrderedSet cs bs) {bs' : List BreakPoint} (hs : bs'.Sublist bs) :
    OrderedSet cs bs' := by
  obtain ⟨time, hsorted, htime⟩ := h.order
  exact ⟨h.ids.sublist (hs.map _), h.addrs.sublist (hs.map _), time, hsorted.sublist hs,
    fun b hb => htime b (hs.subset hb)⟩

theorem added (h : OrderedSet cs bs) {p : Ptr} {id : Int} {addr : Addr} {code : Byte}
    (hnew : ∀ b ∈ bs, b.id ≠ id ∧ b.addr ≠ addr) :
    OrderedSet (cs ++ [.add p id addr code 0]) (bs ++ [⟨id, addr, code⟩]) := by
  have hold := h.snoc (c := .add p id addr code 0) (fun b _ out => ListCall.noConfusion)
  obtain ⟨time, hsorted, htime⟩ := hold.order
  have hlt : ∀ b ∈ bs, time b < cs.length := by
    intro b hb
    obtain ⟨⟨q, hq⟩, _⟩ := htime b hb
    obtain ⟨hle, _⟩ := List.getElem?_eq_some_iff.mp hq
    rw [List.length_append, List.length_singleton] at hle
    have hne : time b ≠ cs.length := by
      intro he
      rw [he, List.getElem?_concat_length] at hq
      exact (hnew b hb).1 (ListCall.add.inj (Option.some.inj hq)).2.1.symm
    omega
  have hfresh : (⟨id, addr, code⟩ : BreakPoint) ∉ bs := fun hmem => (hnew _ hmem).1 rfl
  have htime' : ∀ b ∈ bs, Function.update time ⟨id, addr, code⟩ cs.length b = time b := by
    intro b hb
    have hne : b ≠ ⟨id, addr, code⟩ := fun he => hfresh (he ▸ hb)
    exact Function.update_of_ne hne _ _
  constructor
  · rw [List.map_append, List.map_singleton, List.nodup_append]
    refine ⟨h.ids, List.nodup_singleton _, ?_⟩
    intro x hx y hy
    obtain ⟨b, hb, rfl⟩ := List.mem_map.mp hx
    rw [List.mem_singleton.mp hy]
    exact (hnew b hb).1
  · rw [List.map_append, List.map_singleton, List.nodup_append]
    refine ⟨h.addrs, List.nodup_singleton _, ?_⟩
    intro x hx y hy
    obtain ⟨b, hb, rfl⟩ := List.mem_map.mp hx
    rw [List.mem_singleton.mp hy]
    exact (hnew b hb).2
  · refine ⟨Function.update time ⟨id, addr, code⟩ cs.length, ?_, ?_⟩
    · rw [List.pairwise_append]
      refine ⟨hsorted.imp_of_mem ?_, List.pairwise_singleton _ _, ?_⟩
      · intro b b' hb hb' hbb
        rwa [htime' b hb, htime' b' hb']
      · intro b hb b' hb'
        rw [List.mem_singleton.mp hb', Function.update_self, htime' b hb]
        exact hlt b hb
    · intro b hb
      cases List.mem_append.mp hb with
      | inl hb =>
        rw [htime' b hb]
        exact htime b hb
      | inr hb =>
        rw [List.mem_singleton.mp hb, Function.update_self]
        refine ⟨⟨p, List.getElem?_concat_length⟩, ?_⟩
        intro t ht out heq
        obtain ⟨hle, _⟩ := List.getElem?_eq_some_iff.mp heq
        rw [List.length_append, List.length_singleton] at hle
        omega

theorem deleted (h : OrderedSet cs bs) {id : Int} {out : Addr × Byte} {b : BreakPoint}
    {l₁ l₂ : List BreakPoint} (hbs : bs = l₁ ++ b :: l₂) (hid : b.id = id) :
    OrderedSet (cs ++ [.del id 0 out]) (l₁ ++ l₂) := by
  have hsub : (l₁ ++ l₂).Sublist bs := by
    rw [hbs]
    exact (List.Sublist.refl l₁).append (List.sublist_cons_self b l₂)
  apply (h.sublist hsub).snoc
  intro c hc out' heq
  have hnd := h.ids
  rw [hbs, List.map_append, List.map_cons, List.nodup_middle, List.nodup_cons, ← List.map_append]
    at hnd
  apply hnd.1
  rw [hid, (ListCall.del.inj heq).1]
  exact List.mem_map_of_mem hc

end OrderedSet

theorem ListStep.orderedSet {cs : List ListCall} {s : Breaks} (h : Reach ListStep noBreaks cs s) :
    ∃ ps bs, s.Holds s.head ps bs ∧ OrderedSet cs bs := by
  apply h.historyInvariant (I := fun cs s => ∃ ps bs, s.Holds s.head ps bs ∧ OrderedSet cs bs)
  · exact ⟨[], [], ⟨rfl, rfl⟩, List.nodup_nil, List.nodup_nil, fun _ => 0,
      List.Pairwise.nil, by simp⟩
  · intro cs s c s' ⟨ps, bs, hs, hbs⟩ hstep
    cases c with
    | add p id addr code ret =>
      obtain ⟨hp, hconv⟩ := hstep
      obtain ⟨s₁, ps₁, hconv₁, hs₁, hsame⟩ := hs.addBreakPoint hp id addr code
      obtain ⟨rfl, rfl⟩ := Prod.mk.inj (hconv.unique hconv₁)
      refine ⟨ps₁, _, hs₁, ?_⟩
      unfold addBreakPoint
      by_cases hret : breakPointExist bs id addr ≠ 0
      · rw [if_pos hret]
        apply hbs.snoc
        intro b _ out
        exact ListCall.noConfusion
      · rw [if_neg hret]
        exact hbs.added (breakPointExist_eq_zero.mp (not_not.mp hret))
    | del id ret out =>
      obtain ⟨out₀, hconv⟩ := hstep
      have hdel := hs.deleteBreakPoint id out₀
      cases hd : deleteBreakPoint bs id with
      | none =>
        rw [hd] at hdel
        obtain ⟨rfl, hrest⟩ := Prod.mk.inj (hconv.unique hdel)
        obtain ⟨rfl, rfl⟩ := Prod.mk.inj hrest
        refine ⟨ps, bs, hs, hbs.snoc ?_⟩
        intro b _ out heq
        exact absurd (ListCall.del.inj heq).2.1 (by decide)
      | some r =>
        rw [hd] at hdel
        obtain ⟨s₁, ps₁, hconv₁, hs₁⟩ := hdel
        obtain ⟨rfl, hrest⟩ := Prod.mk.inj (hconv.unique hconv₁)
        obtain ⟨rfl, rfl⟩ := Prod.mk.inj hrest
        obtain ⟨hid, l₁, l₂, hsplit, hrest⟩ := deleteBreakPoint_some hd
        refine ⟨ps₁, r.2, hs₁, ?_⟩
        rw [hrest]
        exact hbs.deleted hsplit hid

/-- After any sequence of calls the list is an ordered set keyed by id and by address, and the next
call, whichever it is, returns, says whether it has changed the set, and changes what it says. -/
theorem breakPoints_orderedSet {cs : List ListCall} {s : Breaks}
    (h : Reach ListStep noBreaks cs s) :
    ∃ ps bs, s.Holds s.head ps bs ∧ OrderedSet cs bs ∧
      (∀ p id addr code, s.cell p = none → ∃ ret s', Converges (s.addBreakPoint p id addr code)
        (ret, s') ∧
        (ret = 0 ↔ ∀ b ∈ bs, b.id ≠ id ∧ b.addr ≠ addr) ∧
        (ret = 0 → ∃ ps', s'.Holds s'.head ps' (bs ++ [⟨id, addr, code⟩])) ∧
        (ret ≠ 0 → s' = s ∧ (ret = 1 ∧ (∃ b ∈ bs, b.id = id) ∨ ret = 2 ∧
          ∃ b ∈ bs, b.addr = addr))) ∧
      ∀ id out, ∃ ret out' s', Converges (s.deleteBreakPoint id out) (ret, out', s') ∧
        (ret = 0 ↔ ∃ b ∈ bs, b.id = id) ∧
        (ret = 0 → ∃ l₁ b l₂ ps', bs = l₁ ++ b :: l₂ ∧ b.id = id ∧ out' = (b.addr, b.origCode) ∧
          s'.Holds s'.head ps' (l₁ ++ l₂)) ∧
        (ret ≠ 0 → ret = -1 ∧ out' = out ∧ s' = s) := by
  obtain ⟨ps, bs, hs, hbs⟩ := ListStep.orderedSet h
  refine ⟨ps, bs, hs, hbs, ?_, ?_⟩
  · intro p id addr code hp
    obtain ⟨s', ps', hconv, hs', hsame⟩ := hs.addBreakPoint hp id addr code
    refine ⟨_, s', hconv, ?_⟩
    unfold addBreakPoint at hs' hsame ⊢
    cases breakPointExist_cases bs id addr with
    | inl h0 =>
      rw [if_neg (not_not.mpr h0.1)] at hs' ⊢
      exact ⟨iff_of_true rfl h0.2, fun _ => ⟨ps', hs'⟩, fun hne => absurd rfl hne⟩
    | inr hret =>
      have hne : breakPointExist bs id addr ≠ 0 := by
        cases hret with
        | inl h1 => rw [h1.1]; decide
        | inr h2 => rw [h2.1]; decide
      rw [if_pos hne] at hsame ⊢
      exact ⟨breakPointExist_eq_zero, fun h0 => absurd h0 hne, fun _ => ⟨hsame hne, hret⟩⟩
  · intro id out
    have hdel := hs.deleteBreakPoint id out
    cases hd : deleteBreakPoint bs id with
    | none =>
      rw [hd] at hdel
      have hno := deleteBreakPoint_none.mp hd
      refine ⟨-1, out, s, hdel, ?_, fun h0 => absurd h0 (by decide), fun _ => ⟨rfl, rfl, rfl⟩⟩
      exact iff_of_false (by decide) (fun ⟨b, hb, hid⟩ => hno b hb hid)
    | some r =>
      rw [hd] at hdel
      obtain ⟨s', ps', hconv, hs'⟩ := hdel
      obtain ⟨hid, l₁, l₂, hsplit, hrest⟩ := deleteBreakPoint_some hd
      have hmem : r.1 ∈ bs := by
        rw [hsplit]
        exact List.mem_append_right _ List.mem_cons_self
      refine ⟨0, _, s', hconv, iff_of_true rfl ⟨r.1, hmem, hid⟩, ?_, fun hne => absurd rfl hne⟩
      intro _
      exact ⟨l₁, r.1, l₂, ps', hsplit, hid, rfl, hrest ▸ hs'⟩

/-- Two breakpoints are set and the first is deleted. -/
def twoBreaks : Breaks where
  cell := Function.update (Function.update (Function.update (fun _ => none) 0
    (some ⟨⟨3, 0x400080#64, 0x55#8⟩, none⟩)) 0 (some ⟨⟨3, 0x400080#64, 0x55#8⟩, some 1⟩)) 1
    (some ⟨⟨4, 0x400090#64, 0x48#8⟩, none⟩)
  head := some 0

def oneBreak : Breaks := ⟨Function.update twoBreaks.cell 0 none, some 1⟩

theorem oneBreak_reach : Reach ListStep noBreaks
    [.add 0 3 0x400080#64 0x55#8 0, .add 1 4 0x400090#64 0x48#8 0, .del 3 0 (0x400080#64, 0x55#8)]
      oneBreak := by
  have hfirst : Reach ListStep noBreaks [.add 0 3 0x400080#64 0x55#8 0]
      ⟨Function.update (fun _ => none) 0 (some ⟨⟨3, 0x400080#64, 0x55#8⟩, none⟩), some 0⟩ :=
    Reach.init.snoc ⟨rfl, .succ (g := fun _ => some (0, _)) (fun _ => rfl) (.pure _)⟩
  have hsecond : Reach ListStep noBreaks
      [.add 0 3 0x400080#64 0x55#8 0, .add 1 4 0x400090#64 0x48#8 0] twoBreaks :=
    hfirst.snoc ⟨rfl, .succ (fun _ => rfl) (.succ (g := fun _ => some (0, _))
      (fun _ => rfl) (.pure _))⟩
  exact hsecond.snoc ⟨(0, 0), .of_eq fun _ => rfl⟩

theorem oneBreak_holds {ps : List Ptr} {bs : List BreakPoint}
    (h : oneBreak.Holds oneBreak.head ps bs) :
    bs = [⟨4, 0x400090#64, 0x48#8⟩] := by
  cases bs with
  | nil => cases h.nil.1
  | cons b bs =>
    obtain ⟨p, rest, next, hhead, _, hp, hrest⟩ := h.cons
    obtain rfl := Option.some.inj hhead
    obtain ⟨rfl, rfl⟩ := Cell.mk.inj (Option.some.inj hp)
    cases bs with
    | nil => rfl
    | cons b' bs =>
      obtain ⟨_, _, _, hnext, _⟩ := hrest.cons
      cases hnext

/-- The second breakpoint is left, and a third one at its address is refused. -/
theorem breakPoints_orderedSet_oneBreak :
    (∃ ps, oneBreak.Holds oneBreak.head ps [⟨4, 0x400090#64, 0x48#8⟩]) ∧
    Converges (oneBreak.addBreakPoint 0 5 0x400090#64 0xCC#8) (2, oneBreak) := by
  obtain ⟨ps, bs, hs, _, hadd, _⟩ := breakPoints_orderedSet oneBreak_reach
  obtain rfl := oneBreak_holds hs
  obtain ⟨ret, s', hconv, hzero, _, hsame⟩ := hadd 0 5 0x400090#64 0xCC#8 rfl
  have hne : ret ≠ 0 := fun h => (hzero.mp h _ List.mem_cons_self).2 rfl
  obtain ⟨rfl, hret⟩ := hsame hne
  cases hret with
  | inl hid =>
    obtain ⟨_, b, hb, hid⟩ := hid
    rw [List.mem_singleton.mp hb] at hid
    cases hid
  | inr haddr =>
    obtain ⟨rfl, _⟩ := haddr
    exact ⟨⟨ps, hs⟩, hconv⟩

namespace Program

variable {R : Type}

/-- The address of the memory layout that is meant by address `addr` of a `Break`. -/
def layoutAddr (pg : Program R) (addr : Addr) : Addr :=
  if pg.isRunning then addr else elfToVm addr pg.elftext pg.elftextoff pg.vmtext

/-- A breakpoint with this id can be set at address `a` of the file, which is
`vmAddr` in the memory layout. -/
structure CanBreak (pg : Program R) (id : Int) (vmAddr a : Addr) : Prop where
  inText : pg.elftext ≤ a ∧ a < pg.elftext + pg.textSize
  insn : ∃ i ∈ pg.instructions, i.rip = a
  readable : (peekText pg.tracee.mem vmAddr).isSome
  fresh : ∀ b ∈ pg.breakpoints, b.id ≠ id ∧ b.addr ≠ a

/-- The state with a breakpoint more, which is written to the memory
of a program that is running. -/
def broken (pg : Program R) (vmAddr : Addr) (b : BreakPoint) : Program R :=
  { pg with
    breakpoints := pg.breakpoints ++ [b]
    tracee := if pg.isRunning
      then { pg.tracee with mem := Function.update pg.tracee.mem vmAddr (some 0xcc#8) }
      else pg.tracee }

theorem peekText_headD {m : Mem} {a : Addr} {codes : List Byte} (h : peekText m a = some codes) :
    m a = some (codes.headD 0#8) := by
  have h0 := peekText_getElem? h (i := 0) (by decide)
  have hlen : codes.length = 8 := by simpa using mapM_length h
  cases codes with
  | nil => cases hlen
  | cons c codes => simpa using h0.symm

theorem breakAt_of_canBreak {pg : Program R} {id : Int} (addr : Addr) {vmAddr a : Addr}
    (h : pg.CanBreak id vmAddr a) :
    ∃ v, pg.tracee.mem vmAddr = some v ∧ pg.breakAt id addr vmAddr a =
      (0, pg.broken vmAddr ⟨id, a, v⟩) := by
  obtain ⟨codes, hcodes⟩ := Option.isSome_iff_exists.mp h.readable
  have hin : ¬ (a < pg.elftext ∨ pg.elftext + pg.textSize ≤ a) := by
    rw [not_or, BitVec.not_lt, BitVec.not_le]
    exact h.inText
  have hinsn : ¬ pg.instructions.all (fun i => i.rip != a) = true := by
    simpa using h.insn
  refine ⟨codes.headD 0#8, peekText_headD hcodes, ?_⟩
  rw [breakAt, if_neg hin, if_neg hinsn, hcodes]
  simp only [addBreakPoint, breakPointExist_eq_zero.mpr h.fresh, ne_eq, not_true_eq_false, if_false,
    pokeText_peekText hcodes, broken]
  split
  · rfl
  · rfl

theorem breakAt_of_not_canBreak {pg : Program R} {id : Int} (addr : Addr) {vmAddr a : Addr}
    (h : ¬ pg.CanBreak id vmAddr a) :
    ∃ line, pg.breakAt id addr vmAddr a = (-1, pg.print [line]) := by
  rw [breakAt]
  by_cases hin : a < pg.elftext ∨ pg.elftext + pg.textSize ≤ a
  · rw [if_pos hin]
    exact ⟨_, rfl⟩
  rw [if_neg hin]
  by_cases hinsn : pg.instructions.all (fun i => i.rip != a) = true
  · rw [if_pos hinsn]
    exact ⟨_, rfl⟩
  rw [if_neg hinsn]
  cases hpeek : peekText pg.tracee.mem vmAddr with
  | none => exact ⟨_, rfl⟩
  | some codes =>
    have hex : breakPointExist pg.breakpoints id a ≠ 0 := by
      intro hex
      rw [not_or, BitVec.not_lt, BitVec.not_le] at hin
      exact h ⟨hin, by simpa using hinsn, by rw [hpeek]; rfl, breakPointExist_eq_zero.mp hex⟩
    dsimp only [addBreakPoint]
    rw [if_pos hex]
    split
    · rename_i heq
      exact absurd (Prod.mk.inj heq).1 hex
    · split
      · exact ⟨_, rfl⟩
      · exact ⟨_, rfl⟩

end Program

/-- `Break` succeeds exactly when it may. It then appends one breakpoint, with the byte
that it finds, and changes that byte alone, and only if the program is running; if it
fails it has printed one line. -/
theorem break_exact {R : Type} (pg : Program R) (id : Int) (addr : Addr) :
    ∃ r pg', pg.break_ id addr = (r, pg') ∧
      (r = 0 ↔ pg.stat ≠ .unloaded ∧ pg.CanBreak id (pg.layoutAddr addr) (pg.fileAddr addr)) ∧
      (r = 0 → ∃ v, pg.tracee.mem (pg.layoutAddr addr) = some v ∧
        pg' = pg.broken (pg.layoutAddr addr) ⟨id, pg.fileAddr addr, v⟩) ∧
      (r ≠ 0 → r = -1 ∧ ∃ line, pg' = pg.print [line]) := by
  by_cases hl : pg.stat = .unloaded
  · refine ⟨-1, pg.print [.noProgram], ?_, ?_, fun h => absurd h (by decide),
      fun _ => ⟨rfl, _, rfl⟩⟩
    · rw [Program.break_, if_pos (by simp [Program.isLoaded, hl])]
    · exact iff_of_false (by decide) fun h => h.1 hl
  · have hat : pg.break_ id addr = pg.breakAt id addr (pg.layoutAddr addr) (pg.fileAddr addr) := by
      rw [Program.break_, if_neg (by simp [Program.isLoaded, hl]), Program.layoutAddr,
        Program.fileAddr]
      split
      · rfl
      · rfl
    rw [hat]
    by_cases hcan : pg.CanBreak id (pg.layoutAddr addr) (pg.fileAddr addr)
    · obtain ⟨v, hv, hbreak⟩ := Program.breakAt_of_canBreak addr hcan
      exact ⟨0, _, hbreak, iff_of_true rfl ⟨hl, hcan⟩, fun _ => ⟨v, hv, rfl⟩, fun h => absurd rfl h⟩
    · obtain ⟨line, hbreak⟩ := Program.breakAt_of_not_canBreak addr hcan
      exact ⟨-1, _, hbreak, iff_of_false (by decide) fun h => hcan h.2, fun h =>
        absurd h (by decide),
        fun _ => ⟨rfl, line, rfl⟩⟩

end NctuCourses.Sdb
