import NctuCourses.Lib.Fuel
import NctuCourses.Lib.Linked
import NctuCourses.FpGrowth.Tree

namespace NctuCourses.FpGrowth

open NctuCourses.Lib

/-- The places in the list are those of the paths. -/
abbrev At (ps : List (List Int)) : List Nat → List (List Int) → Prop :=
  List.Forall₂ fun i p => ps[i]? = some p

/-- The paths that are longer than `p` by one item. -/
def kids (ps : List (List Int)) (p : List Int) : List (List Int) :=
  ps.filter fun q => q ≠ [] ∧ q.dropLast = p

/-- The paths that end in an item. -/
def ending (ps : List (List Int)) (x : Int) : List (List Int) :=
  ps.filter fun q => q.getLast? = some x

/-- Node `n` stands for path `p`, which has frequency `f p`. -/
structure NodeOf (ps : List (List Int)) (f : List Int → Int) (p : List Int) (n : FPNode) :
    Prop where
  item : n.item = p.getLastD (-1)
  frequency : p ≠ [] → n.frequency = f p
  parent : ∀ q x, p = q ++ [x] → ∃ j, n.parent = some j ∧ ps[j]? = some q
  children : At ps n.children (kids ps p)

def FPTree.nextOf (t : FPTree) (i : Nat) : Option Nat := (t.nodes[i]?).bind (·.next)

/-- The tree has one node for each of the paths `ps`, in the order in which they were made; the
nodes of one item are linked in that order. No item is the mark of the root. -/
structure Shape (t : FPTree) (ps : List (List Int)) (f : List Int → Int) : Prop where
  root : t.root = 0
  first : ps[0]? = some []
  nodup : ps.Nodup
  unmarked : ∀ p ∈ ps, ∀ x ∈ p, x ≠ -1
  fresh : ∀ p, p ∉ ps → f p = 0
  length : t.nodes.length = ps.length
  node : ∀ (i : Nat) p n, ps[i]? = some p → t.nodes[i]? = some n → NodeOf ps f p n
  chain : ∀ x, ∃ l, Linked t.nextOf t.header[x]? l ∧ At ps l (ending ps x)

section Paths

variable {ps : List (List Int)} {p q : List Int} {x : Int}

theorem At.snoc {l : List Nat} {qs : List (List Int)} (h : At ps l qs) : At (ps ++ [p]) l qs := by
  refine List.Forall₂.imp (fun i q hi => ?_) h
  obtain ⟨hlt, _⟩ := List.getElem?_eq_some_iff.mp hi
  rw [List.getElem?_append_left hlt]
  exact hi

theorem At.mem {l : List Nat} {qs : List (List Int)} (h : At ps l qs) {i : Nat} (hi : i ∈ l) :
    ∃ q ∈ qs, ps[i]? = some q := by
  induction h with
  | nil => cases hi
  | @cons j q l qs hj _ ih =>
    rcases List.mem_cons.mp hi with rfl | hi
    · exact ⟨q, by simp, hj⟩
    · obtain ⟨q', hq', he⟩ := ih hi
      exact ⟨q', by simp [hq'], he⟩

theorem At.find? {l : List Nat} {qs : List (List Int)} (h : At ps l qs) {P : Nat → Bool}
    {Q : List Int → Bool} (hPQ : ∀ i q, q ∈ qs → ps[i]? = some q → P i = Q q) :
    (l.find? P = none ∧ qs.find? Q = none) ∨
      ∃ i q, l.find? P = some i ∧ qs.find? Q = some q ∧ ps[i]? = some q := by
  induction h with
  | nil => exact .inl ⟨rfl, rfl⟩
  | @cons i q l qs hi _ ih =>
    have hq := hPQ i q (by simp) hi
    cases hP : P i with
    | true =>
      rw [hP] at hq
      exact .inr ⟨i, q, by simp [hP], by simp [← hq], hi⟩
    | false =>
      rw [hP] at hq
      rcases ih fun i q hq => hPQ i q (by simp [hq]) with ⟨h1, h2⟩ | ⟨j, q', h1, h2, h3⟩
      · exact .inl ⟨by simp [hP, h1], by simp [← hq, h2]⟩
      · exact .inr ⟨j, q', by simp [hP, h1], by simp [← hq, h2], h3⟩

theorem mem_kids : q ∈ kids ps p ↔ q ∈ ps ∧ ∃ x, q = p ++ [x] := by
  simp only [kids, List.mem_filter, ne_eq, decide_eq_true_eq, and_congr_right_iff]
  intro _
  constructor
  · rintro ⟨hne, rfl⟩
    exact ⟨q.getLast hne, (List.dropLast_append_getLast hne).symm⟩
  · rintro ⟨x, rfl⟩
    simp

theorem kids_snoc_self : kids (ps ++ [p ++ [x]]) p = kids ps p ++ [p ++ [x]] := by
  simp [kids]

theorem kids_snoc_of_ne (h : q ≠ p) : kids (ps ++ [p ++ [x]]) q = kids ps q := by
  simp [kids, h.symm]

theorem ending_snoc_self : ending (ps ++ [p ++ [x]]) x = ending ps x ++ [p ++ [x]] := by
  simp [ending]

theorem ending_snoc_of_ne {y : Int} (h : y ≠ x) : ending (ps ++ [p ++ [x]]) y = ending ps y := by
  simp [ending, h.symm]

theorem find?_kids (hx : p ++ [x] ∈ ps) :
    (kids ps p).find? (fun q => q.getLast? = some x) = some (p ++ [x]) := by
  cases hf : (kids ps p).find? (fun q => q.getLast? = some x) with
  | none =>
    have := List.find?_eq_none.mp hf _ (mem_kids.mpr ⟨hx, x, rfl⟩)
    simp at this
  | some q =>
    obtain ⟨_, y, rfl⟩ := mem_kids.mp (List.mem_of_find?_eq_some hf)
    have hy : y = x := by simpa using List.find?_some hf
    rw [hy]

theorem find?_kids_none (hx : p ++ [x] ∉ ps) :
    (kids ps p).find? (fun q => q.getLast? = some x) = none := by
  refine List.find?_eq_none.mpr fun q hq hl => hx ?_
  obtain ⟨hmem, y, rfl⟩ := mem_kids.mp hq
  have hy : y = x := by simpa using hl
  rwa [← hy]

end Paths

namespace Shape

variable {t : FPTree} {ps : List (List Int)} {f : List Int → Int} {p q : List Int} {x : Int}
  {i : Nat}

theorem get (h : Shape t ps f) (hi : ps[i]? = some p) :
    ∃ n, t.nodes[i]? = some n ∧ NodeOf ps f p n := by
  obtain ⟨hlt, _⟩ := List.getElem?_eq_some_iff.mp hi
  have hlt' : i < t.nodes.length := h.length ▸ hlt
  exact ⟨t.nodes[i], List.getElem?_eq_getElem hlt', h.node i p _ hi (List.getElem?_eq_getElem hlt')⟩

theorem closed (h : Shape t ps f) (hp : p ++ [x] ∈ ps) : p ∈ ps := by
  obtain ⟨i, hi⟩ := List.mem_iff_getElem?.mp hp
  obtain ⟨n, _, hn⟩ := h.get hi
  obtain ⟨j, _, hj⟩ := hn.parent p x rfl
  exact List.mem_of_getElem? hj

theorem place_unique (h : Shape t ps f) {j : Nat} (hi : ps[i]? = some p) (hj : ps[j]? = some p) :
    i = j := by
  obtain ⟨hlt, _⟩ := List.getElem?_eq_some_iff.mp hi
  exact (List.getElem?_inj hlt h.nodup).mp (hi.trans hj.symm)

theorem find?_child (h : Shape t ps f) {n : FPNode} (hn : NodeOf ps f p n) :
    (p ++ [x] ∉ ps ∧ n.children.find? (t.hasItem x) = none) ∨
      ∃ c, n.children.find? (t.hasItem x) = some c ∧ ps[c]? = some (p ++ [x]) := by
  have hfind := hn.children.find? (P := t.hasItem x) (Q := fun q => q.getLast? = some x)
    fun i q hq hi => by
    obtain ⟨m, hm, hmn⟩ := h.get hi
    obtain ⟨_, y, rfl⟩ := mem_kids.mp hq
    have hitem : m.item = y := by simpa using hmn.item
    simp only [FPTree.hasItem, hm, hitem, Option.any_some, List.getLast?_concat, Option.some.injEq]
    rfl
  by_cases hx : p ++ [x] ∈ ps
  · rw [find?_kids hx] at hfind
    rcases hfind with ⟨_, hnone⟩ | ⟨c, q, hc, hq, hi⟩
    · cases hnone
    · obtain rfl := Option.some.inj hq
      exact .inr ⟨c, hc, hi⟩
  · rw [find?_kids_none hx] at hfind
    rcases hfind with ⟨hnone, _⟩ | ⟨_, _, _, hq, _⟩
    · exact .inl ⟨hx, hnone⟩
    · cases hq

theorem empty : Shape FPTree.empty [[]] (fun _ => 0) where
  root := rfl
  first := rfl
  nodup := List.nodup_singleton _
  unmarked p hp x hx := by
    obtain rfl := List.mem_singleton.mp hp
    cases hx
  fresh _ _ := rfl
  length := rfl
  node i p n hp hn := by
    obtain ⟨hlt, rfl⟩ := List.getElem?_eq_some_iff.mp hp
    obtain rfl : i = 0 := by simpa using hlt
    obtain rfl := Option.some.inj hn
    exact ⟨rfl, fun hne => absurd rfl hne, fun q x he => by simp at he, by simp [kids]⟩
  chain x := by
    refine ⟨[], ?_, by simp [ending]⟩
    exact Std.TreeMap.getElem?_emptyc

theorem lastNode {t : FPTree} {first : Nat} {l : List Nat} (h : Linked t.nextOf (some first) l)
    (hl : ∀ i ∈ l, i < t.nodes.length) :
    ∃ last, l.getLast? = some last ∧ Converges (fun k => t.lastNode k first) last := by
  induction l generalizing first with
  | nil => cases h
  | cons a l ih =>
    obtain ⟨ha, htail⟩ := h
    obtain rfl := Option.some.inj ha
    obtain ⟨n, hn⟩ : ∃ n, t.nodes[first]? = some n :=
      ⟨_, List.getElem?_eq_getElem (hl first (by simp))⟩
    have hnext : t.nextOf first = n.next := by
      rw [FPTree.nextOf, hn]
      rfl
    cases l with
    | nil =>
      rw [hnext] at htail
      refine ⟨first, rfl, Converges.succ (fun k => ?_) (Converges.pure first)⟩
      rw [FPTree.lastNode, hn, Option.bind_some, show n.next = none from htail]
    | cons b l =>
      have hb : t.nextOf first = some b := htail.1
      rw [hb] at htail
      obtain ⟨last, hlast, hc⟩ := ih htail fun i hi => hl i (by simp [hi])
      refine ⟨last, by rwa [List.getLast?_cons_cons], Converges.succ (fun k => ?_) hc⟩
      rw [hnext] at hb
      rw [FPTree.lastNode, hn, Option.bind_some, hb]

end Shape

end NctuCourses.FpGrowth
