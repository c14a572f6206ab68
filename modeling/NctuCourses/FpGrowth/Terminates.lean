import Mathlib.Data.Set.Finite.Lemmas
import Mathlib.Logic.Relation
import Mathlib.Order.Bounds.Basic
import NctuCourses.FpGrowth.Exact
import NctuCourses.FpGrowth.Links

namespace NctuCourses.FpGrowth

open NctuCourses.Lib

namespace FPTree

/-- The node at a place is reached from the root through the children in this many steps. -/
inductive AtDepth (t : FPTree) : Nat → Nat → Prop
  | root : t.AtDepth t.root 0
  | child {i c d : Nat} {n : FPNode} :
    t.AtDepth i d → t.nodes[i]? = some n → c ∈ n.children → t.AtDepth c (d + 1)

/-- The depth of the deepest node. -/
def HasHeight (t : FPTree) (h : Nat) : Prop := IsGreatest {d | ∃ i, t.AtDepth i d} h

/-- `FindPattern` builds `ct` when it is called on `t`: for the items of the header, and only when
`t` is not a single path. -/
def Builds (minSupportCount : Int) (t ct : FPTree) : Prop :=
  Converges (fun k => t.isSinglePath k) false ∧
    ∃ elem ∈ t.header.toList, ∃ c, Converges (fun k => t.collect k (some elem.2) ⟨[], ∅, 0⟩) c ∧
      Converges (fun k => c.tree k minSupportCount) ct

/-- The walks over a tree end: along the nodes of an item, up to the root, and both together as
`FindPattern` makes them, with the walks for the tree that it builds of what they gather. -/
structure WalksEnd (minSupportCount : Int) (t : FPTree) : Prop where
  chains : ∀ x : Int, ∃ l, Linked t.nextOf t.header[x]? l
  parents : ∀ i, t.InTree i → ∀ frequency items counts,
    ∃ r, Converges (fun k => t.climb frequency k (some i) items counts) r
  single : ∃ b, Converges (fun k => t.isSinglePath k) b
  headers : ∀ elem ∈ t.header.toList, ∃ c ct,
    Converges (fun k => t.collect k (some elem.2) ⟨[], ∅, 0⟩) c ∧
      Converges (fun k => c.tree k minSupportCount) ct

end FPTree

section Height

variable {t : FPTree} {ps : List (List Int)} {f : List Int → Int} {p : List Int} {i d : Nat}

theorem Shape.atDepth_of_path (h : Shape t ps f) (hi : ps[i]? = some p) : t.AtDepth i p.length := by
  induction p using List.reverseRecOn generalizing i with
  | nil =>
    rw [(h.root_iff hi).mpr rfl]
    exact .root
  | append_singleton p x ih =>
    obtain ⟨j, n, hj, hn, hc⟩ := h.exists_parent hi
    rw [List.length_append, List.length_singleton]
    exact .child (ih hj) hn hc

theorem Shape.path_of_atDepth (h : Shape t ps f) (hi : t.AtDepth i d) :
    ∃ p, ps[i]? = some p ∧ p.length = d := by
  induction hi with
  | root => exact ⟨[], by rw [h.root]; exact h.first, rfl⟩
  | @child i c d n _ hn hc ih =>
    obtain ⟨p, hp, rfl⟩ := ih
    obtain ⟨q, hq, hqc⟩ := (h.node i p n hp hn).children.mem hc
    obtain ⟨_, x, rfl⟩ := mem_kids.mp hq
    exact ⟨p ++ [x], hqc, by simp⟩

theorem Shape.hasHeight_iff (h : Shape t ps f) :
    t.HasHeight d ↔ IsGreatest {d | ∃ p ∈ ps, p.length = d} d := by
  have hset : {d | ∃ i, t.AtDepth i d} = {d | ∃ p ∈ ps, p.length = d} := by
    ext d
    constructor
    · rintro ⟨i, hi⟩
      obtain ⟨p, hp, hlen⟩ := h.path_of_atDepth hi
      exact ⟨p, List.mem_of_getElem? hp, hlen⟩
    · rintro ⟨p, hp, rfl⟩
      obtain ⟨i, hi⟩ := List.mem_iff_getElem?.mp hp
      exact ⟨i, h.atDepth_of_path hi⟩
  rw [FPTree.HasHeight, hset]

theorem Shape.exists_hasHeight (h : Shape t ps f) : ∃ d, t.HasHeight d := by
  obtain ⟨p, hp, hmax⟩ := Set.exists_max_image {p | p ∈ ps} List.length ps.finite_toSet
    ⟨[], List.mem_of_getElem? h.first⟩
  refine ⟨p.length, h.hasHeight_iff.mpr ⟨⟨p, hp, rfl⟩, ?_⟩⟩
  rintro _ ⟨q, hq, rfl⟩
  exact hmax q hq

/-- A path of the conditional tree of an item is part of what stands
before the item on some path. -/
theorem Shape.conditional_lower (h : Shape t ps f) (cut : Int) {x : Int} {first : Nat}
    (hfirst : t.header[x]? = some first) :
    ∃ c ct cdb, Converges (fun k => t.collect k (some first) ⟨[], ∅, 0⟩) c ∧
      Converges (fun k => c.tree k cut) ct ∧ Represents ct cdb ∧
      ∀ d d', t.HasHeight d → ct.HasHeight d' → d' < d := by
  obtain ⟨c, ct, hcollect, htree, _, _, hrep⟩ := h.conditional_tree cut x
  rw [hfirst] at hcollect
  refine ⟨c, ct, _, hcollect, htree, hrep, fun d d' hd hd' => ?_⟩
  obtain ⟨ps', hshape', hps'⟩ := hrep
  obtain ⟨⟨q, hq, rfl⟩, _⟩ := hshape'.hasHeight_iff.mp hd'
  obtain ⟨_, hmax⟩ := h.hasHeight_iff.mp hd
  -- The root of the new tree needs a path of its own: the item is in the header, so on a path.
  have hbelow : ∃ p, p ++ [x] ∈ ps ∧ q.length ≤ p.length := by
    rcases (hps' q).mp hq with rfl | ⟨e, he, hpre⟩
    · obtain ⟨p, hp⟩ := h.header_iff.mp ⟨first, hfirst⟩
      exact ⟨p, hp, by simp⟩
    · obtain ⟨e', he', rfl⟩ := List.mem_map.mp he
      obtain ⟨p, hp, rfl⟩ := mem_conditional.mp (List.mem_of_mem_filter he')
      exact ⟨p, hp, hpre.length_le.trans (List.length_filter_le _ _)⟩
  obtain ⟨p, hp, hle⟩ := hbelow
  have hlong : (p ++ [x]).length ≤ d := hmax ⟨_, hp, rfl⟩
  simp only [List.length_append, List.length_singleton] at hlong
  omega

end Height

section Run

variable {t ct : FPTree} {db : List (List Int × Int)} {cut : Int} {d : Nat}

theorem Represents.walksEnd (h : Represents t db) (cut : Int) : t.WalksEnd cut := by
  obtain ⟨ps, hshape, _⟩ := h
  refine ⟨fun x => ?_, fun i hi frequency items counts => ?_, ?_, fun elem helem => ?_⟩
  · obtain ⟨l, hl, _⟩ := hshape.chain x
    exact ⟨l, hl⟩
  · obtain ⟨p, hp⟩ := hshape.path_of_inTree hi
    exact ⟨_, hshape.climb frequency hp items counts⟩
  · obtain ⟨b, hb, _⟩ := hshape.isSinglePath
    exact ⟨b, hb⟩
  · obtain ⟨c, ct, _, hcollect, htree, _⟩ :=
      hshape.conditional_lower cut (Std.TreeMap.mem_toList_iff_getElem?_eq_some.mp helem)
    exact ⟨c, ct, hcollect, htree⟩

theorem Represents.exists_hasHeight (h : Represents t db) : ∃ d, t.HasHeight d := by
  obtain ⟨ps, hshape, _⟩ := h
  exact hshape.exists_hasHeight

/-- What `FindPattern` builds is a tree again, and lower. -/
theorem Represents.builds (h : Represents t db) (hb : t.Builds cut ct) :
    (∃ cdb, Represents ct cdb) ∧ ∀ d d', t.HasHeight d → ct.HasHeight d' → d' < d := by
  obtain ⟨ps, hshape, _⟩ := h
  obtain ⟨_, elem, helem, c, hcollect, htree⟩ := hb
  obtain ⟨c', ct', cdb, hcollect', htree', hrep, hlow⟩ :=
    hshape.conditional_lower cut (Std.TreeMap.mem_toList_iff_getElem?_eq_some.mp helem)
  obtain rfl := hcollect.unique hcollect'
  obtain rfl := htree.unique htree'
  exact ⟨⟨cdb, hrep⟩, hlow⟩

theorem Represents.of_builds (h : Represents t db)
    (hrun : Relation.ReflTransGen (FPTree.Builds cut) t ct) :
    ∃ cdb, Represents ct cdb := by
  induction hrun with
  | refl => exact ⟨db, h⟩
  | tail _ hb ih =>
    obtain ⟨_, hrep⟩ := ih
    exact (hrep.builds hb).1

/-- The walk down the first children, with the patterns of the items passed. -/
theorem Shape.pathPatterns_converges {ps : List (List Int)} {f : List Int → Int} (h : Shape t ps f)
    (r : Nat) {i : Nat} {p : List Int} (hi : ps[i]? = some p)
    (hr : ∀ q ∈ ps, q.length ≤ p.length + r) (m : Patterns) :
    ∃ m', Converges (fun k => t.pathPatterns k i m) m' := by
  induction r using Nat.strong_induction_on generalizing p i m with
  | _ r ih =>
    obtain ⟨n, hn, hnode⟩ := h.get hi
    rcases children_cases hnode with ⟨hch, _⟩ | ⟨c, cs, x, qs, hch, _, hc, _⟩
    · refine ⟨m, Converges.succ (fun k => ?_) (Converges.pure m)⟩
      rw [FPTree.pathPatterns, hn, Option.bind_some, hch]
    · obtain ⟨nc, hnc, _⟩ := h.get hc
      obtain ⟨m₁, hadd, _⟩ := addItem_spec nc.item nc.frequency
        (m.insertIfNew {nc.item} nc.frequency)
      have hlong := hr _ (List.mem_of_getElem? hc)
      simp only [List.length_append, List.length_singleton] at hlong
      obtain ⟨m', hconv⟩ := ih (r - 1) (by omega) hc (fun q hq => by
        have := hr q hq
        simp only [List.length_append, List.length_singleton]
        omega) m₁
      refine ⟨m', Converges.succ (fun k => ?_) (hadd.bind hconv)⟩
      rw [FPTree.pathPatterns, hn, Option.bind_some, hch]
      simp only [hnc, Option.bind_some]

/-- The loop over the header ends, when the calls for the conditional trees do. -/
theorem headerPatterns_converges (hends : t.WalksEnd cut) {find : Nat → FPTree → Option Patterns}
    (hfind : ∀ elem ∈ t.header.toList, ∀ c ct,
      Converges (fun k => t.collect k (some elem.2) ⟨[], ∅, 0⟩) c → Converges
      (fun k => c.tree k cut) ct → ∃ m, Converges (fun k => find k ct) m) :
    ∃ m, Converges (fun k => t.headerPatterns k cut (find k)) m := by
  have hloop := Converges.foldlM t.header.toList
    (fun k m elem => (t.collect k (some elem.2) ⟨[], ∅, 0⟩).bind fun c =>
      (c.tree k cut).bind fun conditional =>
        (find k conditional).map (addPatterns elem.1 c.oneItemFrequency m))
    ∅ (fun _ _ => True) trivial ?_
  · obtain ⟨m, hconv, _⟩ := hloop
    exact ⟨m, hconv⟩
  · intro done elem rest m hl _
    have helem : elem ∈ t.header.toList := by simp [hl]
    obtain ⟨c, ct, hcollect, htree⟩ := hends.headers elem helem
    obtain ⟨pattern, hpattern⟩ := hfind elem helem c ct hcollect htree
    exact ⟨_, headerRound hcollect htree hpattern m, trivial⟩

theorem Represents.findPattern_converges (h : Represents t db) (hd : t.HasHeight d) :
    ∃ m, Converges (fun k => findPattern cut k t) m := by
  induction d using Nat.strong_induction_on generalizing t db with
  | _ d ih =>
    have hends := h.walksEnd cut
    obtain ⟨single, hsingle⟩ := hends.single
    have hbranch : ∃ m, Converges (fun k => if single then t.pathPatterns k t.root ∅
        else t.headerPatterns k cut (findPattern cut k)) m := by
      cases single with
      | true =>
        obtain ⟨ps, hshape, _⟩ := h
        obtain ⟨_, hmax⟩ := hshape.hasHeight_iff.mp hd
        have hroot : ps[t.root]? = some [] := by
          rw [hshape.root]
          exact hshape.first
        exact hshape.pathPatterns_converges d hroot (fun q hq => by
          rw [List.length_nil, zero_add]
          exact hmax ⟨q, hq, rfl⟩) ∅
      | false =>
        refine headerPatterns_converges hends fun elem helem c ct hcollect htree => ?_
        obtain ⟨⟨cdb, hrep⟩, hlow⟩ := h.builds ⟨hsingle, elem, helem, c, hcollect, htree⟩
        obtain ⟨d', hd'⟩ := hrep.exists_hasHeight
        exact ih d' (hlow d d' hd hd') hrep hd'
    obtain ⟨m, hconv⟩ := hbranch
    refine ⟨m, Converges.succ (fun k => ?_) (hsingle.bind (g := fun k single => if single then
      t.pathPatterns k t.root ∅ else t.headerPatterns k cut (findPattern cut k)) hconv)⟩
    rw [findPattern]

end Run

/-- `FindPattern` returns on the tree that any calls of `InsertNodes` make: in every tree that it
comes to the walks end, and what it builds of that tree is lower. The items of a call may repeat and
need no order; none is the mark of the root. -/
theorem findPattern_terminates {calls : List (List Int × Int)}
    (hitem : ∀ call ∈ calls, ∀ x ∈ call.1, x ≠ -1) (minSupportCount : Int) :
    ∃ t, Converges (fun k => FPTree.insertCalls k calls) t ∧
      (∀ t', Relation.ReflTransGen (FPTree.Builds minSupportCount) t t' →
        t'.WalksEnd minSupportCount ∧
          ∀ ct, t'.Builds minSupportCount ct → ∃ h h', t'.HasHeight h ∧ ct.HasHeight h' ∧ h' < h) ∧
      ∃ patterns, Converges (fun k => findPattern minSupportCount k t) patterns := by
  obtain ⟨t, hconv, ht⟩ := Represents.insertCalls hitem
  refine ⟨t, hconv, fun t' hrun => ?_, ?_⟩
  · obtain ⟨db, hrep⟩ := ht.of_builds hrun
    refine ⟨hrep.walksEnd minSupportCount, fun ct hb => ?_⟩
    obtain ⟨⟨cdb, hcrep⟩, hlow⟩ := hrep.builds hb
    obtain ⟨h, hh⟩ := hrep.exists_hasHeight
    obtain ⟨h', hh'⟩ := hcrep.exists_hasHeight
    exact ⟨h, h', hh, hh', hlow h h' hh hh'⟩
  · obtain ⟨h, hh⟩ := ht.exists_hasHeight
    exact ht.findPattern_converges hh

/-- Two transactions with their common items in different orders, one of them with an item twice. -/
theorem findPattern_terminates_repeated :
    ∃ t ct patterns, Converges (fun k => FPTree.insertCalls k [([1, 2], 1), ([2, 1, 1], 3)]) t ∧
      t.Builds 2 ct ∧ (∃ h h', t.HasHeight h ∧ ct.HasHeight h' ∧ h' < h) ∧
      Converges (fun k => findPattern 2 k t) patterns := by
  obtain ⟨t, hconv, hrun, patterns, hpatterns⟩ :=
    @findPattern_terminates [([1, 2], 1), ([2, 1, 1], 3)] (by decide) 2
  have heval : Converges (fun k => FPTree.insertCalls k [([1, 2], 1), ([2, 1, 1], 3)])
      ((FPTree.insertCalls 2 [([1, 2], 1), ([2, 1, 1], 3)]).getD .empty) := by
    refine ⟨2, fun k hk => ?_⟩
    obtain ⟨j, rfl⟩ := Nat.exists_eq_add_of_le' hk
    rfl
  obtain rfl := hconv.unique heval
  obtain ⟨hends, hlower⟩ := hrun _ .refl
  have hsingle : Converges
      (fun k => ((FPTree.insertCalls 2 [([1, 2], 1), ([2, 1, 1], 3)]).getD .empty).isSinglePath k)
        false := by
    refine ⟨1, fun k hk => ?_⟩
    obtain ⟨j, rfl⟩ := Nat.exists_eq_add_of_le' hk
    rfl
  have hheader : (2, 1) ∈ ((FPTree.insertCalls 2 [([1, 2], 1), ([2, 1, 1], 3)]).getD
      .empty).header.toList := by
    rw [Std.TreeMap.mem_toList_iff_getElem?_eq_some]
    rfl
  obtain ⟨c, ct, hcollect, htree⟩ := hends.headers _ hheader
  have hbuilds : FPTree.Builds 2 _ ct := ⟨hsingle, _, hheader, c, hcollect, htree⟩
  exact ⟨_, ct, patterns, hconv, hbuilds, hlower ct hbuilds, hpatterns⟩

end NctuCourses.FpGrowth
