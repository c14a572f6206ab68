import NctuCourses.FpGrowth.Mine

namespace NctuCourses.FpGrowth

namespace FPTree

/-- What is fixed when a node is made: its item and its parent. -/
def skeleton (t : FPTree) : List (Int × Option Nat) := t.nodes.map fun n => (n.item, n.parent)

variable {t t' : FPTree}

theorem skeleton_modify (t : FPTree) (i : Nat) {g : FPNode → FPNode}
    (hg : ∀ n, (g n).item = n.item ∧ (g n).parent = n.parent) :
    (t.modify i g).skeleton = t.skeleton := by
  apply List.ext_getElem?
  intro j
  rw [skeleton, skeleton, List.getElem?_map, List.getElem?_map, nodes_modify]
  cases t.nodes[j]? with
  | none => rfl
  | some n =>
    by_cases hj : i = j
    · simp [hj, hg n]
    · simp [hj]

theorem skeleton_linkNode {k node : Nat} {x : Int} (h : t.linkNode k x node = some t') :
    t'.skeleton = t.skeleton ∧ t'.root = t.root := by
  rw [linkNode] at h
  split at h
  · obtain ⟨last, _, rfl⟩ := Option.map_eq_some_iff.mp h
    exact ⟨t.skeleton_modify last fun n => ⟨rfl, rfl⟩, rfl⟩
  · obtain rfl := Option.some.inj h
    exact ⟨rfl, rfl⟩

theorem skeleton_insertNode {k cur cur' : Nat} {rep x : Int}
    (h : insertNode k rep (t, cur) x = some (t', cur')) :
    t'.root = t.root ∧ (t'.skeleton = t.skeleton ∨ t'.skeleton = t.skeleton ++ [(x, some cur)]) ∧
      ∃ q, t'.skeleton[cur']? = some (x, q) := by
  rw [insertNode] at h
  obtain ⟨n, _, h⟩ := Option.bind_eq_some_iff.mp h
  split at h
  · obtain ⟨u, hu, h⟩ := Option.map_eq_some_iff.mp h
    obtain ⟨rfl, rfl⟩ := Prod.mk.inj h
    obtain ⟨hsk, hroot⟩ := skeleton_linkNode hu
    have hpush : (t.pushNode ⟨x, rep, some cur, [], none⟩).skeleton = t.skeleton ++
        [(x, some cur)] := by
      simp [skeleton, pushNode]
    have hu := (skeleton_modify u cur (g := fun n =>
      { n with children := n.children ++ [t.nodes.length] })
      fun n => ⟨rfl, rfl⟩).trans (hsk.trans hpush)
    exact ⟨hroot, .inr hu, some cur, by rw [hu]; simp [skeleton]⟩
  next pos hpos =>
    obtain ⟨rfl, rfl⟩ := Prod.mk.inj (Option.some.inj h)
    have hsk := skeleton_modify t pos (g := fun n => { n with frequency := n.frequency + rep })
      fun n => ⟨rfl, rfl⟩
    have hitem := List.find?_some hpos
    rw [hasItem, Option.any_eq_true] at hitem
    obtain ⟨m, hm, hx⟩ := hitem
    exact ⟨rfl, .inl hsk, m.parent, by rw [hsk]; simpa [skeleton, hm] using hx⟩

end FPTree

/-- Up the tree the items ascend, as far as the item that marks the root. -/
structure Ordered (r : Int → Int → Prop) (t : FPTree) : Prop where
  root : ∃ q, t.skeleton[t.root]? = some (-1, q)
  up : ∀ {i j : Nat} {x : Int}, t.skeleton[i]? = some (x, some j) →
    ∃ y q, t.skeleton[j]? = some (y, q) ∧ (y = -1 ∨ r x y)

namespace Ordered

open FPTree

variable {r : Int → Int → Prop} {t t' : FPTree}

theorem empty : Ordered r FPTree.empty where
  root := ⟨none, rfl⟩
  up := by
    intro i x j h
    cases i with
    | zero => simp [skeleton, FPTree.empty] at h
    | succ i => simp [skeleton, FPTree.empty] at h

theorem insertNode (h : Ordered r t) {k cur cur' : Nat} {rep x y : Int} {q : Option Nat}
    (hcur : t.skeleton[cur]? = some (y, q)) (hxy : y = -1 ∨ r x y)
    (hins : FPTree.insertNode k rep (t, cur) x = some (t', cur')) : Ordered r t' := by
  obtain ⟨hroot, hsk, _⟩ := skeleton_insertNode hins
  cases hsk with
  | inl hsk => exact ⟨by rw [hsk, hroot]; exact h.root, by rw [hsk]; exact h.up⟩
  | inr hsk =>
    have hold : ∀ {i : Nat} {e}, t.skeleton[i]? = some e → t'.skeleton[i]? = some e := by
      intro i e he
      rw [hsk, List.getElem?_append_left (List.getElem?_eq_some_iff.mp he).1]
      exact he
    constructor
    · obtain ⟨q₀, hq₀⟩ := h.root
      exact ⟨q₀, by rw [hroot]; exact hold hq₀⟩
    · intro i j z hi
      rw [hsk, List.getElem?_append] at hi
      split at hi
      · obtain ⟨y', q', hj, hz⟩ := h.up hi
        exact ⟨y', q', hold hj, hz⟩
      · obtain ⟨rfl, rfl⟩ : x = z ∧ cur = j := by
          rw [List.getElem?_singleton] at hi
          split at hi
          · simpa using hi
          · cases hi
        exact ⟨y, q, hold hcur, hxy⟩

/-- The loop of `InsertNodes`, along items that descend from the current node's. -/
theorem insertLoop {k cur cur' : Nat} {rep y : Int} {q : Option Nat} {items : List Int}
    (hitems : items.Pairwise fun a b => r b a) (h : Ordered r t)
    (hcur : t.skeleton[cur]? = some (y, q)) (hy : y = -1 ∨ ∀ x ∈ items, r x y)
    (hloop : items.foldlM (FPTree.insertNode k rep) (t, cur) = some (t', cur')) : Ordered r t' := by
  induction items generalizing t cur y q with
  | nil =>
    obtain ⟨rfl, rfl⟩ := Prod.mk.inj (Option.some.inj hloop)
    exact h
  | cons x items ih =>
    rw [List.foldlM_cons] at hloop
    obtain ⟨⟨u, c⟩, hins, hloop⟩ := Option.bind_eq_some_iff.mp hloop
    obtain ⟨hx, hitems⟩ := List.pairwise_cons.mp hitems
    obtain ⟨_, _, q', hc⟩ := skeleton_insertNode hins
    have hu := h.insertNode hcur (hy.imp_right fun hy => hy x (by simp)) hins
    exact ih hitems hu hc (.inr hx) hloop

theorem insertNodes (h : Ordered r t) {k : Nat} {rep : Int} {trans : List Int}
    (htrans : trans.Pairwise r) (hins : t.insertNodes k trans rep = some t') : Ordered r t' := by
  rw [FPTree.insertNodes] at hins
  obtain ⟨⟨u, c⟩, hloop, rfl⟩ := Option.map_eq_some_iff.mp hins
  obtain ⟨q, hq⟩ := h.root
  exact insertLoop (List.pairwise_reverse.mpr htrans) h hq (.inl rfl) hloop

/-- Both passes build their tree by a loop that inserts what it makes of each transaction. -/
theorem insertAll {α : Type} {k : Nat} {prepare : α → Option (List Int)} {rep : α → Int}
    {l : List α} (hl : ∀ a ∈ l, ∀ out, prepare a = some out → out.Pairwise r) (h : Ordered r t)
    (hins : l.foldlM (fun t a => (prepare a).bind fun out => t.insertNodes k out (rep a)) t =
      some t') :
    Ordered r t' := by
  induction l generalizing t with
  | nil =>
    obtain rfl := Option.some.inj hins
    exact h
  | cons a l ih =>
    rw [List.foldlM_cons] at hins
    obtain ⟨u, hu, hins⟩ := Option.bind_eq_some_iff.mp hins
    obtain ⟨out, hout, hu⟩ := Option.bind_eq_some_iff.mp hu
    exact ih (fun a' ha' => hl a' (by simp [ha'])) (h.insertNodes (hl a (by simp) out hout) hu) hins

theorem climb (htrans : ∀ x y z, r x y → r y z → r x z) (h : Ordered r t) {frequency : Int}
    {k : Nat} {cur : Option Nat} {items items' : List Int} {counts counts' : Std.TreeMap Int Int}
    (hcur : ∀ j, cur = some j → ∃ y q, t.skeleton[j]? = some (y, q) ∧ (y = -1 ∨ ∀ x ∈ items, r x y))
    (hitems : items.Pairwise r)
    (hclimb : t.climb frequency k cur items counts = some (items', counts')) :
    items'.Pairwise r := by
  induction k generalizing cur items counts with
  | zero => cases hclimb
  | succ k ih =>
    rw [FPTree.climb] at hclimb
    obtain ⟨n, hn, hstep⟩ := Option.bind_eq_some_iff.mp hclimb
    obtain ⟨j, rfl, hj⟩ := Option.bind_eq_some_iff.mp hn
    have hsk : t.skeleton[j]? = some (n.item, n.parent) := by simp [skeleton, hj]
    split at hstep
    · obtain ⟨rfl, rfl⟩ := Prod.mk.inj (Option.some.inj hstep)
      exact hitems
    next hitem =>
      obtain ⟨y, q, hy, hr⟩ := hcur j rfl
      obtain ⟨rfl, rfl⟩ : n.item = y ∧ n.parent = q := by simpa [hsk] using hy
      have hr := hr.resolve_left hitem
      refine ih ?_ ?_ hstep
      · intro j' hj'
        rw [hj'] at hsk
        obtain ⟨z, q, hz, hzr⟩ := h.up hsk
        refine ⟨z, q, hz, hzr.imp_right fun hzr x hx => ?_⟩
        cases List.mem_append.mp hx with
        | inl hx => exact htrans _ _ _ (hr x hx) hzr
        | inr hx => rwa [List.mem_singleton.mp hx]
      · rw [List.pairwise_append]
        exact ⟨hitems, by simp, by simpa using hr⟩

end Ordered

theorem FPTree.climb_counts {t : FPTree} {frequency : Int} {k : Nat} {cur : Option Nat}
    {items items' : List Int} {counts counts' : Std.TreeMap Int Int}
    (hitems : ∀ x ∈ items, x ∈ counts)
    (h : t.climb frequency k cur items counts = some (items', counts')) :
    (∀ x ∈ counts, x ∈ counts') ∧ ∀ x ∈ items', x ∈ counts' := by
  induction k generalizing cur items counts with
  | zero => cases h
  | succ k ih =>
    rw [FPTree.climb] at h
    obtain ⟨n, _, h⟩ := Option.bind_eq_some_iff.mp h
    split at h
    · obtain ⟨rfl, rfl⟩ := Prod.mk.inj (Option.some.inj h)
      exact ⟨fun x hx => hx, hitems⟩
    · have hnew : ∀ x ∈ items ++ [n.item], x ∈ tally frequency counts n.item := by
        intro x hx
        rw [mem_tally]
        cases List.mem_append.mp hx with
        | inl hx => exact .inl (hitems x hx)
        | inr hx => exact .inr (List.mem_singleton.mp hx)
      obtain ⟨hcounts, hout⟩ := ih hnew h
      exact ⟨fun x hx => hcounts x (mem_tally.mpr (.inl hx)), hout⟩

namespace Ordered

open FPTree

variable {r : Int → Int → Prop} {t : FPTree}

/-- What the walk along the nodes of one item collects: ascending items, all of them counted. -/
def Collected (r : Int → Int → Prop) (c : Conditional) : Prop :=
  ∀ e ∈ c.transactions, e.1.Pairwise r ∧ ∀ x ∈ e.1, x ∈ c.frequency

theorem collect (htrans : ∀ x y z, r x y → r y z → r x z) (h : Ordered r t) {k : Nat}
    {cur : Option Nat} {c c' : Conditional} (hc : Collected r c)
    (hcollect : t.collect k cur c = some c') : Collected r c' := by
  induction k generalizing cur c with
  | zero => cases hcollect
  | succ k ih =>
    cases cur with
    | none =>
      obtain rfl := Option.some.inj hcollect
      exact hc
    | some cur =>
      rw [FPTree.collect] at hcollect
      obtain ⟨n, hn, hcollect⟩ := Option.bind_eq_some_iff.mp hcollect
      obtain ⟨⟨items, counts⟩, hclimb, hcollect⟩ := Option.bind_eq_some_iff.mp hcollect
      refine ih ?_ hcollect
      have hstart : ∀ j, n.parent = some j →
          ∃ y q, t.skeleton[j]? = some (y, q) ∧ (y = -1 ∨ ∀ x ∈ ([] : List Int), r x y) := by
        intro j hj
        obtain ⟨y, q, hy, _⟩ := h.up (show t.skeleton[cur]? = some
          (n.item, some j) by simp [skeleton, hn, hj])
        exact ⟨y, q, hy, .inr (by simp)⟩
      have hsorted := h.climb htrans hstart List.Pairwise.nil hclimb
      obtain ⟨hcounts, hitems⟩ := climb_counts (by simp) hclimb
      have hold : ∀ e ∈ c.transactions, e.1.Pairwise r ∧ ∀ x ∈ e.1, x ∈ counts := fun e he =>
        ⟨(hc e he).1, fun x hx => hcounts x ((hc e he).2 x hx)⟩
      intro e he
      dsimp only at he
      split at he
      · exact hold e he
      · cases List.mem_append.mp he with
        | inl he => exact hold e he
        | inr he =>
          obtain rfl := List.mem_singleton.mp he
          exact ⟨hsorted, hitems⟩

theorem Collected.keep {c : Conditional} (hc : Collected r c) (min : Int) {e : List Int × Int}
    (he : e ∈ c.transactions) : ∃ tmp, c.keep min e.1 = some tmp ∧ tmp.Pairwise r := by
  obtain ⟨hsorted, hcounted⟩ := hc e he
  have hall : e.1.all c.frequency.contains = true := by
    rw [List.all_eq_true]
    exact hcounted
  exact ⟨_, by rw [Conditional.keep, if_pos hall], hsorted.filter _⟩

theorem Collected.tree {c : Conditional} (hc : Collected r c) {min : Int} {k : Nat} {t' : FPTree}
    (h : c.tree k min = some t') : Ordered r t' := by
  refine insertAll (r := r) ?_ empty h
  intro e he out hout
  obtain ⟨tmp, htmp, hsorted⟩ := hc.keep min he
  rw [htmp] at hout
  obtain rfl := Option.some.inj hout
  exact hsorted

end Ordered

/-- The trees that `FindPattern` comes to from `t₀`: at every depth, one
for each item of the header. -/
inductive Visited (minSupportCount : Int) (t₀ : FPTree) : FPTree → Prop
  | start : Visited minSupportCount t₀ t₀
  | conditional {t t' : FPTree} {item : Int} {first k : Nat} {c : Conditional}
      (h : Visited minSupportCount t₀ t)
      (hfirst : t.header[item]? = some first) (hc : t.collect k (some first) ⟨[], ∅, 0⟩ = some c)
      (ht' : c.tree k minSupportCount = some t') : Visited minSupportCount t₀ t'

theorem Visited.ordered {r : Int → Int → Prop} (htrans : ∀ x y z, r x y → r y z → r x z) {min : Int}
    {t₀ t : FPTree} (h₀ : Ordered r t₀) (h : Visited min t₀ t) : Ordered r t := by
  induction h with
  | start => exact h₀
  | conditional _ _ hc ht' ih => exact (ih.collect htrans (by simp [Ordered.Collected]) hc).tree ht'

/-- The order (frequency, item id). -/
def precedes (transactions : List (List Int)) (x y : Int) : Prop :=
  occurrences transactions {x} < occurrences transactions {y} ∨
    occurrences transactions {x} = occurrences transactions {y} ∧ x < y

section Precedes

variable {transactions : List (List Int)} {fp : FPgrowth}

theorem precedes_trans (x y z : Int) (hxy : precedes transactions x y)
    (hyz : precedes transactions y z) :
    precedes transactions x z := by
  rw [precedes] at *
  omega

theorem precedes_irrefl (x : Int) : ¬ precedes transactions x x := by
  rw [precedes]
  omega

theorem precedes_asymm {x y : Int} (hxy : precedes transactions x y) :
    ¬ precedes transactions y x := by
  rw [precedes] at *
  omega

theorem nodup_of_precedes {out : List Int} (h : out.Pairwise (precedes transactions)) :
    out.Nodup := by
  refine h.imp fun {x y} hxy => ?_
  intro heq
  rw [heq] at hxy
  exact precedes_irrefl y hxy

theorem common_eq {out out' : List Int} (h : out.Pairwise (precedes transactions))
    (h' : out'.Pairwise (precedes transactions)) :
    out.filter (· ∈ out') = out'.filter (· ∈ out) := by
  have hperm : (out.filter (· ∈ out')).Perm (out'.filter (· ∈ out)) := by
    rw [List.perm_ext_iff_of_nodup ((nodup_of_precedes h).filter _)
      ((nodup_of_precedes h').filter _)]
    intro x
    simp [and_comm]
  exact hperm.eq_of_pairwise (fun x y _ _ hxy hyx => absurd hyx (precedes_asymm hxy))
    (h.filter _) (h'.filter _)

theorem frequency_count (hfp : fp.itemFrequency = ∅) (hnd : ∀ trans ∈ transactions, trans.Nodup)
    (x : Int) :
    (transactions.foldl FPgrowth.countItemFrequency fp).itemFrequency.getD x 0 =
      occurrences transactions {x} := by
  rw [FPgrowth.getD_count hnd, hfp, support_once]
  simp

theorem sortAndTrimTransaction_precedes (hfp : fp.itemFrequency = ∅)
    (hnd : ∀ trans ∈ transactions, trans.Nodup) {trans : List Int} (h : trans ∈ transactions) :
    ∃ out, (transactions.foldl FPgrowth.countItemFrequency fp).sortAndTrimTransaction trans =
      some out ∧
      out.Perm (trans.filter fun x => fp.minSupportCount ≤ occurrences transactions {x}) ∧
      out.Pairwise (precedes transactions) := by
  have hall : ∀ x ∈ trans, x ∈ (transactions.foldl FPgrowth.countItemFrequency fp).itemFrequency :=
    fun x hx => (FPgrowth.mem_count x).mpr (.inr ⟨trans, h, hx⟩)
  obtain ⟨out, hout, hmem, hsorted⟩ := FPgrowth.sortAndTrimTransaction_spec (hnd trans h) hall
  have hsorted : out.Pairwise (precedes transactions) := by
    refine hsorted.imp fun {x y} hxy => ?_
    rw [FPgrowth.before_iff, frequency_count hfp hnd, frequency_count hfp hnd] at hxy
    rw [precedes]
    omega
  refine ⟨out, hout, ?_, hsorted⟩
  rw [List.perm_ext_iff_of_nodup (nodup_of_precedes hsorted) ((hnd trans h).filter _)]
  intro x
  rw [hmem, FPgrowth.minSupportCount_count, frequency_count hfp hnd]
  simp

end Precedes

/-- One order for all: the trimmed transactions are in the order (frequency, item id), and so is
every vector that `FindPattern` inserts into a conditional tree, at any depth. -/
theorem sortAndTrimTransaction_order {fp₀ fp : FPgrowth} (hfp₀ : fp₀.itemFrequency = ∅)
    {transactions : List (List Int)} (hnd : ∀ trans ∈ transactions, trans.Nodup)
    (hfp : fp = transactions.foldl FPgrowth.countItemFrequency fp₀) :
    (∀ trans ∈ transactions, ∃ out, fp.sortAndTrimTransaction trans = some out ∧
      out.Perm (trans.filter fun x => fp.minSupportCount ≤ occurrences transactions {x}) ∧
      out.Pairwise (precedes transactions)) ∧
    (∀ trans ∈ transactions, ∀ trans' ∈ transactions, ∀ out out',
      fp.sortAndTrimTransaction trans = some out → fp.sortAndTrimTransaction trans' = some out' →
      out.filter (· ∈ out') = out'.filter (· ∈ out)) ∧
    ∀ k t₀, transactions.foldlM (fun t trans =>
        (fp.sortAndTrimTransaction trans).bind fun trans => t.insertNodes k trans 1)
          FPTree.empty = some t₀ →
      ∀ t, Visited fp.minSupportCount t₀ t → ∀ k (item : Int) first c,
      t.header[item]? = some first →
        t.collect k (some first) ⟨[], ∅, 0⟩ = some c → ∀ tran ∈ c.transactions,
          ∃ tmp, c.keep fp.minSupportCount tran.1 = some tmp ∧
          tmp.Pairwise (precedes transactions) := by
  have hmin : fp.minSupportCount = fp₀.minSupportCount := by
    rw [hfp]
    exact FPgrowth.minSupportCount_count fp₀ transactions
  have hspec : ∀ trans ∈ transactions, ∃ out, fp.sortAndTrimTransaction trans = some out ∧
      out.Perm (trans.filter fun x => fp.minSupportCount ≤ occurrences transactions {x}) ∧
      out.Pairwise (precedes transactions) := by
    intro trans h
    rw [hmin, hfp]
    exact sortAndTrimTransaction_precedes hfp₀ hnd h
  have hsorted : ∀ trans ∈ transactions, ∀ out, fp.sortAndTrimTransaction trans = some out →
      out.Pairwise (precedes transactions) := by
    intro trans h out hout
    obtain ⟨out', hout', _, hsorted⟩ := hspec trans h
    rw [hout] at hout'
    obtain rfl := Option.some.inj hout'
    exact hsorted
  refine ⟨hspec, ?_, ?_⟩
  · intro trans h trans' h' out out' hout hout'
    exact common_eq (hsorted trans h out hout) (hsorted trans' h' out' hout')
  · intro k t₀ ht₀ t ht k' item first c _ hc tran htran
    have hordered := ht.ordered precedes_trans (Ordered.empty.insertAll hsorted ht₀)
    have hcollected := hordered.collect precedes_trans (by simp [Ordered.Collected]) hc
    exact hcollected.keep fp.minSupportCount htran

theorem sortAndTrimTransaction_order_testdata :
    ∃ out, (testdata.foldl FPgrowth.countItemFrequency ⟨3 / 5, 3, 0, ∅⟩).sortAndTrimTransaction
        [0, 2, 3, 5, 6, 8, 12, 15] = some out ∧
      out.Perm [0, 2, 5, 12, 15] ∧ out.Pairwise (precedes testdata) := by
  obtain ⟨hspec, _⟩ := @sortAndTrimTransaction_order ⟨3 / 5, 3, 0, ∅⟩ _ rfl testdata (by decide) rfl
  obtain ⟨out, hout, hperm, hsorted⟩ := hspec [0, 2, 3, 5, 6, 8, 12, 15] (by decide)
  rw [FPgrowth.minSupportCount_count] at hperm
  exact ⟨out, hout, hperm, hsorted⟩

end NctuCourses.FpGrowth
