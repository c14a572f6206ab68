import NctuCourses.Lib.ItemSet
import NctuCourses.FpGrowth.Shape

namespace NctuCourses.FpGrowth

open NctuCourses.Lib

namespace FPTree

variable {t : FPTree} {i : Nat}

theorem nodes_modify (j : Nat) (g : FPNode → FPNode) :
    (t.modify j g).nodes[i]? = (t.nodes[i]?).map fun n => if j = i then g n else n :=
  List.getElem?_modify g j t.nodes i

theorem nodes_pushNode_of_lt {n : FPNode} (h : i < t.nodes.length) :
    (t.pushNode n).nodes[i]? = t.nodes[i]? := List.getElem?_append_left h

theorem nodes_pushNode_self (n : FPNode) : (t.pushNode n).nodes[t.nodes.length]? = some n :=
  List.getElem?_concat_length

theorem nextOf_eq {n : FPNode} (h : t.nodes[i]? = some n) : t.nextOf i = n.next := by
  rw [nextOf, h]
  rfl

/-- What `InsertNodes` does to node `i` when it makes node `len` below node `cur`, and `l` are the
nodes of the same item. -/
def linked (l : List Nat) (len cur i : Nat) (n : FPNode) : FPNode :=
  { n with
    next := if l.getLast? = some i then some len else n.next
    children := if cur = i then n.children ++ [len] else n.children }

theorem linkNode_spec {x : Int} {l : List Nat} (n₀ : FPNode) (h : Linked t.nextOf t.header[x]? l)
    (hl : ∀ i ∈ l, i < t.nodes.length) :
    ∃ t', Converges (fun k => (t.pushNode n₀).linkNode k x t.nodes.length) t' ∧ t'.root = t.root ∧
      t'.nodes.length = t.nodes.length + 1 ∧
      (∀ i, t'.nodes[i]? = ((t.pushNode n₀).nodes[i]?).map fun n =>
        if l.getLast? = some i then { n with next := some t.nodes.length } else n) ∧
      ∀ y, t'.header[y]? = if y = x ∧ l = [] then some t.nodes.length else t.header[y]? := by
  cases hx : t.header[x]? with
  | none =>
    obtain rfl : l = [] := h.head_eq_none_iff.mp hx
    refine ⟨{ t.pushNode n₀ with header := t.header.insertIfNew x t.nodes.length },
      Converges.of_eq fun k => ?_, rfl, by simp [pushNode], fun i => by simp, fun y => ?_⟩
    · rw [linkNode, show (t.pushNode n₀).header[x]? = none from hx]
      rfl
    · have hmem : x ∉ t.header := by simpa using hx
      simp only [Std.TreeMap.getElem?_insertIfNew, Std.compare_eq_iff_eq, hmem, not_false_eq_true,
        and_true, eq_comm (a := x)]
  | some first =>
    rw [hx] at h
    have hpush : Linked (t.pushNode n₀).nextOf (some first) l := by
      refine h.congr fun b hb => ?_
      rw [nextOf, nextOf, nodes_pushNode_of_lt (hl b hb)]
    obtain ⟨last, hlast, hc⟩ := Shape.lastNode hpush fun i hi => by
      have := hl i hi
      simp only [pushNode, List.length_append, List.length_singleton]
      omega
    have hne : l ≠ [] := fun he => by simp [he] at hlast
    refine ⟨(t.pushNode n₀).modify last fun n => { n with next := some t.nodes.length }, ?_, rfl,
      by simp [modify, pushNode], fun i => ?_, fun y => by rw [if_neg fun hy => hne hy.2]; rfl⟩
    · have := hc.map fun last => (t.pushNode n₀).modify last fun n =>
        { n with next := some t.nodes.length }
      simpa only [linkNode, show (t.pushNode n₀).header[x]? = some first from hx] using this
    · rw [nodes_modify, hlast]
      simp only [Option.some.injEq]

end FPTree

namespace Shape

variable {t : FPTree} {ps : List (List Int)} {f : List Int → Int} {p q : List Int} {x rep : Int}
  {cur : Nat}

theorem raise (h : Shape t ps f) {c : Nat} (hc : ps[c]? = some q) :
    Shape (t.modify c fun n => { n with frequency := n.frequency + rep }) ps
      (fun p => f p + if p = q then rep else 0) where
  root := h.root
  first := h.first
  nodup := h.nodup
  unmarked := h.unmarked
  fresh p hp := by
    have hne : p ≠ q := fun he => hp (he ▸ List.mem_of_getElem? hc)
    rw [h.fresh p hp, if_neg hne, add_zero]
  length := by rw [FPTree.modify, List.length_modify, h.length]
  node i p n hp hn := by
    rw [FPTree.nodes_modify] at hn
    obtain ⟨m, hm, rfl⟩ := Option.map_eq_some_iff.mp hn
    have hnode := h.node i p m hp hm
    by_cases hci : c = i
    · subst hci
      obtain rfl := Option.some.inj (hc.symm.trans hp)
      simp only [if_true]
      exact ⟨hnode.item, fun hne => by rw [hnode.frequency hne, if_pos rfl],
        hnode.parent, hnode.children⟩
    · have hne : p ≠ q := fun he => hci (h.place_unique hc (he ▸ hp))
      rw [if_neg hci]
      exact ⟨hnode.item, fun hp0 => by rw [hnode.frequency hp0, if_neg hne, add_zero], hnode.parent,
        hnode.children⟩
  chain x := by
    obtain ⟨l, hl, hat⟩ := h.chain x
    refine ⟨l, hl.congr fun i _ => ?_, hat⟩
    rw [FPTree.nextOf, FPTree.nextOf, FPTree.nodes_modify]
    cases t.nodes[i]? with
    | none => rfl
    | some n =>
      by_cases hci : c = i
      · simp [hci]
      · simp [hci]

theorem chain_lt (h : Shape t ps f) {l : List Nat} {qs : List (List Int)} (hat : At ps l qs) :
    ∀ i ∈ l, i < t.nodes.length := by
  intro i hi
  obtain ⟨q, _, hq⟩ := hat.mem hi
  rw [h.length]
  exact (List.getElem?_eq_some_iff.mp hq).1

/-- What is known of the nodes once a node for `p ++ [x]` has been made. -/
structure Grown (t : FPTree) (l : List Nat) (cur : Nat) (x rep : Int) (t' : FPTree) : Prop where
  root : t'.root = t.root
  length : t'.nodes.length = t.nodes.length + 1
  old : ∀ i, i < t.nodes.length →
    t'.nodes[i]? = (t.nodes[i]?).map (FPTree.linked l t.nodes.length cur i)
  new : t'.nodes[t.nodes.length]? = some ⟨x, rep, some cur, [], none⟩
  header : ∀ y, t'.header[y]? = if y = x ∧ l = [] then some t.nodes.length else t.header[y]?

namespace Grown

variable {l : List Nat} {t' : FPTree}

theorem nextOf_old (hg : Grown t l cur x rep t') {i : Nat} (hi : i < t.nodes.length) :
    t'.nextOf i = if l.getLast? = some i then some t.nodes.length else t.nextOf i := by
  obtain ⟨n, hn⟩ : ∃ n, t.nodes[i]? = some n := ⟨_, List.getElem?_eq_getElem hi⟩
  rw [FPTree.nextOf, FPTree.nextOf, hg.old i hi, hn]
  rfl

theorem nextOf_new (hg : Grown t l cur x rep t') : t'.nextOf t.nodes.length = none :=
  FPTree.nextOf_eq hg.new

theorem chain_self (hg : Grown t l cur x rep t') (hl : Linked t.nextOf t.header[x]? l)
    (hlt : ∀ i ∈ l, i < t.nodes.length) :
    Linked t'.nextOf t'.header[x]? (l ++ [t.nodes.length]) := by
  refine hl.snoc hg.nextOf_new (fun b hb => ?_) (fun b hb hne => ?_) ?_
  · rw [hg.nextOf_old (hlt b (List.mem_of_getLast? hb)), if_pos hb]
  · rw [hg.nextOf_old (hlt b hb), if_neg hne]
  · rw [hg.header]
    simp only [true_and]

theorem chain_of_ne (hg : Grown t l cur x rep t') {y : Int} (hy : y ≠ x) {l' : List Nat}
    (hl' : Linked t.nextOf t.header[y]? l') (hlt : ∀ i ∈ l', i < t.nodes.length)
    (hdis : ∀ i ∈ l', i ∉ l) : Linked t'.nextOf t'.header[y]? l' := by
  rw [hg.header, if_neg fun h => hy h.1]
  refine hl'.congr fun b hb => ?_
  rw [hg.nextOf_old (hlt b hb), if_neg fun h => hdis b hb (List.mem_of_getLast? h)]

end Grown

theorem grow (h : Shape t ps f) (hcur : ps[cur]? = some p) (hx : x ≠ -1) (hnew : p ++ [x] ∉ ps)
    {l : List Nat} (hl : Linked t.nextOf t.header[x]? l) (hat : At ps l (ending ps x)) {t' : FPTree}
    (hg : Grown t l cur x rep t') :
    Shape t' (ps ++ [p ++ [x]]) (fun q => f q + if q = p ++ [x] then rep else 0) where
  root := hg.root.trans h.root
  first := by
    rw [List.getElem?_append_left (List.getElem?_eq_some_iff.mp h.first).1]
    exact h.first
  nodup := by
    rw [List.nodup_append]
    refine ⟨h.nodup, List.nodup_singleton _, fun a ha b hb he => hnew ?_⟩
    rw [← List.mem_singleton.mp hb, ← he]
    exact ha
  unmarked q hq y hy := by
    rcases List.mem_append.mp hq with hq | hq
    · exact h.unmarked q hq y hy
    · obtain rfl := List.mem_singleton.mp hq
      rcases List.mem_append.mp hy with hy | hy
      · exact h.unmarked p (List.mem_of_getElem? hcur) y hy
      · rwa [List.mem_singleton.mp hy]
  fresh q hq := by
    rw [List.mem_append, List.mem_singleton, not_or] at hq
    rw [h.fresh q hq.1, if_neg hq.2, add_zero]
  length := by rw [hg.length, h.length, List.length_append, List.length_singleton]
  node i q n hq hn := by
    rcases Nat.lt_trichotomy i t.nodes.length with hi | rfl | hi
    · rw [List.getElem?_append_left (h.length ▸ hi)] at hq
      rw [hg.old i hi] at hn
      obtain ⟨m, hm, rfl⟩ := Option.map_eq_some_iff.mp hn
      have hnode := h.node i q m hq hm
      have hne : q ≠ p ++ [x] := fun he => hnew (he ▸ List.mem_of_getElem? hq)
      refine ⟨hnode.item, fun h0 => ?_, fun r y hr => ?_, ?_⟩
      · rw [if_neg hne, add_zero]
        exact hnode.frequency h0
      · obtain ⟨j, hj, hpj⟩ := hnode.parent r y hr
        refine ⟨j, hj, ?_⟩
        rw [List.getElem?_append_left (List.getElem?_eq_some_iff.mp hpj).1]
        exact hpj
      · by_cases hc : cur = i
        · subst hc
          obtain rfl := Option.some.inj (hcur.symm.trans hq)
          rw [FPTree.linked, if_pos rfl, kids_snoc_self]
          refine List.rel_append hnode.children.snoc (List.Forall₂.cons ?_ .nil)
          rw [h.length, List.getElem?_concat_length]
        · have hqp : q ≠ p := fun he => hc (h.place_unique hcur (he ▸ hq))
          rw [FPTree.linked, if_neg hc, kids_snoc_of_ne hqp]
          exact hnode.children.snoc
    · rw [h.length, List.getElem?_concat_length] at hq
      obtain rfl := Option.some.inj hq
      obtain rfl := Option.some.inj (hg.new.symm.trans hn)
      refine ⟨by simp, fun _ => ?_, fun r y hr => ⟨cur, rfl, ?_⟩, ?_⟩
      · rw [if_pos rfl, h.fresh _ hnew, zero_add]
      · obtain ⟨rfl, _⟩ := List.append_inj' hr rfl
        rw [List.getElem?_append_left (List.getElem?_eq_some_iff.mp hcur).1]
        exact hcur
      · have hkids : kids (ps ++ [p ++ [x]]) (p ++ [x]) = [] := by
          refine List.eq_nil_iff_forall_not_mem.mpr fun r hr => ?_
          obtain ⟨hr, y, rfl⟩ := mem_kids.mp hr
          rcases List.mem_append.mp hr with hr | hr
          · exact hnew (h.closed hr)
          · have := congrArg List.length (List.mem_singleton.mp hr)
            simp at this
        rw [hkids]
        exact .nil
    · obtain ⟨hlt, _⟩ := List.getElem?_eq_some_iff.mp hn
      rw [hg.length] at hlt
      omega
  chain y := by
    by_cases hy : y = x
    · subst hy
      refine ⟨l ++ [t.nodes.length], hg.chain_self hl (h.chain_lt hat), ?_⟩
      rw [ending_snoc_self]
      refine List.rel_append hat.snoc (List.Forall₂.cons ?_ .nil)
      rw [h.length, List.getElem?_concat_length]
    · obtain ⟨l', hl', hat'⟩ := h.chain y
      refine ⟨l', hg.chain_of_ne hy hl' (h.chain_lt hat') fun i hi hi' => ?_, ?_⟩
      · -- A path has one last item only.
        obtain ⟨q, hq, hqi⟩ := hat'.mem hi
        obtain ⟨q', hq', hqi'⟩ := hat.mem hi'
        obtain rfl := Option.some.inj (hqi.symm.trans hqi')
        have h1 : q.getLast? = some y := by simpa using (List.mem_filter.mp hq).2
        have h2 : q.getLast? = some x := by simpa using (List.mem_filter.mp hq').2
        exact hy (Option.some.inj (h1.symm.trans h2))
      · rw [ending_snoc_of_ne hy]
        exact hat'.snoc

theorem insertNode (rep : Int) (h : Shape t ps f) (hcur : ps[cur]? = some p) (hx : x ≠ -1) :
    ∃ t' cur' ps', Converges (fun k => FPTree.insertNode k rep (t, cur) x) (t', cur') ∧
      Shape t' ps' (fun q => f q + if q = p ++ [x] then rep else 0) ∧ ps'[cur']? = some (p ++ [x]) ∧
      ∀ q, q ∈ ps' ↔ q ∈ ps ∨ q = p ++ [x] := by
  obtain ⟨n, hn, hnode⟩ := h.get hcur
  rcases h.find?_child (x := x) hnode with ⟨hnew, hnone⟩ | ⟨c, hc, hpc⟩
  · obtain ⟨l, hl, hat⟩ := h.chain x
    have hlt := h.chain_lt hat
    obtain ⟨t₁, hconv, hroot, hlen, hnodes, hheader⟩ :=
      FPTree.linkNode_spec ⟨x, rep, some cur, [], none⟩ hl hlt
    have hcurlt : cur < t.nodes.length := by
      rw [h.length]
      exact (List.getElem?_eq_some_iff.mp hcur).1
    have hg : Grown t l cur x rep
        (t₁.modify cur fun n => { n with children := n.children ++ [t.nodes.length] }) := by
      refine ⟨hroot, by rw [FPTree.modify, List.length_modify, hlen], fun i hi => ?_, ?_, hheader⟩
      · rw [FPTree.nodes_modify, hnodes, FPTree.nodes_pushNode_of_lt hi, Option.map_map]
        congr 1
        funext m
        simp only [Function.comp_apply, FPTree.linked]
        split_ifs <;> rfl
      · rw [FPTree.nodes_modify, hnodes, FPTree.nodes_pushNode_self]
        have hlast : l.getLast? ≠ some t.nodes.length := fun he =>
          absurd (hlt _ (List.mem_of_getLast? he)) (by omega)
        simp only [Option.map_some, if_neg hlast, if_neg (Nat.ne_of_lt hcurlt)]
    refine ⟨_, t.nodes.length, ps ++ [p ++ [x]], ?_, h.grow hcur hx hnew hl hat hg,
      ?_, fun q => by simp⟩
    · have := hconv.map fun t₁ =>
        (t₁.modify cur fun n => { n with children := n.children ++ [t.nodes.length] },
          t.nodes.length)
      simpa only [FPTree.insertNode, hn, Option.bind_some, hnone] using this
    · rw [h.length, List.getElem?_concat_length]
  · refine ⟨_, c, ps, Converges.of_eq fun k => ?_, h.raise hpc, hpc, fun q => ⟨.inl, fun hq => ?_⟩⟩
    · rw [FPTree.insertNode, hn, Option.bind_some, hc]
    · rcases hq with hq | rfl
      · exact hq
      · exact List.mem_of_getElem? hpc

theorem congr {g : List Int → Int} (h : Shape t ps f) (he : ∀ p, p ≠ [] → f p = g p) :
    Shape t ps g where
  root := h.root
  first := h.first
  nodup := h.nodup
  unmarked := h.unmarked
  fresh p hp := by
    rw [← he p fun hnil => hp (hnil ▸ List.mem_of_getElem? h.first)]
    exact h.fresh p hp
  length := h.length
  node i p n hp hn := by
    have hnode := h.node i p n hp hn
    exact ⟨hnode.item, fun hne => (hnode.frequency hne).trans (he p hne), hnode.parent,
      hnode.children⟩
  chain := h.chain

end Shape

/-- The loop of `InsertNodes` along a path: `done` is behind it, and
`current_node` is the node of `done`. -/
def Along (ps : List (List Int)) (f : List Int → Int) (rep : Int) (done : List Int)
    (st : FPTree × Nat) : Prop :=
  ∃ ps', Shape st.1 ps' (fun q => f q + if q ≠ [] ∧ q <+: done then rep else 0) ∧
    ps'[st.2]? = some done ∧ ∀ q, q ∈ ps' ↔ q ∈ ps ∨ q <+: done

section Along

variable {t : FPTree} {ps : List (List Int)} {f : List Int → Int} {rep : Int} {done : List Int}
  {st : FPTree × Nat}

theorem Shape.along (h : Shape t ps f) : Along ps f rep [] (t, t.root) := by
  refine ⟨ps, h.congr fun p hp => ?_, ?_, fun q => ?_⟩
  · rw [if_neg fun hq => hp (List.prefix_nil.mp hq.2), add_zero]
  · rw [h.root]
    exact h.first
  · rw [List.prefix_nil]
    refine ⟨.inl, fun hq => hq.elim id ?_⟩
    rintro rfl
    exact List.mem_of_getElem? h.first

theorem Along.step (h : Along ps f rep done st) {x : Int} (hx : x ≠ -1) :
    ∃ st', Converges (fun k => FPTree.insertNode k rep st x) st' ∧
    Along ps f rep (done ++ [x]) st' := by
  obtain ⟨ps₁, hshape, hcur, hps⟩ := h
  obtain ⟨t₂, cur₂, ps₂, hc, hshape₂, hcur₂, hps₂⟩ := hshape.insertNode rep hcur hx
  refine ⟨(t₂, cur₂), hc, ps₂, hshape₂.congr fun p hp => ?_, hcur₂, fun q => ?_⟩
  · by_cases hq : p = done ++ [x]
    · have hlong : ¬ p <+: done := fun hpre => by
        have := hpre.length_le
        rw [hq] at this
        simp at this
      rw [if_neg fun hh => hlong hh.2, if_pos hq, if_pos ⟨hp, hq ▸ List.prefix_rfl⟩, add_zero]
    · simp only [hq, if_false, add_zero, List.prefix_concat_iff, false_or]
  · rw [hps₂, hps, List.prefix_concat_iff, or_assoc, or_comm (a := q <+: done)]

end Along

/-- The tree holds the transactions of `db`, as paths from the root, with their multiplicities. -/
def Represents (t : FPTree) (db : List (List Int × Int)) : Prop :=
  ∃ ps, Shape t ps (prefixWeight db) ∧ ∀ p, p ∈ ps ↔ p = [] ∨ ∃ e ∈ db, p <+: e.1

theorem Represents.empty : Represents FPTree.empty [] := by
  refine ⟨[[]], Shape.empty.congr fun _ _ => rfl, fun p => by simp⟩

theorem Along.represents {ps : List (List Int)} {db : List (List Int × Int)} {rep : Int}
    {path : List Int} {st : FPTree × Nat} (h : Along ps (prefixWeight db) rep path st)
    (hps : ∀ p, p ∈ ps ↔ p = [] ∨ ∃ e ∈ db, p <+: e.1) : Represents st.1 (db ++ [(path, rep)]) := by
  obtain ⟨ps', hshape', -, hps'⟩ := h
  refine ⟨ps', hshape'.congr fun p hp => ?_, fun p => ?_⟩
  · rw [prefixWeight_append]
    simp [prefixWeight, hp]
  · rw [hps', hps]
    simp only [List.mem_append, List.mem_singleton]
    constructor
    · rintro ((rfl | ⟨e, he, hpre⟩) | hpre)
      · exact .inl rfl
      · exact .inr ⟨e, .inl he, hpre⟩
      · exact .inr ⟨_, .inr rfl, hpre⟩
    · rintro (rfl | ⟨e, he | rfl, hpre⟩)
      · exact .inl (.inl rfl)
      · exact .inl (.inr ⟨e, he, hpre⟩)
      · exact .inr hpre

theorem Represents.insertNodes {t : FPTree} {db : List (List Int × Int)} (h : Represents t db)
    {trans : List Int} (hnn : ∀ x ∈ trans, x ≠ -1) (rep : Int) :
    ∃ t', Converges (fun k => t.insertNodes k trans rep) t' ∧
      Represents t' (db ++ [(trans.reverse, rep)]) := by
  obtain ⟨ps, hshape, hps⟩ := h
  obtain ⟨st, hc, hst⟩ := Converges.foldlM trans.reverse (fun k => FPTree.insertNode k rep)
    (t, t.root) (Along ps (prefixWeight db) rep) hshape.along fun done x rest st hl hst =>
      hst.step (hnn x (List.mem_reverse.mp (hl ▸ by simp)))
  exact ⟨st.1, hc.map (·.1), hst.represents hps⟩

end NctuCourses.FpGrowth
