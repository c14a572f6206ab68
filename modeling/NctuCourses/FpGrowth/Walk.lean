import NctuCourses.FpGrowth.Growth
import NctuCourses.FpGrowth.Insert

namespace NctuCourses.FpGrowth

open NctuCourses.Lib

section Tally

variable {m : Std.TreeMap Int Int} {x y rep : Int}

theorem tally_eq (m : Std.TreeMap Int Int) (x rep : Int) :
    tally rep m x = m.insert x (m.getD x 0 + rep) ∨
    x ∉ m ∧ tally rep m x = m.insertIfNew x rep := by
  rw [tally]
  cases h : m[x]? with
  | none => exact .inr ⟨by simpa using h, rfl⟩
  | some n => exact .inl (by rw [Std.TreeMap.getD_eq_getD_getElem?, h]; rfl)

theorem getD_tally : (tally rep m x).getD y 0 = m.getD y 0 + if y = x then rep else 0 := by
  rcases tally_eq m x rep with h | ⟨hx, h⟩
  · rw [h, Std.TreeMap.getD_insert]
    by_cases hy : y = x
    · simp [hy]
    · simp [hy, Ne.symm hy]
  · rw [h, Std.TreeMap.getD_insertIfNew]
    by_cases hy : y = x
    · simp [hy, hx, Std.TreeMap.getD_eq_fallback hx]
    · simp [hy, Ne.symm hy]

theorem mem_tally : y ∈ tally rep m x ↔ y ∈ m ∨ y = x := by
  rcases tally_eq m x rep with h | ⟨_, h⟩
  · rw [h, Std.TreeMap.mem_insert, Std.compare_eq_iff_eq, or_comm, eq_comm]
  · rw [h, Std.TreeMap.mem_insertIfNew, Std.compare_eq_iff_eq, or_comm, eq_comm]

theorem getD_foldl_tally (l : List Int) :
    (l.foldl (tally rep) m).getD y 0 = m.getD y 0 + rep * l.count y := by
  induction l generalizing m with
  | nil => simp
  | cons x l ih =>
    rw [List.foldl_cons, ih, getD_tally, List.count_cons]
    by_cases hy : y = x
    · simp only [hy, if_true, beq_self_eq_true, Nat.cast_add, Nat.cast_one, mul_add, mul_one]
      omega
    · simp [hy, Ne.symm hy]

theorem mem_foldl_tally (l : List Int) : y ∈ l.foldl (tally rep) m ↔ y ∈ m ∨ y ∈ l := by
  induction l generalizing m with
  | nil => simp
  | cons x l ih => rw [List.foldl_cons, ih, mem_tally, List.mem_cons, or_assoc]

end Tally

/-- The walk along the nodes of one item, in terms of their paths. -/
def gather (f : List Int → Int) (c : Conditional) (p : List Int) : Conditional where
  transactions :=
    if p.dropLast.reverse.isEmpty then c.transactions
    else c.transactions ++ [(p.dropLast.reverse, f p)]
  frequency := p.dropLast.reverse.foldl (tally (f p)) c.frequency
  oneItemFrequency := c.oneItemFrequency + f p

namespace Shape

variable {t : FPTree} {ps : List (List Int)} {f : List Int → Int}

theorem climb (h : Shape t ps f) (frequency : Int) {q : List Int} {j : Nat} (hj : ps[j]? = some q)
    (items : List Int) (counts : Std.TreeMap Int Int) :
    Converges (fun k => t.climb frequency k (some j) items counts)
      (items ++ q.reverse, q.reverse.foldl (tally frequency) counts) := by
  induction q using List.reverseRecOn generalizing j items counts with
  | nil =>
    obtain ⟨n, hn, hnode⟩ := h.get hj
    refine Converges.succ (fun k => ?_) (Converges.pure _)
    rw [FPTree.climb, Option.bind_some, hn, Option.bind_some, if_pos (by simpa using hnode.item)]
    simp
  | append_singleton q x ih =>
    obtain ⟨n, hn, hnode⟩ := h.get hj
    obtain ⟨i, hparent, hi⟩ := hnode.parent q x rfl
    have hitem : n.item = x := by simpa using hnode.item
    have hx : x ≠ -1 := h.unmarked _ (List.mem_of_getElem? hj) x (by simp)
    have hrest := ih hi (items ++ [x]) (tally frequency counts x)
    rw [List.append_assoc] at hrest
    rw [List.reverse_concat]
    refine Converges.succ (fun k => ?_) hrest
    rw [FPTree.climb, Option.bind_some, hn, Option.bind_some, if_neg (hitem ▸ hx), hparent, hitem]

theorem collect (h : Shape t ps f) {l : List Nat} {qs : List (List Int)} {cur : Option Nat}
    (hl : Linked t.nextOf cur l) (hat : At ps l qs) (hqs : ∀ q ∈ qs, q ≠ []) (c : Conditional) :
    Converges (fun k => t.collect k cur c) (qs.foldl (gather f) c) := by
  induction hat generalizing cur c with
  | nil =>
    obtain rfl : cur = none := hl
    exact Converges.succ (fun k => by rw [FPTree.collect]) (Converges.pure c)
  | @cons i q l qs hi _ ih =>
    obtain ⟨rfl, htail⟩ := hl
    obtain ⟨n, hn, hnode⟩ := h.get hi
    have hq : q ≠ [] := hqs q (by simp)
    obtain ⟨j, hparent, hj⟩ :=
      hnode.parent q.dropLast (q.getLast hq) (List.dropLast_append_getLast hq).symm
    rw [FPTree.nextOf_eq hn] at htail
    have hrest := ih htail (fun q hq => hqs q (by simp [hq])) (gather f c q)
    refine Converges.succ (fun k => ?_) ((h.climb (f q) hj [] c.frequency).bind
      (g := fun k r => t.collect k n.next ⟨if r.1.isEmpty then c.transactions
        else c.transactions ++ [(r.1, f q)], r.2, c.oneItemFrequency + f q⟩) hrest)
    rw [FPTree.collect, hn, Option.bind_some, hparent, hnode.frequency hq]

end Shape

section Gather

variable {f : List Int → Int} {c : Conditional} {y : Int}

theorem transactions_gather (qs : List (List Int)) :
    (qs.foldl (gather f) c).transactions = c.transactions ++
      ((qs.map fun p => (p.dropLast, f p)).filter fun e => e.1 ≠ []).map fun e =>
      (e.1.reverse, e.2) := by
  induction qs generalizing c with
  | nil => simp
  | cons p qs ih =>
    rw [List.foldl_cons, ih, gather]
    by_cases hp : p.dropLast = []
    · simp [hp]
    · simp [hp]

theorem getD_frequency_gather (qs : List (List Int)) :
    (qs.foldl (gather f) c).frequency.getD y 0 =
      c.frequency.getD y 0 + (qs.map fun p => f p * p.dropLast.count y).sum := by
  induction qs generalizing c with
  | nil => simp
  | cons p qs ih =>
    rw [List.foldl_cons, ih, gather, getD_foldl_tally, List.count_reverse, List.map_cons,
      List.sum_cons, add_assoc]

theorem mem_frequency_gather (qs : List (List Int)) :
    y ∈ (qs.foldl (gather f) c).frequency ↔ y ∈ c.frequency ∨ ∃ p ∈ qs, y ∈ p.dropLast := by
  induction qs generalizing c with
  | nil => simp
  | cons p qs ih =>
    rw [List.foldl_cons, ih, gather, mem_foldl_tally, List.mem_reverse]
    simp [or_assoc]

theorem oneItemFrequency_gather (qs : List (List Int)) :
    (qs.foldl (gather f) c).oneItemFrequency = c.oneItemFrequency + (qs.map f).sum := by
  induction qs generalizing c with
  | nil => simp
  | cons p qs ih => rw [List.foldl_cons, ih, gather, List.map_cons, List.sum_cons, add_assoc]

end Gather

theorem Conditional.tree_spec (c : Conditional) (minSupportCount : Int)
    (hc : ∀ e ∈ c.transactions, ∀ y ∈ e.1, y ∈ c.frequency ∧ y ≠ -1) :
    ∃ t, Converges (fun k => c.tree k minSupportCount) t ∧
      Represents t (c.transactions.map fun e =>
        ((e.1.filter fun y => minSupportCount ≤ c.frequency.getD y 0).reverse, e.2)) := by
  have hloop := Converges.foldlM c.transactions
    (fun k t tran => (c.keep minSupportCount tran.1).bind fun tmp => t.insertNodes k tmp tran.2)
    FPTree.empty (fun done t => Represents t (done.map fun e =>
      ((e.1.filter fun y => minSupportCount ≤ c.frequency.getD y 0).reverse, e.2)))
    Represents.empty ?_
  · exact hloop
  · intro done e rest t hl ht
    have he : ∀ y ∈ e.1, y ∈ c.frequency ∧ y ≠ -1 := hc e (by simp [hl])
    obtain ⟨t', hconv, ht'⟩ := ht.insertNodes
      (fun y hy => (he y (List.mem_of_mem_filter hy)).2) e.2
    refine ⟨t', ?_, by rw [List.map_append]; exact ht'⟩
    have hall : e.1.all c.frequency.contains = true := by
      rw [List.all_eq_true]
      exact fun y hy => (he y hy).1
    simpa only [Conditional.keep, hall, if_true, Option.bind_some] using hconv

theorem mem_ending {ps : List (List Int)} {x : Int} {q : List Int} (hq : q ∈ ending ps x) :
    q ∈ ps ∧ q ≠ [] := by
  obtain ⟨hq, hlast⟩ := List.mem_filter.mp hq
  refine ⟨hq, ?_⟩
  rintro rfl
  simp at hlast

/-- The conditional tree of item `x`, for any paths: an item that is on a path more
than once is counted each time. -/
theorem Shape.conditional_tree {t : FPTree} {ps : List (List Int)} {f : List Int → Int}
    (h : Shape t ps f) (minSupportCount x : Int) :
    ∃ c ct, Converges (fun k => t.collect k t.header[x]? ⟨[], ∅, 0⟩) c ∧
      Converges (fun k => c.tree k minSupportCount) ct ∧
      c.oneItemFrequency = ((ending ps x).map f).sum ∧
      (∀ y, c.frequency.getD y 0 = ((ending ps x).map fun p => f p * p.dropLast.count y).sum) ∧
      Represents ct (((conditional ps f x).filter fun e => e.1 ≠ []).map fun e =>
        (e.1.filter fun y => minSupportCount ≤ c.frequency.getD y 0, e.2)) := by
  obtain ⟨l, hl, hat⟩ := h.chain x
  have hcond : ∀ e ∈ ((ending ps x).foldl (gather f) ⟨[], ∅, 0⟩).transactions, ∀ y ∈ e.1,
      y ∈ ((ending ps x).foldl (gather f) ⟨[], ∅, 0⟩).frequency ∧ y ≠ -1 := by
    intro e he y hy
    rw [transactions_gather] at he
    simp only [List.nil_append, List.mem_map, List.mem_filter] at he
    obtain ⟨e', ⟨⟨p, hp, rfl⟩, _⟩, rfl⟩ := he
    have hy : y ∈ p.dropLast := List.mem_reverse.mp hy
    refine ⟨mem_frequency_gather _ |>.mpr (.inr ⟨p, hp, hy⟩), ?_⟩
    exact h.unmarked p (mem_ending hp).1 y ((List.dropLast_sublist p).subset hy)
  obtain ⟨ct, hct, hrep⟩ := Conditional.tree_spec _ minSupportCount hcond
  refine ⟨_, ct, h.collect hl hat (fun q hq => (mem_ending hq).2) _, hct, ?_, fun y => ?_, ?_⟩
  · rw [oneItemFrequency_gather, zero_add]
  · rw [getD_frequency_gather]
    simp only [Std.TreeMap.getD_emptyc, zero_add]
  · rw [transactions_gather, List.nil_append, List.map_map] at hrep
    refine cast (congrArg (Represents ct) (List.map_congr_left fun e _ => ?_)) hrep
    simp only [Function.comp_apply, ← List.filter_reverse, List.reverse_reverse]

/-- The conditional tree of item `x` holds its conditional database, without the items
that are not frequent there. -/
theorem Shape.conditional {t : FPTree} {ps : List (List Int)} {f : List Int → Int}
    (h : Shape t ps f) (hnd : ∀ p ∈ ps, p.Nodup) (minSupportCount x : Int) :
    ∃ c ct, Converges (fun k => t.collect k t.header[x]? ⟨[], ∅, 0⟩) c ∧
      Converges (fun k => c.tree k minSupportCount) ct ∧
      c.oneItemFrequency = support (conditional ps f x) ∅ ∧
      Represents ct (((conditional ps f x).filter fun e => e.1 ≠ []).map fun e =>
        (e.1.filter fun y => minSupportCount ≤ support (Lib.conditional ps f x) {y}, e.2)) := by
  obtain ⟨c, ct, hcollect, htree, hone, hcount, hrep⟩ := h.conditional_tree minSupportCount x
  have hsupport : ∀ y, c.frequency.getD y 0 = support (Lib.conditional ps f x) {y} := by
    intro y
    rw [hcount, support, Lib.conditional, List.map_map]
    refine congrArg List.sum (List.map_congr_left fun p hp => ?_)
    have hdrop : p.dropLast.Nodup := (hnd p (mem_ending hp).1).sublist (List.dropLast_sublist p)
    by_cases hy : y ∈ p.dropLast
    · simp [hy, List.count_eq_one_of_mem hdrop hy]
    · simp [hy, List.count_eq_zero_of_not_mem hy]
  refine ⟨c, ct, hcollect, htree, ?_, ?_⟩
  · rw [hone, support, Lib.conditional, List.map_map]
    refine congrArg List.sum (List.map_congr_left fun p _ => ?_)
    simp
  · simpa only [hsupport] using hrep

end NctuCourses.FpGrowth
