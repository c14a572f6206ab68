import Mathlib.Algebra.BigOperators.Group.List.Basic
import Mathlib.Algebra.Order.BigOperators.Group.List
import Mathlib.Algebra.BigOperators.Ring.Finset
import Mathlib.Algebra.Order.Ring.Int
import Mathlib.Data.List.TakeWhile
import Mathlib.Tactic.Linarith

namespace NctuCourses.Lib

section Support

variable {α : Type*} [DecidableEq α]

/-- How often the items of `S` occur together in a database of transactions with multiplicities. -/
def support (db : List (List α × Int)) (S : Finset α) : Int :=
  (db.map fun e => if ∀ x ∈ S, x ∈ e.1 then e.2 else 0).sum

/-- How often a transaction starts with `p`. -/
def prefixWeight (db : List (List α × Int)) (p : List α) : Int :=
  (db.map fun e => if p <+: e.1 then e.2 else 0).sum

/-- `g` gives the frequent item sets, with their support. -/
def Exact (min : Int) (db : List (List α × Int)) (g : Finset α → Option Int) : Prop :=
  ∀ S n, g S = some n ↔ S.Nonempty ∧ min ≤ support db S ∧ n = support db S

/-- What stands before an item `x` in the transactions, grouped by the
paths `ps` that end in `x`. -/
def conditional (ps : List (List α)) (f : List α → Int) (x : α) : List (List α × Int) :=
  (ps.filter fun p => p.getLast? = some x).map fun p => (p.dropLast, f p)

variable {db : List (List α × Int)} {S T : Finset α}

theorem support_cons (e : List α × Int) :
    support (e :: db) S = (if ∀ x ∈ S, x ∈ e.1 then e.2 else 0) + support db S := by
  simp [support]

theorem prefixWeight_cons (e : List α × Int) (p : List α) :
    prefixWeight (e :: db) p = (if p <+: e.1 then e.2 else 0) + prefixWeight db p := by
  simp [prefixWeight]

theorem prefixWeight_append (db' : List (List α × Int)) (p : List α) :
    prefixWeight (db ++ db') p = prefixWeight db p + prefixWeight db' p := by
  simp [prefixWeight]

theorem support_antitone (hw : ∀ e ∈ db, 0 ≤ e.2) (h : S ⊆ T) : support db T ≤ support db S := by
  refine List.sum_le_sum fun e he => ?_
  have := hw e he
  split_ifs with hT hS hS
  · exact le_rfl
  · exact absurd (fun x hx => hT x (h hx)) hS
  · exact this
  · exact le_rfl

theorem exists_of_support_pos (h : 0 < support db S) : ∃ e ∈ db, ∀ x ∈ S, x ∈ e.1 := by
  by_contra hno
  have h0 : support db S = 0 := by
    refine List.sum_eq_zero fun v hv => ?_
    obtain ⟨e, he, rfl⟩ := List.mem_map.mp hv
    exact if_neg fun hall => hno ⟨e, he, hall⟩
  omega

omit [DecidableEq α] in
theorem one_le_sum_of_mem (hw : ∀ e ∈ db, 1 ≤ e.2) {P : List α × Int → Prop} [DecidablePred P]
    (h : ∃ e ∈ db, P e) : 1 ≤ (db.map fun e => if P e then e.2 else 0).sum := by
  obtain ⟨e, he, hp⟩ := h
  have hle : (if P e then e.2 else 0) ≤ (db.map fun e => if P e then e.2 else 0).sum := by
    refine List.single_le_sum (fun v hv => ?_) _ (List.mem_map_of_mem he)
    obtain ⟨e', he', rfl⟩ := List.mem_map.mp hv
    have := hw e' he'
    split_ifs <;> omega
  rw [if_pos hp] at hle
  have := hw e he
  omega

theorem one_le_prefixWeight (hw : ∀ e ∈ db, 1 ≤ e.2) {p : List α} (h : ∃ e ∈ db, p <+: e.1) :
    1 ≤ prefixWeight db p := one_le_sum_of_mem hw h

theorem one_le_support (hw : ∀ e ∈ db, 1 ≤ e.2) (h : ∃ e ∈ db, ∀ x ∈ S, x ∈ e.1) :
    1 ≤ support db S :=
  one_le_sum_of_mem hw h

theorem support_congr {f : List α → List α}
    (h : ∀ e ∈ db, (∀ x ∈ S, x ∈ f e.1) ↔ ∀ x ∈ S, x ∈ e.1) :
    support (db.map fun e => (f e.1, e.2)) S = support db S := by
  rw [support, support, List.map_map]
  congr 1
  refine List.map_congr_left fun e he => ?_
  simp only [Function.comp_apply, h e he]

theorem support_filter_ne_nil (hS : S.Nonempty) :
    support (db.filter fun e => e.1 ≠ []) S = support db S := by
  induction db with
  | nil => rfl
  | cons e db ih =>
    by_cases he : e.1 = []
    · obtain ⟨x, hx⟩ := hS
      have hno : ¬ ∀ x ∈ S, x ∈ e.1 := fun h => by
        have := h x hx
        simp [he] at this
      rw [List.filter_cons_of_neg (by simp [he]), ih, support_cons, if_neg hno, zero_add]
    · rw [List.filter_cons_of_pos (by simp [he]), support_cons, support_cons, ih]

theorem Exact.of_filter_ne_nil {min : Int} {g : Finset α → Option Int}
    (hg : Exact min (db.filter fun e => e.1 ≠ []) g) : Exact min db g := by
  intro S n
  rw [hg]
  refine and_congr_right fun hS => ?_
  rw [support_filter_ne_nil hS]

/-- Items that are not frequent themselves can be left out of the transactions. -/
theorem Exact.of_restrict {min : Int} (hmin : 1 ≤ min) (hw : ∀ e ∈ db, 0 ≤ e.2)
    {f : List α → List α} (hf : ∀ e ∈ db, ∀ x, x ∈ f e.1 ↔ x ∈ e.1 ∧ min ≤ support db {x})
    {g : Finset α → Option Int} (hg : Exact min (db.map fun e => (f e.1, e.2)) g) :
    Exact min db g := by
  intro S n
  rw [hg]
  by_cases hS : ∀ x ∈ S, min ≤ support db {x}
  · have heq : support (db.map fun e => (f e.1, e.2)) S = support db S := by
      refine support_congr fun e he => ⟨fun h x hx => ((hf e he x).mp (h x hx)).1, fun h x hx => ?_⟩
      exact (hf e he x).mpr ⟨h x hx, hS x hx⟩
    rw [heq]
  · -- Neither database has an item set with an item that is not frequent.
    obtain ⟨x, hx, hlt⟩ : ∃ x ∈ S, support db {x} < min := by simpa using hS
    have hle : support db S ≤ support db {x} := support_antitone hw (by simpa using hx)
    have h0 : ¬ 0 < support (db.map fun e => (f e.1, e.2)) S := by
      intro hpos
      obtain ⟨e', he', hall⟩ := exists_of_support_pos hpos
      obtain ⟨e, he, rfl⟩ := List.mem_map.mp he'
      have := ((hf e he x).mp (hall x hx)).2
      omega
    constructor
    · rintro ⟨_, h, _⟩
      omega
    · rintro ⟨_, h, _⟩
      omega

section Weights

variable {x : α} {ps : List (List α)}

theorem prefixWeight_nil : prefixWeight ([] : List (List α × Int)) = fun _ => 0 := rfl

theorem sum_prefixWeight_cons (e : List α × Int) (qs : List (List α)) :
    (qs.map (prefixWeight (e :: db))).sum =
      (qs.map fun q => if q <+: e.1 then e.2 else 0).sum + (qs.map (prefixWeight db)).sum := by
  rw [← List.sum_map_add]
  exact congrArg List.sum (List.map_congr_left fun q _ => prefixWeight_cons e q)

/-- A transaction passes through at most one of the paths that are longer than `p` by one item. -/
theorem sum_prefix_le {w : Int} (hw : 0 ≤ w) {e p : List α} {qs : List (List α)} (hnd : qs.Nodup)
    (hqs : ∀ q ∈ qs, ∃ y, q = p ++ [y]) :
    (qs.map fun q => if q <+: e then w else 0).sum ≤ if p <+: e then w else 0 := by
  induction qs with
  | nil =>
    rw [List.map_nil, List.sum_nil]
    split_ifs <;> omega
  | cons q qs ih =>
    obtain ⟨hq, hnd⟩ := List.nodup_cons.mp hnd
    have hrest := ih hnd fun r hr => hqs r (by simp [hr])
    obtain ⟨y, rfl⟩ := hqs q (by simp)
    rw [List.map_cons, List.sum_cons]
    by_cases hy : p ++ [y] <+: e
    · have hzero : (qs.map fun r => if r <+: e then w else 0).sum = 0 := by
        refine List.sum_eq_zero fun v hv => ?_
        obtain ⟨r, hr, rfl⟩ := List.mem_map.mp hv
        obtain ⟨z, rfl⟩ := hqs r (by simp [hr])
        refine if_neg fun hz => hq ?_
        have hlen : (p ++ [y]).length = (p ++ [z]).length := by simp
        rwa [(List.prefix_of_prefix_length_le hy hz hlen.le).eq_of_length hlen]
      rw [if_pos hy, if_pos ((List.prefix_append p [y]).trans hy), hzero, add_zero]
    · rw [if_neg hy, zero_add]
      exact hrest

/-- The weights of the paths one item longer than `p` come out of the weight of `p`. -/
theorem sum_prefixWeight_le (hw : ∀ e ∈ db, 0 ≤ e.2) {p : List α} {qs : List (List α)}
    (hnd : qs.Nodup) (hqs : ∀ q ∈ qs, ∃ y, q = p ++ [y]) :
    (qs.map (prefixWeight db)).sum ≤ prefixWeight db p := by
  induction db with
  | nil => simp [prefixWeight_nil]
  | cons e db ih =>
    rw [sum_prefixWeight_cons, prefixWeight_cons]
    exact add_le_add (sum_prefix_le (hw e (by simp)) hnd hqs) (ih fun e he => hw e (by simp [he]))

theorem sum_ite_eq_countP {β : Type*} (P : β → Prop) [DecidablePred P] (w : Int) (l : List β) :
    (l.map fun a => if P a then w else 0).sum = w * l.countP P := by
  induction l with
  | nil => simp
  | cons a l ih =>
    rw [List.map_cons, List.sum_cons, ih, List.countP_cons]
    by_cases ha : P a
    · simp [ha, mul_add, add_comm]
    · simp [ha]

omit [DecidableEq α] in
theorem nodup_inits (e : List α) : e.inits.Nodup := by
  induction e with
  | nil => simp
  | cons a e ih =>
    rw [List.inits_cons, List.nodup_cons]
    exact ⟨by simp, ih.map (List.cons_injective)⟩

/-- A list has as many starts that end in `x` as it has places with `x`. -/
theorem countP_inits (e : List α) : e.inits.countP (fun q => q.getLast? = some x) = e.count x := by
  induction e using List.reverseRecOn with
  | nil => simp
  | append_singleton e y ih =>
    rw [List.inits_append, List.countP_append, ih, List.count_append]
    by_cases hy : y = x
    · simp [hy]
    · simp [hy]

/-- The paths that end in `x` weigh as much as the occurrences of `x`. -/
theorem sum_prefixWeight_ending (hps : ps.Nodup)
    (hin : ∀ e ∈ db, ∀ p, p ≠ [] → p <+: e.1 → p ∈ ps) :
    ((ps.filter fun p => p.getLast? = some x).map (prefixWeight db)).sum =
      (db.map fun e => e.2 * (e.1.count x : Int)).sum := by
  induction db with
  | nil => simp [prefixWeight_nil]
  | cons e db ih =>
    have hperm : ((ps.filter fun p => p.getLast? = some x).filter fun p => p <+: e.1).Perm
        (e.1.inits.filter fun p => p.getLast? = some x) := by
      refine (List.perm_ext_iff_of_nodup ((hps.filter _).filter _) ?_).mpr fun p => ?_
      · exact (nodup_inits e.1).filter _
      · simp only [List.mem_filter, List.mem_inits, decide_eq_true_eq]
        refine ⟨fun h => ⟨h.2, h.1.2⟩, fun h => ⟨⟨hin e (by simp) p ?_ h.1, h.2⟩, h.1⟩⟩
        rintro rfl
        simp at h
    have hone : ((ps.filter fun p => p.getLast? = some x).map
        fun p => if p <+: e.1 then e.2 else 0).sum = e.2 * e.1.count x := by
      rw [sum_ite_eq_countP, List.countP_eq_length_filter, hperm.length_eq,
        ← List.countP_eq_length_filter, countP_inits]
    rw [sum_prefixWeight_cons, hone, ih fun e he => hin e (by simp [he]), List.map_cons,
      List.sum_cons]

end Weights

section Conditional

variable {x : α} {ps : List (List α)}

theorem mem_conditional {f : List α → Int} {e : List α × Int} :
    e ∈ conditional ps f x ↔ ∃ p, p ++ [x] ∈ ps ∧ e = (p, f (p ++ [x])) := by
  simp only [conditional, List.mem_map, List.mem_filter, decide_eq_true_eq]
  constructor
  · rintro ⟨q, ⟨hq, hlast⟩, rfl⟩
    obtain ⟨p, rfl⟩ := List.getLast?_eq_some_iff.mp hlast
    exact ⟨p, hq, by simp⟩
  · rintro ⟨p, hp, rfl⟩
    exact ⟨p ++ [x], ⟨hp, by simp⟩, by simp⟩

theorem conditional_nil_weight : support (conditional ps (fun _ => 0) x) S = 0 := by
  refine List.sum_eq_zero fun v hv => ?_
  obtain ⟨e, he, rfl⟩ := List.mem_map.mp hv
  obtain ⟨p, _, rfl⟩ := List.mem_map.mp he
  simp

theorem support_conditional_add (f g : List α → Int) :
    support (conditional ps (fun p => f p + g p) x) S =
      support (conditional ps f x) S + support (conditional ps g x) S := by
  simp only [support, conditional, List.map_map]
  rw [← List.sum_map_add]
  congr 1
  refine List.map_congr_left fun p _ => ?_
  simp only [Function.comp_apply]
  split_ifs <;> simp

theorem takeWhile_ne_append {q : List α} (hx : x ∈ q) : ∃ t, q = q.takeWhile (· ≠ x) ++ x :: t := by
  induction q with
  | nil => cases hx
  | cons y q ih =>
    by_cases hy : y = x
    · exact ⟨q, by simp [hy]⟩
    · obtain ⟨t, ht⟩ := ih ((List.mem_cons.mp hx).resolve_left fun h => hy h.symm)
      refine ⟨t, ?_⟩
      rw [List.takeWhile_cons_of_pos (by simpa using hy), List.cons_append, ← ht]

theorem takeWhile_ne_of_nodup {q t : List α} (h : (q ++ x :: t).Nodup) :
    (q ++ x :: t).takeWhile (· ≠ x) = q := by
  induction q with
  | nil => simp
  | cons y q ih =>
    obtain ⟨hy, hq⟩ := List.nodup_cons.mp h
    have hne : y ≠ x := fun he => hy (by simp [he])
    rw [List.cons_append, List.takeWhile_cons_of_pos (by simpa using hne), ih hq]

/-- The one path of a transaction without duplicates that ends in `x`. -/
theorem prefix_iff {q p : List α} (hq : q.Nodup) (hp : p.getLast? = some x) :
    p <+: q ↔ x ∈ q ∧ p = q.takeWhile (· ≠ x) ++ [x] := by
  obtain ⟨p', rfl⟩ := List.getLast?_eq_some_iff.mp hp
  constructor
  · rintro ⟨t, rfl⟩
    rw [List.append_assoc, List.singleton_append] at hq ⊢
    exact ⟨by simp, by rw [takeWhile_ne_of_nodup hq]⟩
  · rintro ⟨hx, hp'⟩
    obtain ⟨t, ht⟩ := takeWhile_ne_append hx
    refine ⟨t, ?_⟩
    rw [hp', List.append_assoc, List.singleton_append, ← ht]

/-- What one transaction gives to the conditional database of `x`. -/
theorem support_conditional_single {e : List α × Int} (he : e.1.Nodup) (hps : ps.Nodup)
    (hin : ∀ p, p ≠ [] → p <+: e.1 → p ∈ ps) :
    support (conditional ps (fun p => if p <+: e.1 then e.2 else 0) x) S =
      if x ∈ e.1 ∧ ∀ y ∈ S, y ∈ e.1.takeWhile (· ≠ x) then e.2 else 0 := by
  have hterm : ∀ p ∈ ps.filter (fun p => p.getLast? = some x),
      (if ∀ y ∈ S, y ∈ p.dropLast then (if p <+: e.1 then e.2 else 0) else 0) =
        if p = e.1.takeWhile (· ≠ x) ++ [x] then
          (if x ∈ e.1 ∧ ∀ y ∈ S, y ∈ e.1.takeWhile (· ≠ x) then e.2 else 0) else 0 := by
    intro p hp
    have hlast : p.getLast? = some x := by simpa using (List.mem_filter.mp hp).2
    have hiff := prefix_iff he hlast
    by_cases hp₀ : p = e.1.takeWhile (· ≠ x) ++ [x]
    · by_cases hx : x ∈ e.1
      · rw [if_pos hp₀, if_pos (hiff.mpr ⟨hx, hp₀⟩), hp₀, List.dropLast_concat]
        simp [hx]
      · rw [if_pos hp₀, if_neg fun h => hx (hiff.mp h).1]
        simp [hx]
    · rw [if_neg hp₀, if_neg fun h => hp₀ (hiff.mp h).2, ite_self]
  have hmap : support (conditional ps (fun p => if p <+: e.1 then e.2 else 0) x) S =
      ((ps.filter (fun p => p.getLast? = some x)).map fun p =>
        if p = e.1.takeWhile (· ≠ x) ++ [x] then
          (if x ∈ e.1 ∧ ∀ y ∈ S, y ∈ e.1.takeWhile (· ≠ x) then e.2 else 0) else 0).sum := by
    rw [support, conditional, List.map_map]
    exact congrArg List.sum (List.map_congr_left hterm)
  rw [hmap, ← List.sum_toFinset _ (hps.filter _), Finset.sum_ite_eq']
  by_cases hx : x ∈ e.1
  · obtain ⟨t, ht⟩ := takeWhile_ne_append hx
    have hmem : e.1.takeWhile (· ≠ x) ++ [x] ∈ ps :=
      hin _ (by simp) ⟨t, by rw [List.append_assoc, List.singleton_append, ← ht]⟩
    rw [if_pos (List.mem_toFinset.mpr (List.mem_filter.mpr ⟨hmem, by simp⟩))]
  · simp [hx]

/-- The conditional database of `x` counts the transactions with all of `S` before `x`. -/
theorem support_conditional (hnd : ∀ e ∈ db, e.1.Nodup) (hps : ps.Nodup)
    (hin : ∀ e ∈ db, ∀ p, p ≠ [] → p <+: e.1 → p ∈ ps) :
    support (conditional ps (prefixWeight db) x) S =
      (db.map fun e => if x ∈ e.1 ∧ ∀ y ∈ S, y ∈ e.1.takeWhile (· ≠ x) then e.2 else 0).sum := by
  induction db with
  | nil => exact conditional_nil_weight
  | cons e db ih =>
    have hrest := ih (fun e he => hnd e (by simp [he])) fun e he => hin e (by simp [he])
    have hsplit : conditional ps (prefixWeight (e :: db)) x =
        conditional ps (fun p => (if p <+: e.1 then e.2 else 0) + prefixWeight db p) x := by
      simp only [conditional, prefixWeight_cons]
    rw [hsplit, support_conditional_add, hrest,
      support_conditional_single (hnd e (by simp)) hps (hin e (by simp)), List.map_cons,
      List.sum_cons]

variable {r : α → α → Prop}

/-- Where all transactions are in one order, an item set is counted under its last item. -/
theorem support_conditional_eq (htrans : ∀ a b c, r a b → r b c → r a c) (hirr : ∀ a, ¬ r a a)
    (hsort : ∀ e ∈ db, e.1.Pairwise r) (hps : ps.Nodup)
    (hin : ∀ e ∈ db, ∀ p, p ≠ [] → p <+: e.1 → p ∈ ps) (hS : ∀ y ∈ S, r y x) :
    support (conditional ps (prefixWeight db) x) S = support db (insert x S) := by
  have hnd : ∀ e ∈ db, e.1.Nodup := by
    intro e he
    refine (hsort e he).imp ?_
    rintro a b hab rfl
    exact hirr a hab
  rw [support_conditional hnd hps hin, support]
  congr 1
  refine List.map_congr_left fun e he => ?_
  congr 1
  simp only [Finset.mem_insert, forall_eq_or_imp, eq_iff_iff]
  refine and_congr_right fun hx => forall₂_congr fun y hy => ?_
  obtain ⟨t, ht⟩ := takeWhile_ne_append hx
  constructor
  · intro h
    exact (List.takeWhile_prefix _).subset h
  · intro h
    rw [ht] at h
    rcases List.mem_append.mp h with h | h
    · exact h
    · have hxt : ∀ z ∈ t, r x z := by
        have := hsort e he
        rw [ht] at this
        exact (List.pairwise_cons.mp (List.pairwise_append.mp this).2.1).1
      rcases List.mem_cons.mp h with rfl | h
      · exact absurd (hS y hy) (hirr y)
      · exact absurd (htrans _ _ _ (hS y hy) (hxt y h)) (hirr y)

end Conditional

end Support

end NctuCourses.Lib
