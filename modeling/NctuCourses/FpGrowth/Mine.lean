import NctuCourses.FpGrowth.Exact

namespace NctuCourses.FpGrowth

open NctuCourses.Lib

/-- The number of transactions that contain all of `S`. -/
def occurrences (transactions : List (List Int)) (S : Finset Int) : Nat :=
  transactions.countP fun trans => ∀ x ∈ S, x ∈ trans

/-- The transactions as a database, each of them once. -/
def once (transactions : List (List Int)) : List (List Int × Int) :=
  transactions.map fun trans => (trans, 1)

theorem support_once (transactions : List (List Int)) (S : Finset Int) :
    support (once transactions) S = occurrences transactions S := by
  induction transactions with
  | nil => rfl
  | cons trans transactions ih =>
    have hcons : once (trans :: transactions) = (trans, 1) :: once transactions := rfl
    have hocc : occurrences (trans :: transactions) S =
        occurrences transactions S + if ∀ x ∈ S, x ∈ trans then 1 else 0 := by
      simp [occurrences, List.countP_cons]
    rw [hcons, support_cons, ih, hocc]
    split_ifs <;> push_cast <;> omega

namespace FPgrowth

variable {fp : FPgrowth} {transactions : List (List Int)}

theorem minSupportCount_count (fp : FPgrowth) (transactions : List (List Int)) :
    (transactions.foldl countItemFrequency fp).minSupportCount = fp.minSupportCount := by
  induction transactions generalizing fp with
  | nil => rfl
  | cons trans transactions ih => exact ih (fp.countItemFrequency trans)

theorem getD_count (hnd : ∀ trans ∈ transactions, trans.Nodup) (x : Int) :
    (transactions.foldl countItemFrequency fp).itemFrequency.getD x 0 =
      fp.itemFrequency.getD x 0 + support (once transactions) {x} := by
  induction transactions generalizing fp with
  | nil => simp [once, support]
  | cons trans transactions ih =>
    have hcons : once (trans :: transactions) = (trans, 1) :: once transactions := rfl
    rw [List.foldl_cons, ih fun trans h => hnd trans (by simp [h]), hcons, support_cons,
      countItemFrequency, getD_foldl_tally, add_assoc]
    by_cases hx : x ∈ trans
    · simp [hx, List.count_eq_one_of_mem (hnd trans (by simp)) hx]
    · simp [hx, List.count_eq_zero_of_not_mem hx]

theorem mem_count (x : Int) : x ∈ (transactions.foldl countItemFrequency fp).itemFrequency ↔
    x ∈ fp.itemFrequency ∨ ∃ trans ∈ transactions, x ∈ trans := by
  induction transactions generalizing fp with
  | nil => simp
  | cons trans transactions ih =>
    rw [List.foldl_cons, ih, countItemFrequency, mem_foldl_tally]
    simp [or_assoc]

theorem before_iff {x y : Int} : fp.before x y = true ↔
    fp.itemFrequency.getD x 0 < fp.itemFrequency.getD y 0 ∨
      fp.itemFrequency.getD x 0 = fp.itemFrequency.getD y 0 ∧ x < y := by
  rw [before]
  split_ifs with h
  · simp [h]
  · simp [h]

theorem before_trans {x y z : Int} (hxy : fp.before x y = true) (hyz : fp.before y z = true) :
    fp.before x z = true := by
  rw [before_iff] at *
  omega

theorem before_irrefl (x : Int) : ¬ fp.before x x = true := by
  rw [before_iff]
  omega

/-- `erase` up to the first frequent item leaves the frequent ones, since they are sorted. -/
theorem dropWhile_eq_filter {p : Int → Bool} {l : List Int}
    (hl : l.Pairwise fun a b => p b = true → p a = true) :
    l.dropWhile p = l.filter fun x => !p x := by
  induction l with
  | nil => rfl
  | cons a l ih =>
    obtain ⟨ha, hl⟩ := List.pairwise_cons.mp hl
    cases hp : p a with
    | true => rw [List.dropWhile_cons_of_pos hp, ih hl, List.filter_cons_of_neg (by simp [hp])]
    | false =>
      rw [List.dropWhile_cons_of_neg (by simp [hp]), List.filter_cons_of_pos (by simp [hp])]
      refine congrArg (a :: ·) (List.filter_eq_self.mpr fun b hb => ?_).symm
      cases hpb : p b with
      | true => simp [ha b hb hpb] at hp
      | false => rfl

theorem not_before_iff {x y : Int} : (!fp.before y x) = true ↔
    fp.itemFrequency.getD x 0 < fp.itemFrequency.getD y 0 ∨
      fp.itemFrequency.getD x 0 = fp.itemFrequency.getD y 0 ∧ x ≤ y := by
  rw [Bool.not_eq_true', ← Bool.not_eq_true, before_iff]
  omega

theorem sortAndTrimTransaction_spec {trans : List Int} (hnd : trans.Nodup)
    (hall : ∀ x ∈ trans, x ∈ fp.itemFrequency) :
    ∃ out, fp.sortAndTrimTransaction trans = some out ∧
      (∀ x, x ∈ out ↔ x ∈ trans ∧ fp.minSupportCount ≤ fp.itemFrequency.getD x 0) ∧
      out.Pairwise fun x y => fp.before x y = true := by
  have hle : (trans.mergeSort fun x y => !fp.before y x).Pairwise fun x y =>
      (!fp.before y x) = true := by
    refine List.pairwise_mergeSort (fun a b c hab hbc => ?_) (fun a b => ?_) trans
    · rw [not_before_iff] at *
      omega
    · rw [Bool.or_eq_true, not_before_iff, not_before_iff]
      omega
  have hsorted : (trans.mergeSort fun x y => !fp.before y x).Pairwise fun x y =>
      fp.before x y = true := by
    have hnd' := (List.mergeSort_perm trans fun x y => !fp.before y x).nodup_iff.mpr hnd
    refine List.Pairwise.imp₂ (fun a b hab hne => ?_) hle hnd'
    rw [not_before_iff] at hab
    rw [before_iff]
    omega
  have hcontains : trans.all fp.itemFrequency.contains = true := by
    rw [List.all_eq_true]
    exact hall
  refine ⟨_, by rw [sortAndTrimTransaction, if_pos hcontains], fun x => ?_, hsorted.sublist
    (List.dropWhile_sublist _)⟩
  rw [dropWhile_eq_filter, List.mem_filter, List.mem_mergeSort]
  · simp
  · refine hle.imp fun {a b} hab hb => ?_
    rw [not_before_iff] at hab
    simp only [decide_eq_true_eq] at hb ⊢
    omega

theorem insertAll (fp : FPgrowth) (hnd : ∀ trans ∈ transactions, trans.Nodup)
    (hall : ∀ trans ∈ transactions, ∀ x ∈ trans, x ∈ fp.itemFrequency ∧ x ≠ -1) :
    ∃ (trim : List Int → List Int) (t : FPTree),
      Converges (fun k => transactions.foldlM (fun t trans =>
        (fp.sortAndTrimTransaction trans).bind fun trans => t.insertNodes k trans 1)
          FPTree.empty) t ∧
      Represents t ((once transactions).map fun e => (trim e.1, e.2)) ∧
      ∀ trans ∈ transactions, (trim trans).Pairwise (fun x y => fp.before y x = true) ∧
        ∀ x, x ∈ trim trans ↔ x ∈ trans ∧ fp.minSupportCount ≤ fp.itemFrequency.getD x 0 := by
  have hspec := fun trans h => fp.sortAndTrimTransaction_spec (hnd trans h) fun x hx =>
    (hall trans h x hx).1
  have hloop := Converges.foldlM transactions (fun k t trans =>
      (fp.sortAndTrimTransaction trans).bind fun trans => t.insertNodes k trans 1) FPTree.empty
    (fun done t => Represents t ((once done).map fun e =>
      (((fp.sortAndTrimTransaction e.1).getD []).reverse, e.2))) Represents.empty ?_
  · obtain ⟨t, hconv, ht⟩ := hloop
    refine ⟨fun trans => ((fp.sortAndTrimTransaction trans).getD []).reverse,
      t, hconv, ht, fun trans h => ?_⟩
    obtain ⟨out, hout, hmem, hsorted⟩ := hspec trans h
    simp only [hout, Option.getD_some, List.mem_reverse]
    exact ⟨List.pairwise_reverse.mpr hsorted, hmem⟩
  · intro done trans rest t hl ht
    have htrans : trans ∈ transactions := by simp [hl]
    obtain ⟨out, hout, hmem, _⟩ := hspec trans htrans
    obtain ⟨t', hconv, ht'⟩ := ht.insertNodes
      (fun x hx => (hall trans htrans x ((hmem x).mp hx).1).2) 1
    refine ⟨t', ?_, ?_⟩
    · simpa only [hout, Option.bind_some] using hconv
    · simpa only [once, List.map_append, List.map_cons, List.map_nil, hout, Option.getD_some]
        using ht'

end FPgrowth

/-- What the two passes and the search return. A `min_support_count_` below 1 acts as 1, since every
item of the tree occurs. -/
theorem mine_spec {fp : FPgrowth} (hfp : fp.itemFrequency = ∅) {transactions : List (List Int)}
    (hnd : ∀ trans ∈ transactions, trans.Nodup) (hmark : ∀ trans ∈ transactions, -1 ∉ trans) :
    ∃ m, Converges (fun k => fp.mine k transactions) m ∧
      ∀ (S : Finset Int) n, m[S]? = some n ↔ S.Nonempty ∧
        max fp.minSupportCount 1 ≤ occurrences transactions S ∧ n = occurrences transactions S := by
  have hcount : ∀ x, (transactions.foldl FPgrowth.countItemFrequency fp).itemFrequency.getD x 0 =
      support (once transactions) {x} := by
    intro x
    rw [FPgrowth.getD_count hnd, hfp, Std.TreeMap.getD_emptyc, zero_add]
  have hpos : ∀ e ∈ once transactions, 1 ≤ e.2 := by
    intro e he
    obtain ⟨trans, _, rfl⟩ := List.mem_map.mp he
    exact le_rfl
  obtain ⟨trim, t, htree, hrep, htrim⟩ := FPgrowth.insertAll
    (transactions.foldl FPgrowth.countItemFrequency fp) hnd fun trans h x hx =>
      ⟨(FPgrowth.mem_count x).mpr (.inr ⟨trans, h, hx⟩), fun he => hmark trans h (he ▸ hx)⟩
  simp only [hcount, FPgrowth.minSupportCount_count] at htrim
  have hkept : ∀ e ∈ once transactions, ∀ x, x ∈ trim e.1 ↔
      x ∈ e.1 ∧ max fp.minSupportCount 1 ≤ support (once transactions) {x} := by
    intro e he x
    obtain ⟨trans, h, rfl⟩ := List.mem_map.mp he
    rw [(htrim trans h).2 x]
    refine and_congr_right fun hx => ?_
    have hone := one_le_support hpos (S := {x}) ⟨_, he, by simpa using hx⟩
    omega
  have hgood : Good (max fp.minSupportCount 1)
      (fun x y => (transactions.foldl FPgrowth.countItemFrequency fp).before y x = true)
      ((once transactions).map fun e => (trim e.1, e.2)) := by
    refine ⟨fun e' he' => ?_, fun e' he' => ?_, fun e' he' x hx => ?_⟩
    · obtain ⟨e, he, rfl⟩ := List.mem_map.mp he'
      obtain ⟨trans, h, rfl⟩ := List.mem_map.mp he
      exact (htrim trans h).1
    · obtain ⟨e, he, rfl⟩ := List.mem_map.mp he'
      exact hpos e he
    · obtain ⟨e, he, rfl⟩ := List.mem_map.mp he'
      obtain ⟨_, hfreq⟩ := (hkept e he x).mp hx
      rw [support_congr fun e he => by simp only [Finset.mem_singleton, forall_eq,
        hkept e he, hfreq, and_true]]
      exact hfreq
  have htrans : ∀ a b c, (transactions.foldl FPgrowth.countItemFrequency fp).before b a = true →
      (transactions.foldl FPgrowth.countItemFrequency fp).before c b = true →
      (transactions.foldl FPgrowth.countItemFrequency fp).before c a = true :=
    fun a b c hab hbc => FPgrowth.before_trans hbc hab
  have hlength : ∀ e ∈ (once transactions).map fun e => (trim e.1, e.2),
      e.1.length ≤ ((once transactions).map fun e => (trim e.1).length).sum := by
    intro e' he'
    obtain ⟨e, he, rfl⟩ := List.mem_map.mp he'
    exact List.single_le_sum (by simp) _ (List.mem_map_of_mem he)
  obtain ⟨m, hconv, hexact⟩ :=
    findPattern_exact htrans FPgrowth.before_irrefl rfl _ hgood hrep hlength
  refine ⟨m, ?_, fun S n => ?_⟩
  · rw [← FPgrowth.minSupportCount_count fp transactions] at hconv
    exact htree.bind hconv
  · have hall := Exact.of_restrict (le_max_right _ _) (fun e he => ?_) hkept hexact
    · rw [hall S n, support_once]
    · have := hpos e he
      omega

/-- FP-growth is exact: it returns, and its result has the item sets contained in at least
`min_support_count_` transactions, each with the number of transactions that contain it. -/
theorem mine_exact {fp : FPgrowth} (hfp : fp.itemFrequency = ∅) (hmin : 1 ≤ fp.minSupportCount)
    {transactions : List (List Int)} (hnd : ∀ trans ∈ transactions, trans.Nodup)
    (hnonneg : ∀ trans ∈ transactions, ∀ x ∈ trans, 0 ≤ x) :
    ∃ m, Converges (fun k => fp.mine k transactions) m ∧
      ∀ (S : Finset Int) n, m[S]? = some n ↔
        S.Nonempty ∧ fp.minSupportCount ≤ occurrences transactions S ∧
        n = occurrences transactions S := by
  have hmark : ∀ trans ∈ transactions, -1 ∉ trans := by
    intro trans h hx
    have := hnonneg trans h _ hx
    omega
  have hspec := mine_spec hfp hnd hmark
  rwa [max_eq_left hmin] at hspec

/-- The transactions of the test for `FindPattern`. -/
def testdata : List (List Int) :=
  [[0, 2, 3, 5, 6, 8, 12, 15], [0, 1, 2, 5, 11, 12, 14], [1, 5, 7, 9, 14], [1, 2, 10, 15],
    [0, 2, 4, 5, 11, 12, 15]]

/-- Two of the results that the test expects, and a pair that is not frequent. -/
theorem mine_exact_testdata :
    ∃ m, Converges (fun k => FPgrowth.mine k ⟨3 / 5, 3, 0, ∅⟩ testdata) m ∧
      m[({0, 2, 5, 12} : Finset Int)]? = some 3 ∧ m[({5} : Finset Int)]? = some 4 ∧
      m[({5, 15} : Finset Int)]? = none := by
  have hexact : ∃ m, Converges (fun k => FPgrowth.mine k ⟨3 / 5, 3, 0, ∅⟩ testdata) m ∧
      ∀ (S : Finset Int) n, m[S]? = some n ↔
        S.Nonempty ∧ (3 : Int) ≤ occurrences testdata S ∧ n = occurrences testdata S :=
    mine_exact rfl (by decide) (by decide) (by decide)
  obtain ⟨m, hconv, hm⟩ := hexact
  refine ⟨m, hconv, (hm _ _).mpr (by decide), (hm _ _).mpr (by decide), ?_⟩
  rw [← Option.not_isSome_iff_eq_none, Option.isSome_iff_exists]
  rintro ⟨n, hn⟩
  exact absurd ((hm _ n).mp hn).2.1 (by decide)

end NctuCourses.FpGrowth
