import NctuCourses.FpGrowth.Patterns
import NctuCourses.FpGrowth.Walk

namespace NctuCourses.FpGrowth

open NctuCourses.Lib

namespace Shape

variable {t : FPTree} {ps : List (List Int)} {f : List Int → Int} {p q : List Int} {i : Nat}

theorem prefix_closed (h : Shape t ps f) (hq : q ∈ ps) (hp : p <+: q) : p ∈ ps := by
  obtain ⟨s, rfl⟩ := hp
  induction s using List.reverseRecOn with
  | nil => rwa [List.append_nil] at hq
  | append_singleton s x ih =>
    rw [← List.append_assoc] at hq
    exact ih (h.closed hq)

theorem exists_kid (h : Shape t ps f) (hq : q ∈ ps) (hp : p <+: q) (hne : p ≠ q) :
    ∃ x, p ++ [x] ∈ kids ps p ∧ p ++ [x] <+: q := by
  obtain ⟨s, rfl⟩ := hp
  cases s with
  | nil => exact absurd (List.append_nil p).symm hne
  | cons x s =>
    have hpre : p ++ [x] <+: p ++ x :: s := ⟨s, by simp⟩
    exact ⟨x, mem_kids.mpr ⟨h.prefix_closed hq hpre, x, rfl⟩, hpre⟩

theorem children_cases {n : FPNode} (hn : NodeOf ps f p n) :
    (n.children = [] ∧ kids ps p = []) ∨
      ∃ c cs x qs, n.children = c :: cs ∧ kids ps p = (p ++ [x]) :: qs ∧ ps[c]? = some (p ++ [x]) ∧
        cs.length = qs.length := by
  have hat := hn.children
  cases hk : kids ps p with
  | nil =>
    rw [hk] at hat
    exact .inl ⟨List.forall₂_nil_right_iff.mp hat, rfl⟩
  | cons q qs =>
    obtain ⟨_, x, rfl⟩ := mem_kids.mp (show q ∈ kids ps p by simp [hk])
    rw [hk] at hat
    obtain ⟨c, cs, hc, hcs, hcons⟩ := List.forall₂_cons_right_iff.mp hat
    exact .inr ⟨c, cs, x, qs, hcons, rfl, hc, hcs.length_eq⟩

theorem isSinglePathFrom (h : Shape t ps f) (d : Nat) (hi : ps[i]? = some p)
    (hd : ∀ q ∈ ps, q.length ≤ p.length + d) :
    ∃ b, Converges (fun k => t.isSinglePathFrom k i) b ∧
      (b = true → ∃ P ∈ ps, ∀ q ∈ ps, p <+: q → q <+: P) ∧ (b = false → ∃ q ∈ ps, q ≠ []) := by
  induction d using Nat.strong_induction_on generalizing p i with
  | _ d ih =>
    obtain ⟨n, hn, hnode⟩ := h.get hi
    rcases children_cases hnode with ⟨hch, hk⟩ | ⟨c, cs, x, qs, hch, hk, hc, hlen⟩
    · refine ⟨true, Converges.succ (fun k => ?_) (Converges.pure true), fun _ => ?_, nofun⟩
      · rw [FPTree.isSinglePathFrom, hn, Option.bind_some, hch]
      · refine ⟨p, List.mem_of_getElem? hi, fun q hq hpq => ?_⟩
        by_contra hno
        obtain ⟨y, hy, _⟩ := h.exists_kid hq hpq fun he => hno (he ▸ List.prefix_rfl)
        simp [hk] at hy
    · have hmem : p ++ [x] ∈ ps := List.mem_of_getElem? hc
      cases cs with
      | nil =>
        have hlong := hd _ hmem
        simp only [List.length_append, List.length_singleton] at hlong
        obtain ⟨b, hconv, htrue, hfalse⟩ := ih (d - 1) (by omega) hc fun q hq => by
          have := hd q hq
          simp only [List.length_append, List.length_singleton]
          omega
        refine ⟨b, Converges.succ (fun k => ?_) hconv, fun hb => ?_, hfalse⟩
        · rw [FPTree.isSinglePathFrom, hn, Option.bind_some, hch]
        · obtain ⟨P, hP, hall⟩ := htrue hb
          refine ⟨P, hP, fun q hq hpq => ?_⟩
          by_cases hqp : p = q
          · rw [← hqp]
            exact (List.prefix_append p [x]).trans (hall _ hmem List.prefix_rfl)
          · obtain ⟨y, hy, hyq⟩ := h.exists_kid hq hpq hqp
            obtain rfl : qs = [] := List.length_eq_zero_iff.mp hlen.symm
            rw [hk, List.mem_singleton] at hy
            exact hall q hq (hy ▸ hyq)
      | cons c' cs =>
        refine ⟨false, Converges.succ (fun k => ?_) (Converges.pure false), nofun, fun _ => ?_⟩
        · rw [FPTree.isSinglePathFrom, hn, Option.bind_some, hch]
        · exact ⟨p ++ [x], hmem, by simp⟩

theorem isSinglePath (h : Shape t ps f) :
    ∃ b, Converges (fun k => t.isSinglePath k) b ∧
      (b = true → ∃ P ∈ ps, ∀ q ∈ ps, q <+: P) ∧ (b = false → ∃ q ∈ ps, q ≠ []) := by
  have hroot : ps[t.root]? = some [] := by
    rw [h.root]
    exact h.first
  obtain ⟨b, hconv, htrue, hfalse⟩ :=
    h.isSinglePathFrom (ps.map List.length).sum hroot fun q hq => by
    rw [List.length_nil, zero_add]
    exact List.single_le_sum (by simp) _ (List.mem_map_of_mem hq)
  refine ⟨b, hconv, fun hb => ?_, hfalse⟩
  obtain ⟨P, hP, hall⟩ := htrue hb
  exact ⟨P, hP, fun q hq => hall q hq List.nil_prefix⟩

end Shape

/-- The patterns for the first items of a single path. -/
def PathExact (min : Int) (db : List (List Int × Int)) (p : List Int) (m : Patterns) : Prop :=
  ∀ S n, m[S]? = some n ↔ S.Nonempty ∧ (∀ y ∈ S, y ∈ p) ∧ min ≤ support db S ∧ n = support db S

section Path

variable {t : FPTree} {ps : List (List Int)} {db : List (List Int × Int)} {min : Int}
  {P p : List Int} {m m' : Patterns} {x : Int} {S : Finset Int}

theorem notMem_of_snoc (hP : P.Nodup) (hp : p ++ [x] <+: P) : x ∉ p := by
  intro hx
  have := hP.sublist hp.sublist
  rw [List.nodup_append] at this
  exact this.2.2 x hx x (by simp) rfl

/-- On a single path, an item set with `x` and items before it occurs where `x` does. -/
theorem support_path (hP : P.Nodup) (hdb : ∀ e ∈ db, e.1 <+: P) (hp : p ++ [x] <+: P) (hx : x ∈ S)
    (hS : ∀ y ∈ S, y ∈ p ++ [x]) : support db S = prefixWeight db (p ++ [x]) := by
  refine congrArg List.sum (List.map_congr_left fun e he => ?_)
  have hiff : (∀ y ∈ S, y ∈ e.1) ↔ p ++ [x] <+: e.1 := by
    refine ⟨fun h => ?_, fun h y hy => h.subset (hS y hy)⟩
    rcases List.prefix_or_prefix_of_prefix hp (hdb e he) with hpre | hpre
    · exact hpre
    · -- Otherwise the transaction ends before `x`.
      rcases List.prefix_concat_iff.mp hpre with heq | hpre
      · rw [heq]
      · exact absurd (hpre.subset (h x hx)) (notMem_of_snoc hP hp)
  by_cases hall : ∀ y ∈ S, y ∈ e.1
  · rw [if_pos hall, if_pos (hiff.mp hall)]
  · rw [if_neg hall, if_neg fun hpre => hall (hiff.mpr hpre)]

theorem PathExact.mem (h : PathExact min db p m) :
    S ∈ m ↔ S.Nonempty ∧ (∀ y ∈ S, y ∈ p) ∧ min ≤ support db S := by
  rw [mem_iff]
  constructor
  · rintro ⟨n, hn⟩
    obtain ⟨h1, h2, h3, _⟩ := (h S n).mp hn
    exact ⟨h1, h2, h3⟩
  · rintro ⟨h1, h2, h3⟩
    exact ⟨_, (h S _).mpr ⟨h1, h2, h3, rfl⟩⟩

/-- The sets without `x` are in the map as before. -/
theorem mem_insertIfNew_singleton {n : Int} (hx : x ∉ S) : S ∈ m.insertIfNew {x} n ↔ S ∈ m := by
  have hne : ({x} : Finset Int) ≠ S := by
    intro he
    exact hx (by simp [← he])
  rw [mem_iff, mem_iff, getElem?_insertIfNew_or, if_neg hne, Option.or_none]

theorem forall_mem_snoc : (∀ y ∈ S, y ∈ p ++ [x]) ↔ ∀ y ∈ S.erase x, y ∈ p := by
  simp only [List.mem_append, List.mem_singleton, Finset.mem_erase]
  refine forall_congr' fun y => ⟨?_, ?_⟩
  · intro hy hh
    exact (hy hh.2).resolve_right hh.1
  · intro hy hS
    exact or_iff_not_imp_right.mpr fun hne => hy ⟨hne, hS⟩

/-- A set with `x` is there once its rest is, or when there is no rest. -/
theorem PathExact.getElem?_snoc (h : PathExact min db p m) (hw : ∀ e ∈ db, 0 ≤ e.2) (hP : P.Nodup)
    (hdb : ∀ e ∈ db, e.1 <+: P) (hp : p ++ [x] <+: P) (hx : min ≤ prefixWeight db (p ++ [x]))
    (hm' : Added x (prefixWeight db (p ++ [x])) (m.insertIfNew {x} (prefixWeight db (p ++ [x])))
      (fun _ => True) m') (hxS : x ∈ S) :
    m'[S]? = if ∀ y ∈ S, y ∈ p ++ [x] then some (prefixWeight db (p ++ [x])) else none := by
  have hnone : m[S]? = none := by
    rw [← Option.not_isSome_iff_eq_none, Option.isSome_iff_exists]
    rintro ⟨v, hv⟩
    exact notMem_of_snoc hP hp (((h S v).mp hv).2.1 x hxS)
  by_cases hone : S = {x}
  · subst hone
    have hno : ¬ (x ∈ ({x} : Finset Int) ∧ ({x} : Finset Int).erase x ∈
        m.insertIfNew {x} (prefixWeight db (p ++ [x])) ∧ True) := by
      rw [mem_insertIfNew_singleton (Finset.notMem_erase _ _), h.mem]
      simp
    rw [(hm' _).2 hno, getElem?_insertIfNew_or, hnone, if_pos rfl, if_pos (by simp)]
    rfl
  · have hrest : (S.erase x).Nonempty := by
      rw [Finset.nonempty_iff_ne_empty]
      intro he
      exact hone (by rw [← Finset.insert_erase hxS, he]; rfl)
    have hnone₁ : (m.insertIfNew {x} (prefixWeight db (p ++ [x])))[S]? = none := by
      rw [getElem?_insertIfNew_or, hnone, if_neg (Ne.symm hone)]
      rfl
    by_cases hall : ∀ y ∈ S, y ∈ p ++ [x]
    · have hsub : min ≤ support db (S.erase x) := by
        have h1 := support_path hP hdb hp hxS hall
        have h2 : support db S ≤ support db (S.erase x) :=
          support_antitone hw (Finset.erase_subset x S)
        omega
      have hin : S.erase x ∈ m.insertIfNew {x} (prefixWeight db (p ++ [x])) := by
        rw [mem_insertIfNew_singleton (Finset.notMem_erase _ _), h.mem]
        exact ⟨hrest, forall_mem_snoc.mp hall, hsub⟩
      rw [(hm' S).1 ⟨hxS, hin, trivial⟩, hnone₁, if_pos hall]
      rfl
    · have hout : ¬ (x ∈ S ∧ S.erase x ∈ m.insertIfNew {x} (prefixWeight db (p ++ [x])) ∧
          True) := by
        rw [mem_insertIfNew_singleton (Finset.notMem_erase _ _), h.mem]
        exact fun hh => hall (forall_mem_snoc.mpr hh.2.1.2.1)
      rw [(hm' S).2 hout, hnone₁, if_neg hall]

theorem PathExact.snoc (h : PathExact min db p m) (hw : ∀ e ∈ db, 0 ≤ e.2) (hP : P.Nodup)
    (hdb : ∀ e ∈ db, e.1 <+: P) (hp : p ++ [x] <+: P) (hx : min ≤ prefixWeight db (p ++ [x]))
    (hm' : Added x (prefixWeight db (p ++ [x])) (m.insertIfNew {x} (prefixWeight db (p ++ [x])))
      (fun _ => True) m') : PathExact min db (p ++ [x]) m' := by
  intro S n
  by_cases hxS : x ∈ S
  · rw [h.getElem?_snoc hw hP hdb hp hx hm' hxS]
    by_cases hall : ∀ y ∈ S, y ∈ p ++ [x]
    · have hsup := support_path hP hdb hp hxS hall
      rw [if_pos hall, hsup, Option.some.injEq]
      exact ⟨fun he => ⟨⟨x, hxS⟩, hall, hx, he.symm⟩, fun hh => hh.2.2.2.symm⟩
    · rw [if_neg hall]
      constructor
      · intro he
        cases he
      · intro hh
        exact absurd hh.2.1 hall
  · have hne : ({x} : Finset Int) ≠ S := fun he => hxS (by simp [← he])
    rw [(hm' S).2 fun hh => hxS hh.1, getElem?_insertIfNew_or, if_neg hne, Option.or_none, h S n]
    refine and_congr_right fun _ => and_congr_left fun _ => forall₂_congr fun y hy => ?_
    rw [List.mem_append, List.mem_singleton, or_iff_left]
    rintro rfl
    exact hxS hy

theorem Shape.pathPatterns (h : Shape t ps (prefixWeight db)) (hw : ∀ e ∈ db, 0 ≤ e.2) (hP : P ∈ ps)
    (hall : ∀ q ∈ ps, q <+: P) (hnd : P.Nodup) (hdb : ∀ e ∈ db, e.1 ∈ ps)
    (hfreq : ∀ p x, p ++ [x] ∈ ps → min ≤ prefixWeight db (p ++ [x])) (d : Nat) {i : Nat}
    (hi : ps[i]? = some p) (hd : P.length ≤ p.length + d) (hm : PathExact min db p m) :
    ∃ m', Converges (fun k => t.pathPatterns k i m) m' ∧ PathExact min db P m' := by
  induction d using Nat.strong_induction_on generalizing p i m with
  | _ d ih =>
    obtain ⟨n, hn, hnode⟩ := h.get hi
    rcases children_cases hnode with ⟨hch, hk⟩ | ⟨c, cs, x, qs, hch, _, hc, _⟩
    · have hp : p = P := by
        by_contra hne
        obtain ⟨x, hx, _⟩ := h.exists_kid hP (hall p (List.mem_of_getElem? hi)) hne
        simp [hk] at hx
      refine ⟨m, Converges.succ (fun k => ?_) (Converges.pure m), hp ▸ hm⟩
      rw [FPTree.pathPatterns, hn, Option.bind_some, hch]
    · obtain ⟨nc, hnc, hcnode⟩ := h.get hc
      have hmem : p ++ [x] ∈ ps := List.mem_of_getElem? hc
      have hitem : nc.item = x := by simpa using hcnode.item
      have hweight : nc.frequency = prefixWeight db (p ++ [x]) := hcnode.frequency (by simp)
      obtain ⟨m₁, hadd, hadded⟩ := addItem_spec x (prefixWeight db (p ++ [x]))
        (m.insertIfNew {x} (prefixWeight db (p ++ [x])))
      have hexact := hm.snoc hw hnd (fun e he => hall _ (hdb e he)) (hall _ hmem)
        (hfreq p x hmem) hadded
      have hlong := (hall _ hmem).length_le
      simp only [List.length_append, List.length_singleton] at hlong
      obtain ⟨m', hconv, hm'⟩ := ih (d - 1) (by omega) hc
        (by simp only [List.length_append, List.length_singleton]; omega) hexact
      refine ⟨m', Converges.succ (fun k => ?_) (hadd.bind hconv), hm'⟩
      rw [FPTree.pathPatterns, hn, Option.bind_some, hch]
      simp only [hnc, Option.bind_some, hitem, hweight]

end Path

end NctuCourses.FpGrowth
