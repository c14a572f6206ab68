import NctuCourses.FpGrowth.Single

namespace NctuCourses.FpGrowth

open NctuCourses.Lib

/-- A database as `FindPattern` wants it: the transactions are in one order,
and every item is frequent. -/
structure Good (min : Int) (r : Int → Int → Prop) (db : List (List Int × Int)) : Prop where
  sorted : ∀ e ∈ db, e.1.Pairwise r
  pos : ∀ e ∈ db, 1 ≤ e.2
  frequent : ∀ e ∈ db, ∀ x ∈ e.1, min ≤ support db {x}

/-- `x` is the last item of `S`. -/
def LastIn (r : Int → Int → Prop) (x : Int) (S : Finset Int) : Prop :=
  x ∈ S ∧ ∀ y ∈ S, y ≠ x → r y x

section Order

variable {r : Int → Int → Prop} (htrans : ∀ a b c, r a b → r b c → r a c) (hirr : ∀ a, ¬ r a a)

include htrans hirr in
theorem LastIn.unique {x y : Int} {S : Finset Int} (hx : LastIn r x S) (hy : LastIn r y S) :
    x = y := by
  by_contra hne
  exact hirr x (htrans _ _ _ (hy.2 x hx.1 hne) (hx.2 y hy.1 (Ne.symm hne)))

theorem exists_lastIn {l : List Int} (hl : l.Pairwise r) {S : Finset Int} (hS : S.Nonempty)
    (hsub : ∀ y ∈ S, y ∈ l) : ∃ x, LastIn r x S := by
  obtain ⟨y, hy⟩ := hS
  have hne : l.filter (· ∈ S) ≠ [] := by
    intro h
    have : y ∈ l.filter (· ∈ S) := List.mem_filter.mpr ⟨hsub y hy, by simpa using hy⟩
    simp [h] at this
  have hsplit := List.dropLast_append_getLast hne
  have hlast := List.getLast_mem hne
  refine ⟨(l.filter (· ∈ S)).getLast hne,
    by simpa using (List.mem_filter.mp hlast).2, fun z hz hzne => ?_⟩
  have hpair := hl.filter (· ∈ S)
  rw [← hsplit, List.pairwise_append] at hpair
  have hzmem : z ∈ l.filter (· ∈ S) := List.mem_filter.mpr ⟨hsub z hz, by simpa using hz⟩
  rw [← hsplit, List.mem_append, List.mem_singleton] at hzmem
  exact hpair.2.2 z (hzmem.resolve_right hzne) _ (by simp)

include hirr in
theorem nodup_of_pairwise {l : List Int} (hl : l.Pairwise r) : l.Nodup := by
  refine hl.imp ?_
  rintro a b hab rfl
  exact hirr a hab

end Order

section Branches

variable {r : Int → Int → Prop} (htrans : ∀ a b c, r a b → r b c → r a c) (hirr : ∀ a, ¬ r a a)
  {t : FPTree} {ps : List (List Int)} {db : List (List Int × Int)} {min : Int}

theorem Good.nonneg (hg : Good min r db) : ∀ e ∈ db, 0 ≤ e.2 := by
  intro e he
  have := hg.pos e he
  omega

include hirr in
theorem Good.nodup_path (hg : Good min r db) (hps : ∀ p, p ∈ ps ↔ p = [] ∨ ∃ e ∈ db, p <+: e.1)
    {p : List Int} (hp : p ∈ ps) : p.Nodup := by
  rcases (hps p).mp hp with rfl | ⟨e, he, hpre⟩
  · exact List.nodup_nil
  · exact (nodup_of_pairwise hirr (hg.sorted e he)).sublist hpre.sublist

include hirr in
theorem pathPatterns_exact (hmin : 1 ≤ min) (hg : Good min r db) (h : Shape t ps (prefixWeight db))
    (hps : ∀ p, p ∈ ps ↔ p = [] ∨ ∃ e ∈ db, p <+: e.1) {P : List Int} (hP : P ∈ ps)
    (hall : ∀ q ∈ ps, q <+: P) :
    ∃ m, Converges (fun k => t.pathPatterns k t.root ∅) m ∧ Exact min db fun S => m[S]? := by
  have hnd : P.Nodup := hg.nodup_path hirr hps hP
  have hdb : ∀ e ∈ db, e.1 ∈ ps := fun e he => (hps _).mpr (.inr ⟨e, he, List.prefix_rfl⟩)
  have hfreq : ∀ p x, p ++ [x] ∈ ps → min ≤ prefixWeight db (p ++ [x]) := by
    intro p x hp
    obtain ⟨e, he, hpre⟩ := ((hps _).mp hp).resolve_left (by simp)
    rw [← support_path hnd (fun e he => hall _ (hdb e he)) (hall _ hp) (Finset.mem_singleton_self x)
      (by simp)]
    exact hg.frequent e he x (hpre.subset (by simp))
  have hroot : ps[t.root]? = some [] := by
    rw [h.root]
    exact h.first
  have hstart : PathExact min db [] ∅ := by
    intro S n
    rw [Std.TreeMap.getElem?_emptyc]
    refine ⟨nofun, fun ⟨⟨y, hy⟩, hsub, _⟩ => ?_⟩
    exact absurd (hsub y hy) List.not_mem_nil
  obtain ⟨m, hconv, hm⟩ := h.pathPatterns hg.nonneg hP hall hnd hdb hfreq P.length hroot
    (by simp) hstart
  refine ⟨m, hconv, fun S n => ?_⟩
  rw [hm S n]
  refine and_congr_right fun _ => and_iff_right_of_imp fun ⟨hsup, _⟩ => ?_
  obtain ⟨e, he, hsub⟩ := exists_of_support_pos (show 0 < support db S by omega)
  exact fun y hy => (hall _ (hdb e he)).subset (hsub y hy)

theorem Shape.header_iff {f : List Int → Int} (h : Shape t ps f) {x : Int} :
    (∃ first, t.header[x]? = some first) ↔ ∃ p, p ++ [x] ∈ ps := by
  obtain ⟨l, hl, hat⟩ := h.chain x
  have hnone := hl.head_eq_none_iff
  constructor
  · rintro ⟨first, hfirst⟩
    cases l with
    | nil => simp [hnone.mpr rfl] at hfirst
    | cons i l =>
      obtain ⟨q, hq, _⟩ := hat.mem (i := i) (by simp)
      obtain ⟨hq, hlast⟩ := List.mem_filter.mp hq
      obtain ⟨p, rfl⟩ := List.getLast?_eq_some_iff.mp
        (show q.getLast? = some x by simpa using hlast)
      exact ⟨p, hq⟩
  · rintro ⟨p, hp⟩
    cases hx : t.header[x]? with
    | some first => exact ⟨first, rfl⟩
    | none =>
      rw [hnone.mp hx] at hat
      have hmem : p ++ [x] ∈ ending ps x := List.mem_filter.mpr ⟨hp, by simp⟩
      rw [List.forall₂_nil_left_iff.mp hat] at hmem
      cases hmem

theorem Good.conditional (hg : Good min r db) (hps : ∀ p, p ∈ ps ↔ p = [] ∨ ∃ e ∈ db, p <+: e.1)
    (x : Int) :
    Good min r (((conditional ps (prefixWeight db) x).filter fun e => e.1 ≠ []).map fun e =>
      (e.1.filter fun y => min ≤ support (Lib.conditional ps (prefixWeight db) x) {y}, e.2)) := by
  have hmem : ∀ e ∈ ((Lib.conditional ps (prefixWeight db) x).filter fun e =>
      e.1 ≠ []).map (fun e =>
      (e.1.filter fun y => min ≤ support (Lib.conditional ps (prefixWeight db) x) {y}, e.2)),
      ∃ p, (∃ e' ∈ db, p ++ [x] <+: e'.1) ∧ e = (p.filter fun y => min ≤ support
        (Lib.conditional ps (prefixWeight db) x) {y}, prefixWeight db (p ++ [x])) := by
    intro e he
    obtain ⟨e', he', rfl⟩ := List.mem_map.mp he
    obtain ⟨p, hp, rfl⟩ := mem_conditional.mp (List.mem_of_mem_filter he')
    exact ⟨p, ((hps _).mp hp).resolve_left (by simp), rfl⟩
  refine ⟨fun e he => ?_, fun e he => ?_, fun e he y hy => ?_⟩
  · obtain ⟨p, ⟨e', he', hpre⟩, rfl⟩ := hmem e he
    have hp := (hg.sorted e' he').sublist hpre.sublist
    exact (List.pairwise_append.mp hp).1.filter _
  · obtain ⟨p, hp, rfl⟩ := hmem e he
    exact one_le_prefixWeight hg.pos hp
  · obtain ⟨p, _, rfl⟩ := hmem e he
    have hy : min ≤ support (Lib.conditional ps (prefixWeight db) x) {y} := by
      simpa using (List.mem_filter.mp hy).2
    rw [support_congr, support_filter_ne_nil (Finset.singleton_nonempty y)]
    · exact hy
    · intro e _
      simp [hy]

theorem filter_cut {cut : Int} (hcut : max cut 1 = min) {cdb : List (List Int × Int)}
    (hpos : ∀ e ∈ cdb, 1 ≤ e.2) :
    ((cdb.filter fun e => e.1 ≠ []).map fun e => (e.1.filter fun y => cut ≤ support cdb {y}, e.2)) =
      (cdb.filter fun e => e.1 ≠ []).map fun e => (e.1.filter fun y => min ≤ support cdb {y},
        e.2) := by
  refine List.map_congr_left fun e he => congrArg (·, e.2) (List.filter_congr fun y hy => ?_)
  have hone := one_le_support hpos (S := {y}) ⟨e, List.mem_of_mem_filter he, by simpa using hy⟩
  rw [decide_eq_decide]
  omega

/-- What `FindPattern` has after the patterns for one more item. -/
theorem getElem?_addPatterns {pattern : Patterns} {x : Int} (hx : ∀ T ∈ pattern, x ∉ T) (one : Int)
    (m : Patterns) (S : Finset Int) :
    (addPatterns x one m pattern)[S]? =
      (m[S]?).or ((if x ∈ S then pattern[S.erase x]? else none).or
        (if {x} = S then some one else none)) := by
  have hfind : (pattern.toList.find? fun e => insert x e.1 = S).map (·.2) =
      if x ∈ S then pattern[S.erase x]? else none := by
    have herase : ∀ e ∈ pattern.toList, insert x e.1 = S → x ∈ S ∧
        pattern[S.erase x]? = some e.2 := by
      rintro ⟨T, v⟩ he rfl
      have hT : pattern[T]? = some v := Std.TreeMap.mem_toList_iff_getElem?_eq_some.mp he
      refine ⟨Finset.mem_insert_self x T, ?_⟩
      rw [Finset.erase_insert (hx T (mem_iff.mpr ⟨v, hT⟩)), hT]
    cases hf : pattern.toList.find? fun e => insert x e.1 = S with
    | some e =>
      obtain ⟨hxS, hget⟩ := herase e (List.mem_of_find?_eq_some hf)
        (by simpa using List.find?_some hf)
      rw [if_pos hxS, hget]
      rfl
    | none =>
      split_ifs with hxS
      · cases hget : pattern[S.erase x]? with
        | none => rfl
        | some v =>
          have := List.find?_eq_none.mp hf _ (Std.TreeMap.mem_toList_iff_getElem?_eq_some.mpr hget)
          simp [Finset.insert_erase hxS] at this
      · rfl
  rw [addPatterns, getElem?_insertIfNew_or, getElem?_foldl_insertIfNew pattern.toList
    (fun e => insert x e.1) (·.2), Option.or_assoc, hfind]

include htrans hirr in
/-- The patterns of the conditional tree of `x` are those that end in `x`. -/
theorem addPatterns_exact (hmin : 1 ≤ min) (hg : Good min r db) (hnd : ps.Nodup)
    (hps : ∀ p, p ∈ ps ↔ p = [] ∨ ∃ e ∈ db, p <+: e.1) {x : Int} (hx : ∃ p, p ++ [x] ∈ ps)
    {pattern m : Patterns}
    (hpat : Exact min (conditional ps (prefixWeight db) x) fun S => pattern[S]?)
    (hm : ∀ S ∈ m, ¬ LastIn r x S) (S : Finset Int) (n : Int) :
    (addPatterns x (support (conditional ps (prefixWeight db) x) ∅) m pattern)[S]? = some n ↔
      m[S]? = some n ∨ LastIn r x S ∧ min ≤ support db S ∧ n = support db S := by
  have hin : ∀ e ∈ db, ∀ p, p ≠ [] → p <+: e.1 → p ∈ ps :=
    fun e he p _ hp => (hps p).mpr (.inr ⟨e, he, hp⟩)
  have hcount : ∀ T : Finset Int, (∀ y ∈ T, r y x) →
      support (conditional ps (prefixWeight db) x) T = support db (insert x T) := fun T hT =>
    support_conditional_eq htrans hirr hg.sorted hnd hin hT
  have hbefore : ∀ (T : Finset Int) v, pattern[T]? = some v → ∀ y ∈ T, r y x := by
    intro T v hv y hy
    obtain ⟨_, hsup, _⟩ := (hpat T v).mp hv
    have hpos : 0 < support (conditional ps (prefixWeight db) x) T := by omega
    obtain ⟨e, he, hsub⟩ := exists_of_support_pos hpos
    obtain ⟨p, hp, rfl⟩ := mem_conditional.mp he
    obtain ⟨e', he', hpre⟩ := ((hps _).mp hp).resolve_left (by simp)
    have := (hg.sorted e' he').sublist hpre.sublist
    exact (List.pairwise_append.mp this).2.2 y (hsub y hy) x (by simp)
  have hxT : ∀ T ∈ pattern, x ∉ T := by
    intro T hT hxT
    obtain ⟨v, hv⟩ := mem_iff.mp hT
    exact hirr x (hbefore T v hv x hxT)
  rw [getElem?_addPatterns hxT]
  by_cases hlast : LastIn r x S
  · have hnone : m[S]? = none := by
      rw [← Option.not_isSome_iff_eq_none, Option.isSome_iff_exists]
      exact fun he => hm S (mem_iff.mpr he) hlast
    rw [hnone, if_pos hlast.1]
    simp only [Option.none_or, reduceCtorEq, false_or, hlast, true_and]
    by_cases hone : S = {x}
    · subst hone
      have hempty : pattern[({x} : Finset Int).erase x]? = none := by
        rw [← Option.not_isSome_iff_eq_none, Option.isSome_iff_exists]
        rintro ⟨v, hv⟩
        simpa using ((hpat _ v).mp hv).1
      have hone : support (conditional ps (prefixWeight db) x) ∅ = support db {x} := by
        rw [hcount ∅ (by simp)]
        rfl
      have hfreq : min ≤ support db {x} := by
        obtain ⟨p, hp⟩ := hx
        obtain ⟨e, he, hpre⟩ := ((hps _).mp hp).resolve_left (by simp)
        exact hg.frequent e he x (hpre.subset (by simp))
      rw [hempty, if_pos rfl, hone, Option.none_or, Option.some.injEq]
      exact ⟨fun he => ⟨hfreq, he.symm⟩, fun hh => hh.2.symm⟩
    · have hrest : (S.erase x).Nonempty := by
        rw [Finset.nonempty_iff_ne_empty]
        intro he
        exact hone (by rw [← Finset.insert_erase hlast.1, he]; rfl)
      rw [if_neg (Ne.symm hone), Option.or_none, hpat,
        hcount _ fun y hy => hlast.2 y (Finset.mem_of_mem_erase hy) (Finset.ne_of_mem_erase hy),
        Finset.insert_erase hlast.1]
      exact and_iff_right hrest
  · have hpnone : (if x ∈ S then pattern[S.erase x]? else none) = none := by
      split_ifs with hxS
      · rw [← Option.not_isSome_iff_eq_none, Option.isSome_iff_exists]
        rintro ⟨v, hv⟩
        exact hlast ⟨hxS, fun y hy hne => hbefore _ v hv y (Finset.mem_erase.mpr ⟨hne, hy⟩)⟩
      · rfl
    have hone : ({x} : Finset Int) ≠ S := by
      rintro rfl
      exact hlast ⟨Finset.mem_singleton_self x, fun y hy hne =>
        absurd (Finset.mem_singleton.mp hy) hne⟩
    rw [hpnone, if_neg hone]
    simp [hlast]

/-- What the loop over the header has found: the patterns that end in one of its items. -/
def HeaderExact (min : Int) (r : Int → Int → Prop) (db : List (List Int × Int))
    (done : List (Int × Nat)) (m : Patterns) : Prop :=
  ∀ S n, m[S]? = some n ↔
    (∃ x ∈ done.map Prod.fst, LastIn r x S) ∧ min ≤ support db S ∧ n = support db S

theorem HeaderExact.exact (hmin : 1 ≤ min) (hg : Good min r db) (h : Shape t ps (prefixWeight db))
    (hps : ∀ p, p ∈ ps ↔ p = [] ∨ ∃ e ∈ db, p <+: e.1) {m : Patterns}
    (hm : HeaderExact min r db t.header.toList m) : Exact min db fun S => m[S]? := by
  intro S n
  rw [hm S n]
  refine and_congr_left fun ⟨hsup, _⟩ => ⟨fun ⟨x, _, hx⟩ => ⟨x, hx.1⟩, fun hS => ?_⟩
  obtain ⟨e, he, hsub⟩ := exists_of_support_pos (show 0 < support db S by omega)
  obtain ⟨x, hx⟩ := exists_lastIn (hg.sorted e he) hS hsub
  obtain ⟨p, q, hpq⟩ := List.append_of_mem (hsub x hx.1)
  have hp : p ++ [x] ∈ ps := (hps _).mpr (.inr ⟨e, he, ⟨q, by rw [hpq]; simp⟩⟩)
  obtain ⟨first, hfirst⟩ := h.header_iff.mpr ⟨p, hp⟩
  have hmem : (x, first) ∈ t.header.toList := Std.TreeMap.mem_toList_iff_getElem?_eq_some.mpr hfirst
  exact ⟨x, List.mem_map_of_mem hmem, hx⟩

include hirr in
/-- The patterns of one item of the header, given those of smaller trees. The code compares with
`cut`; every item that occurs passes a `cut` below 1. -/
theorem conditional_exact {cut : Int} (hcut : max cut 1 = min) (hg : Good min r db)
    (h : Shape t ps (prefixWeight db)) (hps : ∀ p, p ∈ ps ↔ p = [] ∨ ∃ e ∈ db, p <+: e.1) {d : Nat}
    (hd : ∀ e ∈ db, e.1.length ≤ d) {find : Nat → FPTree → Option Patterns}
    (ih : ∀ ct cdb, Represents ct cdb → Good min r cdb → (∀ e ∈ cdb, e.1.length < d) →
      ∃ m, Converges (fun k => find k ct) m ∧ Exact min cdb fun S => m[S]?) (x : Int) :
    ∃ c ct pattern, Converges (fun k => t.collect k t.header[x]? ⟨[], ∅, 0⟩) c ∧
      Converges (fun k => c.tree k cut) ct ∧ Converges (fun k => find k ct) pattern ∧
      c.oneItemFrequency = support (conditional ps (prefixWeight db) x) ∅ ∧
      Exact min (conditional ps (prefixWeight db) x) fun S => pattern[S]? := by
  have hend : ∀ p, p ++ [x] ∈ ps → ∃ e ∈ db, p ++ [x] <+: e.1 := fun p hp =>
    ((hps _).mp hp).resolve_left (by simp)
  have hnd : ∀ p ∈ ps, p.Nodup := fun p hp => hg.nodup_path hirr hps hp
  have hpos : ∀ e ∈ conditional ps (prefixWeight db) x, 1 ≤ e.2 := by
    intro e he
    obtain ⟨p, hp, rfl⟩ := mem_conditional.mp he
    exact one_le_prefixWeight hg.pos (hend p hp)
  obtain ⟨c, ct, hcollect, htree, hone, hrep⟩ := h.conditional hnd cut x
  rw [filter_cut hcut hpos] at hrep
  obtain ⟨pattern, hpattern, hexact⟩ := ih ct _ hrep (hg.conditional hps x) fun e he => by
    obtain ⟨e', he', rfl⟩ := List.mem_map.mp he
    obtain ⟨p, hp, rfl⟩ := mem_conditional.mp (List.mem_of_mem_filter he')
    obtain ⟨e₀, he₀, hpre⟩ := hend p hp
    have h1 := hpre.length_le
    have h2 := hd e₀ he₀
    have h3 := List.length_filter_le
      (fun y => decide (min ≤ support (conditional ps (prefixWeight db) x) {y})) p
    simp only [List.length_append, List.length_singleton] at h1
    dsimp only
    omega
  refine ⟨c, ct, pattern, hcollect, htree, hpattern, hone, ?_⟩
  refine Exact.of_filter_ne_nil (Exact.of_restrict (by omega) (fun e he => ?_)
    (fun e _ y => ?_) hexact)
  · have := hpos e (List.mem_of_mem_filter he)
    omega
  · rw [List.mem_filter, support_filter_ne_nil (Finset.singleton_nonempty y), decide_eq_true_eq]

theorem headerRound {x cut : Int} {first : Nat} {c : Conditional} {ct : FPTree} {pattern : Patterns}
    {find : Nat → FPTree → Option Patterns}
    (hcollect : Converges (fun k => t.collect k (some first) ⟨[], ∅, 0⟩) c)
    (htree : Converges (fun k => c.tree k cut) ct)
    (hpattern : Converges (fun k => find k ct) pattern) (m : Patterns) :
    Converges (fun k => (t.collect k (some first) ⟨[], ∅, 0⟩).bind fun c =>
      (c.tree k cut).bind fun conditional =>
        (find k conditional).map (addPatterns x c.oneItemFrequency m))
      (addPatterns x c.oneItemFrequency m pattern) :=
  hcollect.bind (htree.bind (hpattern.map (addPatterns x c.oneItemFrequency m)))

include htrans hirr in
theorem headerLoop_exact {cut : Int} (hcut : max cut 1 = min) (hg : Good min r db)
    (h : Shape t ps (prefixWeight db)) (hps : ∀ p, p ∈ ps ↔ p = [] ∨ ∃ e ∈ db, p <+: e.1) {d : Nat}
    (hd : ∀ e ∈ db, e.1.length ≤ d) {find : Nat → FPTree → Option Patterns}
    (ih : 0 < d → ∀ ct cdb, Represents ct cdb → Good min r cdb → (∀ e ∈ cdb, e.1.length < d) →
      ∃ m, Converges (fun k => find k ct) m ∧ Exact min cdb fun S => m[S]?) :
    ∃ m, Converges (fun k => t.headerPatterns k cut (find k)) m ∧ Exact min db fun S => m[S]? := by
  have hmin : 1 ≤ min := by omega
  have hloop := Converges.foldlM t.header.toList
    (fun k m elem => (t.collect k (some elem.2) ⟨[], ∅, 0⟩).bind fun c =>
      (c.tree k cut).bind fun conditional =>
        (find k conditional).map (addPatterns elem.1 c.oneItemFrequency m))
    ∅ (HeaderExact min r db) ?_ ?_
  · obtain ⟨m, hconv, hm⟩ := hloop
    exact ⟨m, hconv, hm.exact hmin hg h hps⟩
  · intro S n
    rw [Std.TreeMap.getElem?_emptyc]
    simp
  · rintro done ⟨x, first⟩ rest m hl hm
    have hfirst : t.header[x]? = some first :=
      Std.TreeMap.mem_toList_iff_getElem?_eq_some.mp (by simp [hl])
    have hx : x ∉ done.map Prod.fst := by
      intro hx
      obtain ⟨⟨y, j⟩, hy, rfl⟩ := List.mem_map.mp hx
      have hord := Std.TreeMap.ordered_keys_toList (t := t.header)
      rw [hl, List.pairwise_append] at hord
      simpa using hord.2.2 _ hy (y, first) (by simp)
    -- An item in the header is on some transaction, so that the conditional ones are shorter.
    obtain ⟨p, hp⟩ := h.header_iff.mp ⟨first, hfirst⟩
    obtain ⟨e, he, hpre⟩ := ((hps _).mp hp).resolve_left (by simp)
    have hpos : 0 < d := by
      have h1 := hpre.length_le
      have h2 := hd e he
      simp only [List.length_append, List.length_singleton] at h1
      omega
    obtain ⟨c, ct, pattern, hcollect, htree, hpattern, hone, hexact⟩ :=
      conditional_exact hirr hcut hg h hps hd (ih hpos) x
    rw [hfirst] at hcollect
    refine ⟨addPatterns x c.oneItemFrequency m pattern, headerRound hcollect htree hpattern m,
      fun S n => ?_⟩
    rw [hone, addPatterns_exact htrans hirr hmin hg h.nodup hps ⟨p, hp⟩ hexact, hm S n,
      List.map_append, List.map_singleton]
    · simp only [List.mem_append, List.mem_singleton, or_and_right, exists_or, exists_eq_left]
    · intro T hT hlast
      obtain ⟨v, hv⟩ := mem_iff.mp hT
      obtain ⟨⟨y, hy, hylast⟩, _⟩ := (hm T v).mp hv
      exact hx (hylast.unique htrans hirr hlast ▸ hy)

include htrans hirr in
theorem findPattern_exact {cut : Int} (hcut : max cut 1 = min) (d : Nat) (hg : Good min r db)
    (h : Represents t db) (hd : ∀ e ∈ db, e.1.length ≤ d) :
    ∃ m, Converges (fun k => findPattern cut k t) m ∧ Exact min db fun S => m[S]? := by
  induction d using Nat.strong_induction_on generalizing t db with
  | _ d ih =>
    obtain ⟨ps, hshape, hps⟩ := h
    obtain ⟨single, hsingle, htrue, _⟩ := hshape.isSinglePath
    have hbranch : ∃ m, Converges (fun k => if single then t.pathPatterns k t.root ∅
        else t.headerPatterns k cut (findPattern cut k)) m ∧ Exact min db fun S => m[S]? := by
      cases single with
      | true =>
        obtain ⟨P, hP, hall⟩ := htrue rfl
        exact pathPatterns_exact hirr (by omega) hg hshape hps hP hall
      | false =>
        exact headerLoop_exact htrans hirr hcut hg hshape hps hd fun hpos ct cdb hrep hgood hlt =>
          ih (d - 1) (by omega) hgood hrep fun e he => by
            have := hlt e he
            omega
    obtain ⟨m, hconv, hm⟩ := hbranch
    refine ⟨m, Converges.succ (fun k => ?_) (hsingle.bind (g := fun k single => if single then
      t.pathPatterns k t.root ∅ else t.headerPatterns k cut (findPattern cut k)) hconv), hm⟩
    rw [findPattern]

end Branches

end NctuCourses.FpGrowth
