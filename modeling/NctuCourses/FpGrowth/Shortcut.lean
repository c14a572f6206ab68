import NctuCourses.FpGrowth.Exact
import NctuCourses.FpGrowth.Links

namespace NctuCourses.FpGrowth

open NctuCourses.Lib

/-- `FindPattern` without its branch for a single path. -/
def findPatternGeneral (minSupportCount : Int) : Nat → FPTree → Option Patterns
  | 0, _ => none
  | fuel + 1, t => t.headerPatterns fuel minSupportCount (findPatternGeneral minSupportCount fuel)

section Exactness

variable {r : Int → Int → Prop} (htrans : ∀ a b c, r a b → r b c → r a c) (hirr : ∀ a, ¬ r a a)
  {t : FPTree} {db : List (List Int × Int)} {min cut : Int}

include htrans hirr in
theorem findPatternGeneral_exact (hcut : max cut 1 = min) (d : Nat) (hg : Good min r db)
    (h : Represents t db) (hd : ∀ e ∈ db, e.1.length ≤ d) :
    ∃ m, Converges (fun k => findPatternGeneral cut k t) m ∧ Exact min db fun S => m[S]? := by
  induction d using Nat.strong_induction_on generalizing t db with
  | _ d ih =>
    obtain ⟨ps, hshape, hps⟩ := h
    obtain ⟨m, hconv, hm⟩ := headerLoop_exact htrans hirr hcut hg hshape hps hd
      fun hpos ct cdb hrep hgood hlt => ih (d - 1) (by omega) hgood hrep fun e he => by
        have := hlt e he
        omega
    exact ⟨m, Converges.succ (fun k => by rw [findPatternGeneral]) hconv, hm⟩

end Exactness

section Agreement

variable {t : FPTree} {ps : List (List Int)} {db : List (List Int × Int)} {min cut : Int}

theorem equiv_of_exact {m m' : Patterns} (h : Exact min db fun S => m[S]?)
    (h' : Exact min db fun S => m'[S]?) : m.Equiv m' := by
  refine Std.TreeMap.Equiv.of_forall_constGet?_eq fun S => ?_
  exact Option.ext fun n => (h S n).trans (h' S n).symm

theorem addPatterns_equiv {m m' pattern pattern' : Patterns} (hm : m.Equiv m')
    (hpat : pattern.Equiv pattern') (x one : Int) :
    (addPatterns x one m pattern).Equiv (addPatterns x one m' pattern') := by
  have hfold : ∀ (l : List (Finset Int × Int)) (m m' : Patterns), m.Equiv m' →
      (l.foldl (fun m e => m.insertIfNew (insert x e.1) e.2) m).Equiv
        (l.foldl (fun m e => m.insertIfNew (insert x e.1) e.2) m') := by
    intro l
    induction l with
    | nil => exact fun m m' h => h
    | cons e l ih => exact fun m m' h => ih _ _ (h.insertIfNew _ _)
  rw [addPatterns, addPatterns, hpat.toList_eq]
  exact (hfold _ m m' hm).insertIfNew _ _

/-- The loop over the header gives the same map for two searches that
agree on the conditional trees. -/
theorem headerLoop_equiv (h : Shape t ps (prefixWeight db)) (hnd : ∀ p ∈ ps, p.Nodup)
    {find find' : Nat → FPTree → Option Patterns}
    (ih : ∀ x p, p ++ [x] ∈ ps → ∀ ct, Represents ct
      (((conditional ps (prefixWeight db) x).filter fun e => e.1 ≠ []).map fun e =>
        (e.1.filter fun y => cut ≤ support (Lib.conditional ps (prefixWeight db) x) {y}, e.2)) →
      ∃ m m', Converges (fun k => find k ct) m ∧ Converges (fun k => find' k ct) m' ∧ m.Equiv m') :
    ∃ m m', Converges (fun k => t.headerPatterns k cut (find k)) m ∧
      Converges (fun k => t.headerPatterns k cut (find' k)) m' ∧ m.Equiv m' := by
  -- The invariant of the first loop says how far the second one has come.
  have hloop := Converges.foldlM t.header.toList
    (fun k m elem => (t.collect k (some elem.2) ⟨[], ∅, 0⟩).bind fun c =>
      (c.tree k cut).bind fun conditional =>
        (find k conditional).map (addPatterns elem.1 c.oneItemFrequency m))
    ∅ (fun done m => ∃ m', Converges (fun k => done.foldlM
      (fun m elem => (t.collect k (some elem.2) ⟨[], ∅, 0⟩).bind fun c =>
        (c.tree k cut).bind fun conditional =>
          (find' k conditional).map (addPatterns elem.1 c.oneItemFrequency m)) ∅) m' ∧
          m.Equiv m') ?_ ?_
  · obtain ⟨m, hconv, m', hconv', hm⟩ := hloop
    exact ⟨m, m', hconv, hconv', hm⟩
  · exact ⟨∅, Converges.of_eq fun k => rfl, .rfl⟩
  · rintro done ⟨x, first⟩ rest m hl ⟨m', hdone, hm⟩
    have hfirst : t.header[x]? = some first :=
      Std.TreeMap.mem_toList_iff_getElem?_eq_some.mp (by simp [hl])
    obtain ⟨p, hp⟩ := h.header_iff.mp ⟨first, hfirst⟩
    obtain ⟨c, ct, hcollect, htree, _, hrep⟩ := h.conditional hnd cut x
    obtain ⟨pattern, pattern', hpat, hpat', hequiv⟩ := ih x p hp ct hrep
    rw [hfirst] at hcollect
    refine ⟨addPatterns x c.oneItemFrequency m pattern, headerRound hcollect htree hpat m,
      addPatterns x c.oneItemFrequency m' pattern', ?_, addPatterns_equiv hm hequiv _ _⟩
    simp only [List.foldlM_append, List.foldlM_cons, List.foldlM_nil]
    exact hdone.bind ((headerRound hcollect htree hpat' m').bind (Converges.pure _))

theorem Good.of_path (hg : Good min (· ≠ ·) db) {P : List Int} (hP : P.Nodup)
    (hall : ∀ e ∈ db, e.1 <+: P) : Good min (fun a b => P.idxOf a < P.idxOf b) db := by
  have hsorted : P.Pairwise fun a b => P.idxOf a < P.idxOf b := by
    rw [List.pairwise_iff_getElem]
    intro i j hi hj hij
    rwa [hP.idxOf_getElem, hP.idxOf_getElem]
  exact ⟨fun e he => hsorted.sublist (hall e he).sublist, hg.pos, hg.frequent⟩

/-- The shortcut changes nothing, for transactions in any order. -/
theorem findPattern_equiv (hcut : max cut 1 = min) (d : Nat) (hg : Good min (· ≠ ·) db)
    (h : Represents t db) (hd : ∀ e ∈ db, e.1.length ≤ d) :
    ∃ m m', Converges (fun k => findPattern cut k t) m ∧
      Converges (fun k => findPatternGeneral cut k t) m' ∧ m.Equiv m' := by
  induction d using Nat.strong_induction_on generalizing t db with
  | _ d ih =>
    obtain ⟨ps, hshape, hps⟩ := id h
    obtain ⟨single, hsingle, htrue, _⟩ := hshape.isSinglePath
    have hnd : ∀ p ∈ ps, p.Nodup := fun p hp => hg.nodup_path (fun _ hne => hne rfl) hps hp
    cases single with
    | true =>
      -- Both searches are exact here.
      obtain ⟨P, hP, hall⟩ := htrue rfl
      have hgood := hg.of_path (hnd P hP) fun e he =>
        hall _ ((hps _).mpr (.inr ⟨e, he, List.prefix_rfl⟩))
      have htrans : ∀ a b c, P.idxOf a < P.idxOf b → P.idxOf b < P.idxOf c →
          P.idxOf a < P.idxOf c :=
        fun a b c => lt_trans
      have hirr : ∀ a, ¬ P.idxOf a < P.idxOf a := fun a => lt_irrefl _
      obtain ⟨m, hconv, hm⟩ := findPattern_exact htrans hirr hcut d hgood h hd
      obtain ⟨m', hconv', hm'⟩ := findPatternGeneral_exact htrans hirr hcut d hgood h hd
      exact ⟨m, m', hconv, hconv', equiv_of_exact hm hm'⟩
    | false =>
      have hcond : ∀ x p, p ++ [x] ∈ ps → ∀ ct, Represents ct
          (((conditional ps (prefixWeight db) x).filter fun e => e.1 ≠ []).map fun e =>
            (e.1.filter fun y => cut ≤ support (Lib.conditional ps (prefixWeight db) x) {y}, e.2)) →
          ∃ m m', Converges (fun k => findPattern cut k ct) m ∧
            Converges (fun k => findPatternGeneral cut k ct) m' ∧ m.Equiv m' := by
        intro x p hp ct hrep
        rw [filter_cut hcut fun e he => ?_] at hrep
        · have hlen : ∀ q, q ++ [x] ∈ ps → q.length + 1 ≤ d := by
            intro q hq
            obtain ⟨e, he, hpre⟩ := ((hps _).mp hq).resolve_left (by simp)
            have h1 := hpre.length_le
            have h2 := hd e he
            simp only [List.length_append, List.length_singleton] at h1
            omega
          refine ih (d - 1) (by have := hlen p hp; omega) (hg.conditional hps x) hrep fun e he => ?_
          obtain ⟨e', he', rfl⟩ := List.mem_map.mp he
          obtain ⟨q, hq, rfl⟩ := mem_conditional.mp (List.mem_of_mem_filter he')
          have h1 := hlen q hq
          have h2 := List.length_filter_le
            (fun y => decide (min ≤ support (conditional ps (prefixWeight db) x) {y})) q
          dsimp only
          omega
        · obtain ⟨q, hq, rfl⟩ := mem_conditional.mp he
          exact one_le_prefixWeight hg.pos (((hps _).mp hq).resolve_left (by simp))
      obtain ⟨m, m', hconv, hconv', hm⟩ := headerLoop_equiv hshape hnd hcond
      refine ⟨m, m', Converges.succ (fun k => ?_) (hsingle.bind (g := fun k single => if single then
        t.pathPatterns k t.root ∅ else t.headerPatterns k cut (findPattern cut k)) hconv),
        Converges.succ (fun k => ?_) hconv', hm⟩
      · rw [findPattern]
      · rw [findPatternGeneral]

end Agreement

theorem support_calls {calls : List (List Int × Int)} (hnd : ∀ call ∈ calls, call.1.Nodup)
    (x : Int) :
    support (calls.map fun call => (call.1.reverse, call.2)) {x} =
      (calls.map fun call => call.2 * (call.1.count x : Int)).sum := by
  rw [support, List.map_map]
  refine congrArg List.sum (List.map_congr_left fun call hcall => ?_)
  by_cases hx : x ∈ call.1
  · simp [hx, List.count_eq_one_of_mem (hnd call hcall) hx]
  · simp [hx, List.count_eq_zero_of_not_mem hx]

/-- A tree whose items are all frequent is as `FindPattern` wants it, but
for the order of the items. -/
theorem Good.of_chains {calls : List (List Int × Int)} (hnd : ∀ call ∈ calls, call.1.Nodup)
    (hrep : ∀ call ∈ calls, 1 ≤ call.2) {t : FPTree} (ht : WellLinked t calls) {min : Int}
    (hfreq : ∀ (x : Int) l, Linked t.nextOf t.header[x]? l → l ≠ [] →
      min ≤ (l.map t.frequencyAt).sum) :
    Good min (· ≠ ·) (calls.map fun call => (call.1.reverse, call.2)) := by
  have hpos : ∀ e ∈ calls.map (fun call => (call.1.reverse, call.2)), 1 ≤ e.2 := by
    intro e he
    obtain ⟨call, hcall, rfl⟩ := List.mem_map.mp he
    exact hrep call hcall
  refine ⟨fun e he => ?_, hpos, fun e he x hx => ?_⟩
  · obtain ⟨call, hcall, rfl⟩ := List.mem_map.mp he
    exact List.nodup_reverse.mpr (hnd call hcall)
  · obtain ⟨l, hl, _, _, hsum⟩ := ht.chains x
    rw [← support_calls hnd] at hsum
    have hone := one_le_support hpos (S := {x}) ⟨e, he, by simpa using hx⟩
    rw [← hsum]
    apply hfreq x l hl
    rintro rfl
    rw [← hsum] at hone
    simp at hone

/-- For every tree that `InsertNodes` makes of transactions without duplicates and without the item
`-1`, which marks the root, and in which every item is frequent, `FindPattern` returns the same map
with and without its branch for a single path. -/
theorem findPattern_shortcut {calls : List (List Int × Int)} (hnd : ∀ call ∈ calls, call.1.Nodup)
    (hmark : ∀ call ∈ calls, -1 ∉ call.1) (hrep : ∀ call ∈ calls, 1 ≤ call.2) {t : FPTree}
    (ht : Converges (fun k => FPTree.insertCalls k calls) t) {min : Int} (hmin : 1 ≤ min)
    (hfreq : ∀ (x : Int) l, Linked t.nextOf t.header[x]? l → l ≠ [] →
      min ≤ (l.map t.frequencyAt).sum) :
    ∃ m m', Converges (fun k => findPattern min k t) m ∧
      Converges (fun k => findPatternGeneral min k t) m' ∧ m.toList = m'.toList := by
  obtain ⟨t', ht', hrepr⟩ := Represents.insertCalls fun call hcall x hx he =>
    hmark call hcall (he ▸ hx)
  obtain rfl := ht'.unique ht
  have hg := Good.of_chains hnd hrep (hrepr.wellLinked hrep) hfreq
  have hlen : ∀ e ∈ calls.map (fun call => (call.1.reverse, call.2)),
      e.1.length ≤ (calls.map fun call => call.1.length).sum := by
    intro e he
    obtain ⟨call, hcall, rfl⟩ := List.mem_map.mp he
    rw [List.length_reverse]
    exact List.single_le_sum (by simp) _ (List.mem_map_of_mem hcall)
  obtain ⟨m, m', hm, hm', hequiv⟩ := findPattern_equiv (max_eq_left hmin) _ hg hrepr hlen
  exact ⟨m, m', hm, hm', hequiv.toList_eq⟩

theorem chain_ge {t : FPTree} {f : Int} (hnodes : ∀ n ∈ t.nodes, 0 ≤ n.frequency)
    (hheader : ∀ (x : Int) first, t.header[x]? = some first → f ≤ t.frequencyAt first) (x : Int)
    (l : List Nat) (hl : Linked t.nextOf t.header[x]? l) (hne : l ≠ []) :
    f ≤ (l.map t.frequencyAt).sum := by
  have hnonneg : ∀ i, 0 ≤ t.frequencyAt i := by
    intro i
    rw [FPTree.frequencyAt]
    cases hn : t.nodes[i]? with
    | none => exact le_rfl
    | some n => exact hnodes n (List.mem_of_getElem? hn)
  cases l with
  | nil => exact absurd rfl hne
  | cons a l =>
    have hfirst := hheader x a hl.1
    have hrest : 0 ≤ (l.map t.frequencyAt).sum := List.sum_nonneg fun v hv => by
      obtain ⟨i, _, rfl⟩ := List.mem_map.mp hv
      exact hnonneg i
    rw [List.map_cons, List.sum_cons]
    omega

/-- The tree of the test for a single path: one transaction, inserted four times. -/
theorem findPattern_shortcut_path :
    ∃ t m m', Converges (fun k => FPTree.insertCalls k [([0, 1, 2], 4)]) t ∧
      Converges (fun k => findPattern 4 k t) m ∧ Converges (fun k => findPatternGeneral 4 k t) m' ∧
      m.toList = m'.toList := by
  have ht : Converges (fun k => FPTree.insertCalls k [([0, 1, 2], 4)])
      ⟨[⟨-1, 1, none, [1], none⟩, ⟨2, 4, some 0, [2], none⟩, ⟨1, 4, some 1, [3], none⟩,
        ⟨0, 4, some 2, [], none⟩], 0,
        (((∅ : Std.TreeMap Int Nat).insertIfNew 2 1).insertIfNew 1 2).insertIfNew 0 3⟩ :=
    Converges.of_eq fun k => rfl
  obtain ⟨m, m', hm, hm', he⟩ := findPattern_shortcut (by decide) (by decide) (by decide) ht
    (show (1 : Int) ≤ 4 by decide) (chain_ge (by decide) fun x first hx => by
      simp only [Std.TreeMap.getElem?_insertIfNew, Std.TreeMap.getElem?_emptyc] at hx
      split_ifs at hx <;> cases hx <;> decide)
  exact ⟨_, m, m', ht, hm, hm', he⟩

/-- What `InsertNodes` makes of the transaction `{0, -1}`. -/
def markedTree : FPTree :=
  ⟨[⟨-1, 1, none, [1], none⟩, ⟨-1, 1, some 0, [2], none⟩, ⟨0, 1, some 1, [], none⟩], 0,
    ((∅ : Std.TreeMap Int Nat).insertIfNew (-1) 1).insertIfNew 0 2⟩

/-- The walk up from the node of `0` takes the node of `-1` for the root, and the pair is lost. -/
theorem findPattern_shortcut_marked :
    ∃ t m m', Converges (fun k => FPTree.insertCalls k [([0, -1], 1)]) t ∧
      (∀ (x : Int) l, Linked t.nextOf t.header[x]? l → l ≠ [] → 1 ≤ (l.map t.frequencyAt).sum) ∧
      Converges (fun k => findPattern 1 k t) m ∧ Converges (fun k => findPatternGeneral 1 k t) m' ∧
      m.toList ≠ m'.toList := by
  obtain ⟨m₁, hadd₁, hm₁⟩ := addItem_spec (-1) 1 ((∅ : Patterns).insertIfNew {-1} 1)
  obtain ⟨m₂, hadd₂, hm₂⟩ := addItem_spec 0 1 (m₁.insertIfNew {0} 1)
  have hfuel : ∀ {α : Type} {f : Nat → Option α} {a : α}, (∀ k, f (k + 3) = some a) →
      Converges f a := by
    intro α f a h
    refine ⟨3, fun k hk => ?_⟩
    obtain ⟨j, rfl⟩ := Nat.exists_eq_add_of_le' hk
    exact h j
  refine ⟨markedTree, m₂, addPatterns 0 1 (addPatterns (-1) 1 ∅ ∅) ∅, Converges.of_eq fun k => rfl,
    ?_, ?_, ?_, ?_⟩
  · refine chain_ge (by decide) fun x first hx => ?_
    simp only [markedTree, Std.TreeMap.getElem?_insertIfNew, Std.TreeMap.getElem?_emptyc] at hx
    split_ifs at hx <;> cases hx <;> decide
  · -- The shortcut goes down the path and joins the two items.
    have hend : Converges (fun k => markedTree.pathPatterns k 2 m₂) m₂ := hfuel fun k => rfl
    have hpath : Converges (fun k => markedTree.pathPatterns k 1 m₁) m₂ :=
      Converges.succ (fun k => rfl) (hadd₂.bind hend)
    have hsingle : Converges (fun k => markedTree.isSinglePath k) true := hfuel fun k => rfl
    exact Converges.succ (fun k => rfl)
      (hsingle.bind (Converges.succ (fun k => rfl) (hadd₁.bind hpath)))
  · -- The general recursion finds nothing above either item.
    have hempty : Converges (fun k => findPatternGeneral 1 k FPTree.empty) ∅ :=
      Converges.succ (fun k => rfl) (Converges.pure ∅)
    have hcollect₁ : Converges (fun k => markedTree.collect k (some 1) ⟨[], ∅, 0⟩) ⟨[], ∅, 1⟩ :=
      hfuel fun k => rfl
    have hcollect₂ : Converges (fun k => markedTree.collect k (some 2) ⟨[], ∅, 0⟩) ⟨[], ∅, 1⟩ :=
      hfuel fun k => rfl
    have htree : Converges (fun k => Conditional.tree k ⟨[], ∅, 1⟩ 1) FPTree.empty :=
      Converges.of_eq fun k => rfl
    have hlist : markedTree.header.toList = [(-1, 1), (0, 2)] := by decide
    have hloop : Converges (fun k => markedTree.headerPatterns k 1 (findPatternGeneral 1 k))
        (addPatterns 0 1 (addPatterns (-1) 1 ∅ ∅) ∅) := by
      simp only [FPTree.headerPatterns, hlist, List.foldlM_cons, List.foldlM_nil]
      exact (headerRound hcollect₁ htree hempty ∅).bind
        ((headerRound hcollect₂ htree hempty _).bind (Converges.pure _))
    exact Converges.succ (fun k => rfl) hloop
  · intro he
    have hrest : ({0, -1} : Finset Int).erase 0 ∈ m₁.insertIfNew {0} 1 := by
      rw [show ({0, -1} : Finset Int).erase 0 = {-1} by decide]
      exact Std.TreeMap.mem_insertIfNew.mpr (.inr (hm₁.mem_of_mem (by simp)))
    have hboth := (hm₂ {0, -1}).1 ⟨by decide, hrest, trivial⟩
    have hnone : (addPatterns 0 1 (addPatterns (-1) 1 ∅ ∅) ∅)[({0, -1} : Finset Int)]? = none := by
      rw [getElem?_addPatterns (by simp), getElem?_addPatterns (by simp)]
      decide
    rw [(Std.TreeMap.equiv_iff_toList_eq.mpr he).getElem?_eq, hnone] at hboth
    cases hget : (m₁.insertIfNew {0} 1)[({0, -1} : Finset Int)]? <;> simp [hget] at hboth

end NctuCourses.FpGrowth
