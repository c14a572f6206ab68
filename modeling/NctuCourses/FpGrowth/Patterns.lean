import Mathlib.Order.Compare
import NctuCourses.Lib.Fuel
import NctuCourses.FpGrowth.Growth

namespace NctuCourses.FpGrowth

open NctuCourses.Lib

theorem patternKey_injective : Function.Injective patternKey := by
  intro s t h
  have hsort : s.sort = t.sort := congrArg (fun k : ℕ ×ₗ List Int => (ofLex k).2) h
  rw [← s.sort_toFinset (· ≤ ·), hsort, t.sort_toFinset]

theorem comp_iff {s t : Finset Int} : comp s t = true ↔ patternKey s < patternKey t := by
  have hlt : patternKey s < patternKey t ↔ s.card < t.card ∨ s.card = t.card ∧ s.sort < t.sort :=
    Prod.Lex.toLex_lt_toLex
  rw [comp, hlt]
  by_cases h : s.card = t.card
  · simp [h]
  · simp [h]

theorem patternCmp_eq : patternCmp = compareOn patternKey := by
  funext s t
  rw [patternCmp, compareOn, LinearOrder.compare_eq_compareOfLessAndEq, compareOfLessAndEq]
  rcases lt_trichotomy (patternKey s) (patternKey t) with h | h | h
  · rw [if_pos (comp_iff.mpr h), if_pos h]
  · have hs : ¬ comp s t = true := fun hc => (comp_iff.mp hc).ne h
    have ht : ¬ comp t s = true := fun hc => (comp_iff.mp hc).ne h.symm
    rw [if_neg hs, if_neg ht, if_neg h.not_lt, if_pos h]
  · have hs : ¬ comp s t = true := fun hc => lt_asymm h (comp_iff.mp hc)
    rw [if_neg hs, if_pos (comp_iff.mpr h), if_neg h.not_gt, if_neg h.ne']

instance : Std.TransCmp patternCmp := by
  rw [patternCmp_eq]
  infer_instance

instance : Std.LawfulEqCmp patternCmp where
  compare_self := Std.ReflCmp.compare_self
  eq_of_compare {s t} h := by
    rw [patternCmp_eq, compareOn, compare_eq_iff_eq] at h
    exact patternKey_injective h

theorem patternCmp_lt {s t : Finset Int} : patternCmp s t = .lt ↔ comp s t = true := by
  rw [patternCmp_eq, compareOn, compare_lt_iff_lt, comp_iff]

theorem comp_trans {s t u : Finset Int} (h : comp s t = true) (h' : comp t u = true) :
    comp s u = true :=
  comp_iff.mpr ((comp_iff.mp h).trans (comp_iff.mp h'))

theorem comp_irrefl (s : Finset Int) : ¬ comp s s = true := fun h => lt_irrefl _ (comp_iff.mp h)

theorem comp_trichotomy (s t : Finset Int) : comp s t = true ∨ s = t ∨ comp t s = true := by
  rcases lt_trichotomy (patternKey s) (patternKey t) with h | h | h
  · exact .inl (comp_iff.mpr h)
  · exact .inr (.inl (patternKey_injective h))
  · exact .inr (.inr (comp_iff.mpr h))

section Maps

variable {m : Patterns} {S T : Finset Int} {n : Int}

theorem mem_iff : S ∈ m ↔ ∃ n, m[S]? = some n := by
  rw [← Std.TreeMap.isSome_getElem?_iff_mem, Option.isSome_iff_exists]

theorem getElem?_insertIfNew_or (T : Finset Int) (n : Int) :
    (m.insertIfNew T n)[S]? = (m[S]?).or (if T = S then some n else none) := by
  rw [Std.TreeMap.getElem?_insertIfNew]
  by_cases hT : T = S
  · subst hT
    cases hm : m[T]? with
    | none =>
      have hnot : T ∉ m := by simpa using hm
      simp [hnot]
    | some v => simp [mem_iff.mpr ⟨v, hm⟩]
  · have hne : patternCmp T S ≠ .eq := fun h => hT (Std.LawfulEqCmp.eq_of_compare h)
    simp [hT, hne]

theorem getElem?_foldl_insertIfNew {α : Type} (l : List α) (key : α → Finset Int)
    (value : α → Int) :
    (l.foldl (fun m e => m.insertIfNew (key e) (value e)) m)[S]? =
      (m[S]?).or ((l.find? fun e => key e = S).map value) := by
  induction l generalizing m with
  | nil => simp
  | cons e l ih =>
    rw [List.foldl_cons, ih, getElem?_insertIfNew_or, Option.or_assoc, List.find?_cons]
    by_cases he : key e = S
    · simp [he]
    · simp [he]

theorem after_some {E : Finset Int × Int} (h : FPTree.after m S = some E) :
    m[E.1]? = some E.2 ∧ comp S E.1 = true ∧ ∀ T ∈ m, comp S T = true → ¬ comp T E.1 = true := by
  obtain ⟨hE, l₁, l₂, hl, hbefore⟩ := List.find?_eq_some_iff_append.mp h
  have hmem : E ∈ m.toList := by simp [hl]
  refine ⟨Std.TreeMap.mem_toList_iff_getElem?_eq_some.mp hmem, hE, fun T hT hST hTE => ?_⟩
  obtain ⟨v, hv⟩ := mem_iff.mp hT
  have hTmem : (T, v) ∈ m.toList := Std.TreeMap.mem_toList_iff_getElem?_eq_some.mpr hv
  have hord := Std.TreeMap.ordered_keys_toList (t := m)
  rw [hl] at hTmem hord
  rcases List.mem_append.mp hTmem with hT | hT
  · simpa [hST] using hbefore _ hT
  · rcases List.mem_cons.mp hT with rfl | hT
    · exact comp_irrefl _ hTE
    · have hlt := (List.pairwise_cons.mp (List.pairwise_append.mp hord).2.1).1 _ hT
      exact comp_irrefl _ (comp_trans hTE (patternCmp_lt.mp hlt))

theorem after_none (h : FPTree.after m S = none) (hT : T ∈ m) : ¬ comp S T = true := by
  obtain ⟨v, hv⟩ := mem_iff.mp hT
  exact List.find?_eq_none.mp h _ (Std.TreeMap.mem_toList_iff_getElem?_eq_some.mpr hv)

theorem head_some {E : Finset Int × Int} (h : m.toList.head? = some E) :
    m[E.1]? = some E.2 ∧ ∀ T ∈ m, ¬ comp T E.1 = true := by
  obtain ⟨l, hl⟩ := List.head?_eq_some_iff.mp h
  refine ⟨Std.TreeMap.mem_toList_iff_getElem?_eq_some.mp (by simp [hl]), fun T hT hTE => ?_⟩
  obtain ⟨v, hv⟩ := mem_iff.mp hT
  have hTmem : (T, v) ∈ m.toList := Std.TreeMap.mem_toList_iff_getElem?_eq_some.mpr hv
  have hord := Std.TreeMap.ordered_keys_toList (t := m)
  rw [hl] at hTmem hord
  rcases List.mem_cons.mp hTmem with rfl | hT
  · exact comp_irrefl _ hTE
  · have hlt := (List.pairwise_cons.mp hord).1 _ hT
    exact comp_irrefl _ (comp_trans hTE (patternCmp_lt.mp hlt))

end Maps

section AddItem

variable {item frequency : Int} {m₀ m : Patterns} {E : Finset Int × Int}

/-- The patterns of `m₀`, and those with `item` added for which `P` holds. -/
def Added (item frequency : Int) (m₀ : Patterns) (P : Finset Int → Prop) (m : Patterns) : Prop :=
  ∀ S : Finset Int, (item ∈ S ∧ S.erase item ∈ m₀ ∧ P (S.erase item) →
    m[S]? = (m₀[S]?).or (some frequency)) ∧
    (¬ (item ∈ S ∧ S.erase item ∈ m₀ ∧ P (S.erase item)) → m[S]? = m₀[S]?)

theorem Added.congr {P Q : Finset Int → Prop} (h : Added item frequency m₀ P m)
    (hPQ : ∀ S ∈ m₀, P S ↔ Q S) : Added item frequency m₀ Q m := by
  intro S
  have hiff : (item ∈ S ∧ S.erase item ∈ m₀ ∧ P (S.erase item)) ↔
      (item ∈ S ∧ S.erase item ∈ m₀ ∧ Q (S.erase item)) :=
    and_congr_right fun _ => and_congr_right fun hm => hPQ _ hm
  rw [← hiff]
  exact h S

theorem Added.mem {P : Finset Int → Prop} (h : Added item frequency m₀ P m) {S : Finset Int}
    (hS : S ∈ m) :
    S ∈ m₀ ∨ item ∈ S ∧ S.erase item ∈ m₀ ∧ P (S.erase item) := by
  by_cases hP : item ∈ S ∧ S.erase item ∈ m₀ ∧ P (S.erase item)
  · exact .inr hP
  · obtain ⟨n, hn⟩ := mem_iff.mp hS
    rw [(h S).2 hP] at hn
    exact .inl (mem_iff.mpr ⟨n, hn⟩)

theorem Added.mem_of_mem {P : Finset Int → Prop} (h : Added item frequency m₀ P m) {S : Finset Int}
    (hS : S ∈ m₀) : S ∈ m := by
  obtain ⟨n, hn⟩ := mem_iff.mp hS
  refine mem_iff.mpr ⟨n, ?_⟩
  by_cases hP : item ∈ S ∧ S.erase item ∈ m₀ ∧ P (S.erase item)
  · rw [(h S).1 hP, hn]
    rfl
  · rw [(h S).2 hP, hn]

theorem Added.round (h : Added item frequency m₀ (fun S => comp S E.1 = true) m) (hE : E.1 ∈ m) :
    Added item frequency m₀ (fun S => comp S E.1 = true ∨ S = E.1)
      (if E.1 ≠ {item} then m.insertIfNew (insert item E.1) frequency else m) := by
  by_cases hitem : item ∈ E.1
  · -- The set with the item added is there already.
    have hsame : ∀ S : Finset Int,
        (if E.1 ≠ {item} then m.insertIfNew (insert item E.1) frequency else m)[S]? = m[S]? := by
      intro S
      split_ifs
      · obtain ⟨n, hn⟩ := mem_iff.mp hE
        rw [getElem?_insertIfNew_or, Finset.insert_eq_of_mem hitem]
        by_cases hS : E.1 = S
        · rw [← hS, hn]
          rfl
        · rw [if_neg hS, Option.or_none]
      · rfl
    intro S
    have hne : S.erase item ≠ E.1 := fun he => Finset.notMem_erase item S (he ▸ hitem)
    rw [hsame]
    simpa only [hne, or_false] using h S
  · have hE₀ : E.1 ∈ m₀ := (h.mem hE).resolve_right fun hh => hitem hh.1
    have hone : E.1 ≠ {item} := fun he => hitem (by simp [he])
    rw [if_pos hone]
    intro S
    rw [getElem?_insertIfNew_or]
    by_cases hS : insert item E.1 = S
    · subst hS
      have herase : (insert item E.1).erase item = E.1 := Finset.erase_insert hitem
      rw [herase, if_pos rfl]
      refine ⟨fun _ => ?_, fun hn => absurd ⟨Finset.mem_insert_self _ _, hE₀, .inr rfl⟩ hn⟩
      have hnot : ¬ (item ∈ insert item E.1 ∧ (insert item E.1).erase item ∈ m₀ ∧
          comp ((insert item E.1).erase item) E.1 = true) := by
        rw [herase]
        exact fun hh => comp_irrefl _ hh.2.2
      rw [(h _).2 hnot]
    · have hne : item ∈ S → S.erase item ≠ E.1 :=
        fun hi he => hS (by rw [← he, Finset.insert_erase hi])
      rw [if_neg hS, Option.or_none]
      have hiff : (item ∈ S ∧ S.erase item ∈ m₀ ∧ (comp (S.erase item) E.1 = true ∨
          S.erase item = E.1)) ↔
          (item ∈ S ∧ S.erase item ∈ m₀ ∧ comp (S.erase item) E.1 = true) :=
        and_congr_right fun hi => and_congr_right fun _ => or_iff_left (hne hi)
      rw [hiff]
      exact h S

/-- All that the loop can come to. -/
def reachable (item : Int) (m₀ : Patterns) : Finset (Finset Int) :=
  m₀.keys.toFinset ∪ m₀.keys.toFinset.image (insert item)

theorem Added.reachable {P : Finset Int → Prop} (h : Added item frequency m₀ P m) {S : Finset Int}
    (hS : S ∈ m) : S ∈ reachable item m₀ := by
  have hkeys : ∀ {T : Finset Int}, T ∈ m₀ → T ∈ m₀.keys.toFinset := fun hT => by
    simpa using hT
  rcases h.mem hS with hS | ⟨hi, he, _⟩
  · exact Finset.mem_union_left _ (hkeys hS)
  · exact Finset.mem_union_right _ (Finset.mem_image.mpr ⟨_, hkeys he, Finset.insert_erase hi⟩)

/-- The loop from the entry `E` on: it comes to the end, although it
inserts into what it goes over. -/
theorem addItem_from (hE : E.1 ∈ m) (h : Added item frequency m₀ (fun S => comp S E.1 = true) m) :
    ∃ m', Converges (fun k => FPTree.addItem item frequency k m (some E)) m' ∧
      Added item frequency m₀ (fun _ => True) m' := by
  -- Each round goes up in the order, in a finite set.
  induction hn : ((reachable item m₀).filter fun T => comp E.1 T = true).card using
    Nat.strong_induction_on generalizing m E with
  | _ n ih =>
    have hround := h.round hE
    generalize hm₁ : (if E.1 ≠ {item} then m.insertIfNew (insert item E.1) frequency else m) =
      m₁ at hround
    have hunfold : ∀ k, FPTree.addItem item frequency (k + 1) m (some E) =
        FPTree.addItem item frequency k m₁ (FPTree.after m₁ E.1) := by
      intro k
      rw [FPTree.addItem, ← hm₁]
    cases hafter : FPTree.after m₁ E.1 with
    | none =>
      refine ⟨m₁, ?_, hround.congr fun S hS => ?_⟩
      · refine Converges.succ hunfold (Converges.succ (fun k => ?_) (Converges.pure m₁))
        rw [hafter, FPTree.addItem]
      · have := after_none hafter (hround.mem_of_mem hS)
        rcases comp_trichotomy S E.1 with hlt | heq | hgt
        · simp [hlt]
        · simp [heq]
        · exact absurd hgt this
    | some E' =>
      obtain ⟨hE', hup, hnext⟩ := after_some hafter
      have hmem' : E'.1 ∈ m₁ := mem_iff.mpr ⟨_, hE'⟩
      have hinv : Added item frequency m₀ (fun S => comp S E'.1 = true) m₁ := by
        refine hround.congr fun S hS => ⟨?_, fun hlt => ?_⟩
        · rintro (hlt | rfl)
          · exact comp_trans hlt hup
          · exact hup
        · rcases comp_trichotomy S E.1 with h1 | h1 | h1
          · exact .inl h1
          · exact .inr h1
          · exact absurd hlt (hnext S (hround.mem_of_mem hS) h1)
      have hless : ((reachable item m₀).filter fun T => comp E'.1 T = true).card < n := by
        rw [← hn]
        refine Finset.card_lt_card (Finset.ssubset_iff_of_subset ?_ |>.mpr ⟨E'.1, ?_, ?_⟩)
        · intro T hT
          obtain ⟨hT, hc⟩ := Finset.mem_filter.mp hT
          exact Finset.mem_filter.mpr ⟨hT, comp_trans hup hc⟩
        · exact Finset.mem_filter.mpr ⟨hround.reachable hmem', hup⟩
        · exact fun hh => comp_irrefl _ (Finset.mem_filter.mp hh).2
      obtain ⟨m', hc, hadd⟩ := ih _ hless hmem' hinv rfl
      refine ⟨m', Converges.succ hunfold ?_, hadd⟩
      rwa [hafter]

theorem addItem_spec (item frequency : Int) (m : Patterns) :
    ∃ m', Converges (fun k => FPTree.addItem item frequency k m m.toList.head?) m' ∧
      Added item frequency m (fun _ => True) m' := by
  cases hhead : m.toList.head? with
  | none =>
    refine ⟨m, Converges.succ (fun k => by rw [FPTree.addItem]) (Converges.pure m), fun S => ?_⟩
    have hempty : m.toList = [] := List.head?_eq_none_iff.mp hhead
    have hno : ∀ T, T ∉ m := fun T hT => by
      obtain ⟨v, hv⟩ := mem_iff.mp hT
      have := Std.TreeMap.mem_toList_iff_getElem?_eq_some.mpr hv
      simp [hempty] at this
    exact ⟨fun hh => absurd hh.2.1 (hno _), fun _ => rfl⟩
  | some E =>
    obtain ⟨hE, hmin⟩ := head_some hhead
    refine addItem_from (mem_iff.mpr ⟨_, hE⟩) fun S =>
      ⟨fun hh => absurd hh.2.2 (hmin _ hh.2.1), fun _ => rfl⟩

end AddItem

end NctuCourses.FpGrowth
