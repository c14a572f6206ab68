import NctuCourses.FpGrowth.Insert

namespace NctuCourses.FpGrowth

open NctuCourses.Lib

namespace FPTree

def itemAt (t : FPTree) (i : Nat) : Option Int := (t.nodes[i]?).map (·.item)

/-- The nodes that are reached from the root through the children. -/
inductive InTree (t : FPTree) : Nat → Prop
  | root : t.InTree t.root
  | child {i c : Nat} {n : FPNode} : t.InTree i → t.nodes[i]? = some n → c ∈ n.children → t.InTree c

/-- Calls of `InsertNodes` on an empty tree, each with a transaction and its `repeat`. -/
def insertCalls (fuel : Nat) (calls : List (List Int × Int)) : Option FPTree :=
  calls.foldlM (fun t call => t.insertNodes fuel call.1 call.2) FPTree.empty

def insertCallsInt (fuel : Nat) (calls : List (List Int × Int)) : Option FPTree :=
  calls.foldlM (fun t call => t.insertNodesInt fuel call.1 call.2) FPTree.empty

theorem foldlM_of_some {α σ : Type} {f g : σ → α → Option σ}
    (h : ∀ s a s', f s a = some s' → g s a = some s') {l : List α} {s s' : σ}
    (hl : l.foldlM f s = some s') : l.foldlM g s = some s' := by
  induction l generalizing s with
  | nil => exact hl
  | cons a l ih =>
    rw [List.foldlM_cons] at hl ⊢
    obtain ⟨s₁, hs, hl⟩ := Option.bind_eq_some_iff.mp hl
    exact Option.bind_eq_some_iff.mpr ⟨s₁, h s a s₁ hs, ih hl⟩

/-- Where the `int`s are defined, they are the exact counts. -/
theorem insertCalls_of_int {fuel : Nat} {calls : List (List Int × Int)} {t : FPTree}
    (h : insertCallsInt fuel calls = some t) : insertCalls fuel calls = some t := by
  refine foldlM_of_some (fun t call t' hcall => ?_) h
  obtain ⟨st, hst, rfl⟩ := Option.map_eq_some_iff.mp hcall
  refine Option.map_eq_some_iff.mpr ⟨st, foldlM_of_some (fun s x s' hx => ?_) hst, rfl⟩
  obtain ⟨s₁, hs, hx⟩ := Option.bind_eq_some_iff.mp hx
  obtain ⟨_, -, rfl⟩ := Option.map_eq_some_iff.mp hx
  exact hs

end FPTree

/-- The three link structures of the tree agree, and the frequencies are those of the calls. The
root is not the node of an item, and its frequency is not kept. -/
structure WellLinked (t : FPTree) (calls : List (List Int × Int)) : Prop where
  siblings : ∀ i n, t.InTree i → t.nodes[i]? = some n → (n.children.map t.itemAt).Nodup
  parents : ∀ i n, t.InTree i → t.nodes[i]? = some n → ∀ c ∈ n.children,
    ∃ m, t.nodes[c]? = some m ∧ m.parent = some i
  chains : ∀ x, ∃ l, Linked t.nextOf t.header[x]? l ∧ l.Nodup ∧
    (∀ i, i ∈ l ↔ t.InTree i ∧ i ≠ t.root ∧ t.itemAt i = some x) ∧
    (l.map t.frequencyAt).sum = (calls.map fun call => call.2 * (call.1.count x : Int)).sum
  frequencies : ∀ i n, t.InTree i → i ≠ t.root → t.nodes[i]? = some n →
    (n.children.map t.frequencyAt).sum ≤ n.frequency

section Places

variable {ps : List (List Int)} {l : List Nat} {qs : List (List Int)}

theorem At.exists_place (h : At ps l qs) {q : List Int} (hq : q ∈ qs) :
    ∃ i ∈ l, ps[i]? = some q := by
  induction h with
  | nil => cases hq
  | @cons i r l qs hi _ ih =>
    rcases List.mem_cons.mp hq with rfl | hq
    · exact ⟨i, by simp, hi⟩
    · obtain ⟨j, hj, hqj⟩ := ih hq
      exact ⟨j, by simp [hj], hqj⟩

theorem At.map_eq {β : Type} {g : Nat → β} {g' : List Int → β} (h : At ps l qs)
    (hg : ∀ i q, q ∈ qs → ps[i]? = some q → g i = g' q) : l.map g = qs.map g' := by
  induction h with
  | nil => rfl
  | @cons i q l qs hi _ ih =>
    rw [List.map_cons, List.map_cons, hg i q (by simp) hi, ih fun j r hr => hg j r (by simp [hr])]

end Places

namespace Shape

variable {t : FPTree} {ps : List (List Int)} {f : List Int → Int} {p q : List Int} {i : Nat}

theorem itemAt (h : Shape t ps f) (hi : ps[i]? = some p) : t.itemAt i = some (p.getLastD (-1)) := by
  obtain ⟨n, hn, hnode⟩ := h.get hi
  rw [FPTree.itemAt, hn, Option.map_some, hnode.item]

theorem frequencyAt (h : Shape t ps f) (hi : ps[i]? = some p) (hp : p ≠ []) :
    t.frequencyAt i = f p := by
  obtain ⟨n, hn, hnode⟩ := h.get hi
  rw [FPTree.frequencyAt, hn, Option.elim_some, hnode.frequency hp]

theorem root_iff (h : Shape t ps f) (hi : ps[i]? = some p) : i = t.root ↔ p = [] := by
  rw [h.root]
  constructor
  · rintro rfl
    exact Option.some.inj (hi.symm.trans h.first)
  · rintro rfl
    exact h.place_unique hi h.first

theorem exists_parent (h : Shape t ps f) {x : Int} (hi : ps[i]? = some (p ++ [x])) :
    ∃ (j : Nat) (n : FPNode), ps[j]? = some p ∧ t.nodes[j]? = some n ∧ i ∈ n.children := by
  obtain ⟨j, hj⟩ := List.mem_iff_getElem?.mp (h.closed (List.mem_of_getElem? hi))
  obtain ⟨n, hn, hnode⟩ := h.get hj
  obtain ⟨c, hc, hpc⟩ := hnode.children.exists_place
    (mem_kids.mpr ⟨List.mem_of_getElem? hi, x, rfl⟩)
  obtain rfl := h.place_unique hi hpc
  exact ⟨j, n, hj, hn, hc⟩

theorem inTree_of_path (h : Shape t ps f) (hi : ps[i]? = some p) : t.InTree i := by
  induction p using List.reverseRecOn generalizing i with
  | nil =>
    rw [(h.root_iff hi).mpr rfl]
    exact .root
  | append_singleton p x ih =>
    obtain ⟨j, n, hj, hn, hc⟩ := h.exists_parent hi
    exact .child (ih hj) hn hc

theorem path_of_inTree (h : Shape t ps f) (hi : t.InTree i) : ∃ p, ps[i]? = some p := by
  induction hi with
  | root => exact ⟨[], by rw [h.root]; exact h.first⟩
  | @child i c n _ hn hc ih =>
    obtain ⟨p, hp⟩ := ih
    obtain ⟨q, _, hq⟩ := (h.node i p n hp hn).children.mem hc
    exact ⟨q, hq⟩

theorem siblings (h : Shape t ps f) {n : FPNode} (hn : NodeOf ps f p n) :
    (n.children.map t.itemAt).Nodup := by
  have hmap : n.children.map t.itemAt = (kids ps p).map fun q => some (q.getLastD (-1)) :=
    hn.children.map_eq fun i q _ hi => h.itemAt hi
  rw [hmap]
  refine List.Nodup.map_on ?_ (h.nodup.filter _)
  intro q hq r hr he
  obtain ⟨_, y, rfl⟩ := mem_kids.mp hq
  obtain ⟨_, z, rfl⟩ := mem_kids.mp hr
  simpa using he

theorem parent_of_child (h : Shape t ps f) {n : FPNode} (hi : ps[i]? = some p)
    (hn : NodeOf ps f p n) {c : Nat} (hc : c ∈ n.children) :
    ∃ m, t.nodes[c]? = some m ∧ m.parent = some i := by
  obtain ⟨q, hq, hqc⟩ := hn.children.mem hc
  obtain ⟨_, y, rfl⟩ := mem_kids.mp hq
  obtain ⟨m, hm, hmnode⟩ := h.get hqc
  obtain ⟨j, hj, hpj⟩ := hmnode.parent p y rfl
  rw [h.place_unique hi hpj]
  exact ⟨m, hm, hj⟩

theorem mem_chain_iff (h : Shape t ps f) {x : Int} {l : List Nat} (hat : At ps l (ending ps x)) :
    i ∈ l ↔ t.InTree i ∧ i ≠ t.root ∧ t.itemAt i = some x := by
  constructor
  · intro hi
    obtain ⟨q, hq, hqi⟩ := hat.mem hi
    have hlast : q.getLast? = some x := by simpa using (List.mem_filter.mp hq).2
    obtain ⟨p, rfl⟩ := List.getLast?_eq_some_iff.mp hlast
    refine ⟨h.inTree_of_path hqi, fun hroot => ?_, ?_⟩
    · simpa using (h.root_iff hqi).mp hroot
    · rw [h.itemAt hqi]
      simp
  · rintro ⟨hin, hroot, hitem⟩
    obtain ⟨p, hp⟩ := h.path_of_inTree hin
    have hne : p ≠ [] := fun hnil => hroot ((h.root_iff hp).mpr hnil)
    obtain ⟨q, y, rfl⟩ := List.eq_nil_or_concat' p |>.resolve_left hne
    have hy : y = x := by
      rw [h.itemAt hp] at hitem
      simpa using hitem
    have hmem : q ++ [y] ∈ ending ps x :=
      List.mem_filter.mpr ⟨List.mem_of_getElem? hp, by simp [hy]⟩
    obtain ⟨j, hj, hpj⟩ := hat.exists_place hmem
    rwa [h.place_unique hp hpj]

end Shape

theorem Represents.insertCalls {calls : List (List Int × Int)}
    (hitem : ∀ call ∈ calls, ∀ x ∈ call.1, x ≠ -1) :
    ∃ t, Converges (fun k => FPTree.insertCalls k calls) t ∧
      Represents t (calls.map fun call => (call.1.reverse, call.2)) := by
  refine Converges.foldlM calls (fun k t call => t.insertNodes k call.1 call.2) FPTree.empty
    (fun done t => Represents t (done.map fun call => (call.1.reverse, call.2))) Represents.empty ?_
  intro done call rest t hl ht
  obtain ⟨t', hconv, ht'⟩ := ht.insertNodes (hitem call (by simp [hl])) call.2
  exact ⟨t', hconv, by rw [List.map_append]; exact ht'⟩

theorem Represents.wellLinked {t : FPTree} {calls : List (List Int × Int)}
    (h : Represents t (calls.map fun call => (call.1.reverse, call.2)))
    (hrep : ∀ call ∈ calls, 1 ≤ call.2) : WellLinked t calls := by
  obtain ⟨ps, hshape, hps⟩ := h
  have hw : ∀ e ∈ calls.map (fun call => (call.1.reverse, call.2)), 0 ≤ e.2 := by
    intro e he
    obtain ⟨call, hcall, rfl⟩ := List.mem_map.mp he
    have := hrep call hcall
    dsimp only
    omega
  refine ⟨?_, ?_, ?_, ?_⟩
  · intro i n hi hn
    obtain ⟨p, hp⟩ := hshape.path_of_inTree hi
    exact hshape.siblings (hshape.node i p n hp hn)
  · intro i n hi hn c hc
    obtain ⟨p, hp⟩ := hshape.path_of_inTree hi
    exact hshape.parent_of_child hp (hshape.node i p n hp hn) hc
  · intro x
    obtain ⟨l, hl, hat⟩ := hshape.chain x
    refine ⟨l, hl, hl.nodup, fun i => hshape.mem_chain_iff hat, ?_⟩
    have hfreq : l.map t.frequencyAt =
        (ending ps x).map (prefixWeight (calls.map fun call => (call.1.reverse, call.2))) := by
      refine hat.map_eq fun i q hq hi => hshape.frequencyAt hi ?_
      rintro rfl
      simpa using (List.mem_filter.mp hq).2
    have hsum := sum_prefixWeight_ending (x := x) hshape.nodup
      fun e he p _ hpre => (hps p).mpr (.inr ⟨e, he, hpre⟩)
    rw [hfreq, ending, hsum, List.map_map]
    refine congrArg List.sum (List.map_congr_left fun call _ => ?_)
    simp only [Function.comp_apply, List.count_reverse]
  · intro i n hi hroot hn
    obtain ⟨p, hp⟩ := hshape.path_of_inTree hi
    have hne : p ≠ [] := fun hnil => hroot ((hshape.root_iff hp).mpr hnil)
    have hnode := hshape.node i p n hp hn
    have hfreq : n.children.map t.frequencyAt =
        (kids ps p).map (prefixWeight (calls.map fun call => (call.1.reverse, call.2))) := by
      refine hnode.children.map_eq fun j q hq hj => hshape.frequencyAt hj ?_
      obtain ⟨_, y, rfl⟩ := mem_kids.mp hq
      simp
    rw [hfreq, hnode.frequency hne]
    exact sum_prefixWeight_le hw (hshape.nodup.filter _) fun q hq => (mem_kids.mp hq).2

theorem Along.stepInt {ps : List (List Int)} {f : List Int → Int} {rep x : Int} {done : List Int}
    {st : FPTree × Nat} (h : Along ps f rep done st) (hx : x ≠ -1)
    (hfit : -2 ^ 31 ≤ f (done ++ [x]) + rep ∧ f (done ++ [x]) + rep < 2 ^ 31) :
    ∃ st', Converges (fun k => FPTree.insertNodeInt k rep st x) st' ∧
    Along ps f rep (done ++ [x]) st' := by
  obtain ⟨st', hc, hst⟩ := h.step hx
  have hfreq : st'.1.frequencyAt st'.2 = f (done ++ [x]) + rep := by
    obtain ⟨ps', hshape, hcur, -⟩ := hst
    rw [hshape.frequencyAt hcur (by simp), if_pos ⟨by simp, List.prefix_rfl⟩]
  refine ⟨st', hc.bind (Converges.of_eq fun _ => ?_), hst⟩
  rw [hfreq, cint_some.mpr ⟨rfl, hfit⟩, Option.map_some]

theorem Represents.insertNodesInt {t : FPTree} {db : List (List Int × Int)} (h : Represents t db)
    {trans : List Int} (hnn : ∀ x ∈ trans, x ≠ -1) (rep : Int)
    (hfit : ∀ q, q ≠ [] → q <+: trans.reverse →
      -2 ^ 31 ≤ prefixWeight db q + rep ∧ prefixWeight db q + rep < 2 ^ 31) :
    ∃ t', Converges (fun k => t.insertNodesInt k trans rep) t' ∧
      Represents t' (db ++ [(trans.reverse, rep)]) := by
  obtain ⟨ps, hshape, hps⟩ := h
  obtain ⟨st, hc, hst⟩ := Converges.foldlM trans.reverse (fun k => FPTree.insertNodeInt k rep)
    (t, t.root) (Along ps (prefixWeight db) rep) hshape.along fun done x rest st hl hst =>
      hst.stepInt (hnn x (List.mem_reverse.mp (hl ▸ by simp)))
        (hfit _ (by simp) ⟨rest, by rw [hl, List.append_assoc]; rfl⟩)
  exact ⟨st.1, hc.map (·.1), hst.represents hps⟩

/-- The repeats of the transactions that end with an item sum up to an `int`. -/
def FitsInt (calls : List (List Int × Int)) : Prop :=
  ∀ x, (calls.map fun call => if call.1.getLast? = some x then call.2 else 0).sum < 2 ^ 31

/-- A path weighs no more than its first item, which is the last one of the transactions. -/
theorem FitsInt.prefixWeight_lt {calls : List (List Int × Int)} (h : FitsInt calls)
    (hrep : ∀ call ∈ calls, 1 ≤ call.2) {q : List Int} (hq : q ≠ []) :
    prefixWeight (calls.map fun call => (call.1.reverse, call.2)) q < 2 ^ 31 := by
  obtain ⟨x, q, rfl⟩ := List.exists_cons_of_ne_nil hq
  refine lt_of_le_of_lt ?_ (h x)
  rw [prefixWeight, List.map_map]
  refine List.sum_le_sum fun call hcall => ?_
  have := hrep call hcall
  dsimp only [Function.comp_apply]
  split_ifs with hpre hlast hlast
  · exact le_rfl
  · refine absurd ?_ hlast
    obtain ⟨l, hl⟩ := hpre
    rw [← List.head?_reverse, ← hl]
    rfl
  · omega
  · exact le_rfl

theorem Represents.insertCallsInt {calls : List (List Int × Int)}
    (hitem : ∀ call ∈ calls, ∀ x ∈ call.1, x ≠ -1) (hrep : ∀ call ∈ calls, 1 ≤ call.2)
    (hfit : FitsInt calls) :
    ∃ t, Converges (fun k => FPTree.insertCallsInt k calls) t ∧
      Represents t (calls.map fun call => (call.1.reverse, call.2)) := by
  have hnonneg : ∀ l : List (List Int × Int), (∀ call ∈ l, call ∈ calls) → ∀ q,
      0 ≤ prefixWeight (l.map fun call => (call.1.reverse, call.2)) q := by
    intro l hl q
    refine List.sum_nonneg fun n hn => ?_
    simp only [List.mem_map, exists_exists_and_eq_and] at hn
    obtain ⟨call, hcall, rfl⟩ := hn
    have := hrep call (hl call hcall)
    split_ifs <;> omega
  refine Converges.foldlM calls (fun k t call => t.insertNodesInt k call.1 call.2) FPTree.empty
    (fun done t => Represents t (done.map fun call => (call.1.reverse, call.2))) Represents.empty ?_
  intro done call rest t hl ht
  obtain ⟨t', hconv, ht'⟩ :=
    ht.insertNodesInt (hitem call (by simp [hl])) call.2 fun q hq hpre => by
    have hlt := hfit.prefixWeight_lt hrep hq
    have h0 := hnonneg done (by simp +contextual [hl]) q
    have h1 := hnonneg rest (by simp +contextual [hl]) q
    have := hrep call (by simp [hl])
    rw [hl, List.map_append, prefixWeight_append, List.map_cons, prefixWeight_cons, if_pos hpre]
      at hlt
    omega
  exact ⟨t', hconv, by rw [List.map_append]; exact ht'⟩

/-- Calls of `InsertNodes` on an empty tree whose counts fit into an `int`
return, and leave it well linked. -/
theorem insertCalls_wellLinked {calls : List (List Int × Int)}
    (hitem : ∀ call ∈ calls, ∀ x ∈ call.1, 0 ≤ x) (hrep : ∀ call ∈ calls, 1 ≤ call.2)
    (hfit : FitsInt calls) :
    ∃ t, Converges (fun k => FPTree.insertCallsInt k calls) t ∧ WellLinked t calls := by
  have hmark : ∀ call ∈ calls, ∀ x ∈ call.1, x ≠ -1 := by
    intro call hcall x hx
    have := hitem call hcall x hx
    omega
  obtain ⟨t, hconv, ht⟩ := Represents.insertCallsInt hmark hrep hfit
  exact ⟨t, hconv, ht.wellLinked hrep⟩

/-- Three transactions, one of them with a repeated item. -/
theorem insertCalls_wellLinked_repeated :
    ∃ t, Converges (fun k => FPTree.insertCallsInt k [([1, 2], 1), ([2, 2], 3), ([1], 1)]) t ∧
      ∃ l, Linked t.nextOf t.header[(2 : Int)]? l ∧ l.Nodup ∧ (l.map t.frequencyAt).sum = 7 := by
  obtain ⟨t, hconv, ht⟩ := @insertCalls_wellLinked [([1, 2], 1), ([2, 2], 3), ([1], 1)]
    (by decide) (by decide) fun x => by
      by_cases h1 : x = 1
      · rw [h1]
        decide
      · by_cases h2 : x = 2
        · rw [h2]
          decide
        · simp [Ne.symm h1, Ne.symm h2]
  obtain ⟨l, hl, hnd, _, hsum⟩ := ht.chains 2
  exact ⟨t, hconv, l, hl, hnd, hsum⟩

/-- The frequency of the root stays what the constructor makes it. -/
theorem insertCalls_root :
    ∃ t n, Converges (fun k => FPTree.insertCallsInt k [([0], 1), ([0], 1)]) t ∧
      t.nodes[t.root]? = some n ∧ ¬ (n.children.map t.frequencyAt).sum ≤ n.frequency := by
  refine ⟨_, _, Converges.of_eq fun k => rfl, rfl, ?_⟩
  decide

theorem insertCalls_overflow (fuel : Nat) :
    FPTree.insertCallsInt fuel [([0], 2147483647), ([0], 1)] = none := rfl

end NctuCourses.FpGrowth
