import Mathlib.Order.Interval.Finset.Nat
import NctuCourses.Lib.Linked
import NctuCourses.Osdi.Fat.Entry

namespace NctuCourses.Osdi.Fat

open NctuCourses.Lib
open NctuCourses.Osdi.Fs (FResult)

/-- `DWORD` increment. -/
def succ32 (a : Nat) : Nat := (a + 1) % 2 ^ 32

/-- The search of `create_chain` for a free cluster behind `ncl`: the cluster found, or the value
that the function returns at once. A whole turn takes fewer than `n_fatent` rounds. -/
def findFree (g : Geometry) (scl : Nat) : Nat → Nat → StateM Fatfs (Except Nat Nat)
  | 0, _ => return .error 0
  | fuel + 1, ncl => do
    let wrap := ncl + 1 ≥ g.nFatent
    let ncl := if wrap then 2 else ncl + 1
    if wrap ∧ ncl > scl then return .error 0
    let cs ← getFat g ncl
    if cs = 0 then return .ok ncl
    if cs = 1 ∨ cs = allOnes then return .error cs
    if ncl = scl then return .error 0
    findFree g scl fuel ncl

/-- `create_chain` from where `scl` is known. -/
def allocChain (g : Geometry) (clst scl : Nat) : StateM Fatfs Nat := do
  match ← findFree g scl g.nFatent scl with
  | .error r => return r
  | .ok ncl =>
    let res ← putFat g ncl allOnes
    let res ← if res = .ok ∧ clst ≠ 0 then putFat g clst ncl else pure res
    if res = .ok then
      modify fun fs => { fs with
        lastClst := ncl
        freeClst := if fs.freeClst < g.nFatent - 2 then sub32 fs.freeClst 1 else fs.freeClst
        fsiFlag := fs.fsiFlag ||| 1 }
      return ncl
    return if res = .diskErr then allOnes else 1

def createChain (g : Geometry) (clst : Nat) : StateM Fatfs Nat := do
  if clst = 0 then
    let scl := (← get).lastClst
    allocChain g clst (if scl = 0 ∨ scl ≥ g.nFatent then 1 else scl)
  else
    let cs ← getFat g clst
    if cs < 2 then return 1
    if cs = allOnes then return cs
    if cs < g.nFatent then return cs
    allocChain g clst clst

/-- The loop of `remove_chain`. Each round frees a cluster, so that `n_fatent` rounds are enough. -/
def removeLoop (g : Geometry) : Nat → Nat → StateM Fatfs FResult
  | 0, _ => return .ok
  | fuel + 1, clst => do
    let nxt ← getFat g clst
    if nxt = 0 then return .ok
    if nxt = 1 then return .intErr
    if nxt = allOnes then return .diskErr
    let res ← putFat g clst 0
    if res ≠ .ok then return res
    modify fun fs => if fs.freeClst ≠ allOnes then
      { fs with freeClst := succ32 fs.freeClst, fsiFlag := fs.fsiFlag ||| 1 } else fs
    if nxt < g.nFatent then removeLoop g fuel nxt else return .ok

def removeChain (g : Geometry) (clst pclst : Nat) : StateM Fatfs FResult := do
  if clst < 2 ∨ clst ≥ g.nFatent then return .intErr
  if pclst ≠ 0 then
    let res ← putFat g pclst allOnes
    if res ≠ .ok then return res
  removeLoop g g.nFatent clst

def Geometry.Clust (g : Geometry) (c : Nat) : Prop := 2 ≤ c ∧ c < g.nFatent

instance (g : Geometry) : DecidablePred g.Clust :=
  fun c => inferInstanceAs (Decidable (2 ≤ c ∧ c < g.nFatent))

section

variable {g : Geometry} {v : Fatfs}

theorem Geometry.Ok.nFatent_lt (hg : g.Ok) :
    g.nFatent + 8 < 2 ^ g.fsType.width ∧ g.nFatent < allOnes := by
  have h := hg.limit
  unfold allOnes
  cases hT : g.fsType <;> rw [hT] at h <;> simp only [FatType.width] at h ⊢ <;> omega

theorem entry_moved {t : Fatfs} (hg : g.Ok) (h : Moved g v t) {c : Nat} (hc : g.Clust c) :
    entry g t.view c = entry g v.view c :=
  entry_congr fun _ hi => by rw [bitAt, bitAt, fatBytes_congr h (hg.bit_lt hc.2 hi)]

/-- An entry is never the error value of `get_fat`. -/
theorem entry_lt_allOnes (d : Nat → Sector) (c : Nat) : entry g d c < allOnes := by
  refine (field_lt (b := fatBytes g d)).trans_le ?_
  cases g.fsType <;> decide

/-- The clusters that the search from `scl`, which is at `ncl`, has not seen yet. -/
def InRest (scl ncl c : Nat) : Prop := if ncl < scl then ncl < c ∧ c ≤ scl else ncl < c ∨ c ≤ scl

theorem InRest.next {scl ncl c n : Nat} (h : InRest scl ncl c) (hscl : 1 ≤ scl)
    (hc : 2 ≤ c ∧ c < n) :
    ¬ (ncl + 1 ≥ n ∧ 2 > scl) ∧
    (c = (if ncl + 1 ≥ n then 2 else ncl + 1) ∨
      ((if ncl + 1 ≥ n then 2 else ncl + 1) ≠ scl ∧
        InRest scl (if ncl + 1 ≥ n then 2 else ncl + 1) c)) := by
  unfold InRest at *
  split_ifs at * <;> omega

/-- The rounds that are left at most. -/
def restRounds (n scl ncl : Nat) : Nat := if ncl < scl then scl - ncl else n - 1 - ncl + (scl - 1)

theorem restRounds_next {n scl ncl : Nat} (hscl : 1 ≤ scl ∧ scl < n) (hncl : ncl < n)
    (hwrap : ¬ (ncl + 1 ≥ n ∧ 2 > scl)) (hne : (if ncl + 1 ≥ n then 2 else ncl + 1) ≠ scl) :
    restRounds n scl (if ncl + 1 ≥ n then 2 else ncl + 1) < restRounds n scl ncl := by
  unfold restRounds
  split_ifs at * <;> omega

/-- What the search guarantees. -/
structure Found (g : Geometry) (v : Fatfs) (r : Except Nat Nat) (t : Fatfs) : Prop where
  win : WinOk g t
  moved : Moved g v t
  result : (∃ ncl, r = .ok ncl ∧ g.Clust ncl ∧ entry g v.view ncl = 0) ∨
    (r = .error 0 ∧ ∀ c, g.Clust c → entry g v.view c ≠ 0) ∨
    (r = .error 1 ∧ ∃ c, g.Clust c ∧ entry g v.view c = 1)

theorem findFree_spec (hg : g.Ok) {scl : Nat} (hscl : 1 ≤ scl ∧ scl < g.nFatent) {fuel ncl : Nat}
    (hv : WinOk g v) (hncl : 1 ≤ ncl ∧ ncl < g.nFatent)
    (hfuel : restRounds g.nFatent scl ncl ≤ fuel)
    (hrest : ∀ c, g.Clust c → entry g v.view c = 0 → InRest scl ncl c) :
    Post (findFree g scl fuel ncl) v (Found g v) := by
  have hents := hg.ents
  induction fuel generalizing ncl v with
  | zero =>
    refine ⟨hv, .refl g v, .inr (.inl ⟨rfl, fun c hc h0 => ?_⟩)⟩
    have := hrest c hc h0
    unfold restRounds at hfuel
    unfold InRest at this
    unfold Geometry.Clust at hc
    split_ifs at * <;> omega
  | succ fuel ih =>
    have hnext := fun c (hc : g.Clust c) h0 => (hrest c hc h0).next hscl.1 hc
    have hstep := @restRounds_next g.nFatent scl ncl hscl hncl.2
    have hnew : g.Clust (if ncl + 1 ≥ g.nFatent then 2 else ncl + 1) := by
      unfold Geometry.Clust
      split <;> omega
    unfold findFree
    dsimp only
    have htwo : ncl + 1 ≥ g.nFatent → (if ncl + 1 ≥ g.nFatent then 2 else ncl + 1) = 2 :=
      fun h => if_pos h
    generalize (if ncl + 1 ≥ g.nFatent then 2 else ncl + 1) = new at *
    rw [post_ite]
    refine ⟨fun hwrap => ?_, fun hwrap => ?_⟩
    · refine ⟨hv, .refl g v, .inr (.inl ⟨rfl, fun c hc h0 => ?_⟩)⟩
      exact (hnext c hc h0).1 (htwo hwrap.1 ▸ hwrap)
    refine (getFat_spec hg hv hnew).bind fun cs t h => ?_
    rw [h.result, post_ite]
    refine ⟨fun h0 => ⟨h.win, h.moved, .inl ⟨new, rfl, hnew, h0⟩⟩, fun h0 => ?_⟩
    rw [post_ite]
    refine ⟨fun h1 => ?_, fun h1 => ?_⟩
    · have h1 := h1.resolve_right (entry_lt_allOnes v.view new).ne
      exact ⟨h.win, h.moved, .inr (.inr ⟨congrArg Except.error h1, new, hnew, h1⟩)⟩
    have hlater : ∀ c, g.Clust c → entry g v.view c = 0 → new ≠ scl ∧ InRest scl new c := by
      intro c hc hc0
      refine (hnext c hc hc0).2.resolve_left ?_
      rintro rfl
      exact h0 hc0
    rw [post_ite]
    refine ⟨fun he => ⟨h.win, h.moved, .inr (.inl ⟨rfl, fun c hc hc0 => (hlater c hc hc0).1 he⟩)⟩,
      fun hne => ?_⟩
    have hfuel' : restRounds g.nFatent scl new ≤ fuel := by
      have := hstep (fun hw => hwrap ⟨hw.1, htwo hw.1 ▸ hw.2⟩) hne
      omega
    refine (ih h.win ⟨by unfold Geometry.Clust at hnew; omega, hnew.2⟩ hfuel' fun c hc h0 =>
      ?_).mono fun r u k => ?_
    · rw [entry_moved hg h.moved hc] at h0
      exact (hlater c hc h0).2
    · refine ⟨k.win, h.moved.trans k.moved, ?_⟩
      have hsame := @entry_moved g v t hg h.moved
      rcases k.result with ⟨n, hr, hn, h0⟩ | ⟨hr, h0⟩ | ⟨hr, c, hc, h1⟩
      · exact .inl ⟨n, hr, hn, hsame hn ▸ h0⟩
      · exact .inr (.inl ⟨hr, fun c hc => hsame hc ▸ h0 c hc⟩)
      · exact .inr (.inr ⟨hr, c, hc, hsame hc ▸ h1⟩)

/-- The value of the last entry of a chain. -/
def eoc (g : Geometry) : Nat := 2 ^ g.fsType.width - 1

theorem Geometry.Ok.le_eoc (hg : g.Ok) : g.nFatent ≤ eoc g := by
  have := hg.nFatent_lt
  unfold eoc
  omega

/-- Nothing but the FAT has changed, and copies of it that were in step stay so. -/
structure FatOnly (g : Geometry) (v t : Fatfs) : Prop where
  mirrored : v.drive.Mirrored g → t.drive.Mirrored g
  other : ∀ s, ¬ g.InFat s → ¬ g.Mirror s → t.view s = v.view s

section

variable {t u : Fatfs}

theorem FatOnly.refl (g : Geometry) (v : Fatfs) : FatOnly g v v := ⟨id, fun _ _ _ => rfl⟩

theorem FatOnly.trans (h : FatOnly g v t) (k : FatOnly g t u) : FatOnly g v u :=
  ⟨fun hm => k.mirrored (h.mirrored hm), fun s hs hs' => (k.other s hs hs').trans
    (h.other s hs hs')⟩

theorem Moved.fatOnly (h : Moved g v t) : FatOnly g v t := ⟨h.mirrored, fun s _ hs => h.view s hs⟩

theorem Put.fatOnly {c x : Nat} {r : FResult} (h : Put g c x v r t) : FatOnly g v t :=
  ⟨h.kept.mirrored, h.other⟩

end

/-- The free cluster `ncl` has been taken, and linked from `clst` unless that is 0. -/
structure Stretched (g : Geometry) (clst ncl : Nat) (v t : Fatfs) : Prop where
  clust : g.Clust ncl
  free : entry g v.view ncl = 0
  table : ∀ c, g.Clust c → entry g t.view c = if c = ncl then eoc g else if c = clst
    then ncl else entry g v.view c
  freeClst : t.freeClst = if v.freeClst < g.nFatent - 2 then sub32 v.freeClst 1 else v.freeClst

inductive CreateOutcome (g : Geometry) (clst : Nat) (v t : Fatfs) : Nat → Prop
  | followed (hne : clst ≠ 0) (hc : g.Clust (entry g v.view clst)) (hm : Moved g v t) :
      CreateOutcome g clst v t (entry g v.view clst)
  | stretched {ncl : Nat} (hlast : clst ≠ 0 → g.nFatent ≤ entry g v.view clst)
      (h : Stretched g clst ncl v t) :
      CreateOutcome g clst v t ncl
  | full (hlast : clst ≠ 0 → g.nFatent ≤ entry g v.view clst) (h : ∀ c, g.Clust c →
      entry g v.view c ≠ 0)
      (hm : Moved g v t) : CreateOutcome g clst v t 0
  | corrupt (h : clst ≠ 0 ∧ entry g v.view clst < 2 ∨ ∃ c, g.Clust c ∧ entry g v.view c = 1)
      (hm : Moved g v t) :
      CreateOutcome g clst v t 1

/-- What a call of `create_chain` guarantees. -/
structure Created (g : Geometry) (clst : Nat) (v : Fatfs) (r : Nat) (t : Fatfs) : Prop where
  win : WinOk g t
  fat : FatOnly g v t
  result : CreateOutcome g clst v t r

/-- The counters after a cluster has been taken. -/
def Fatfs.counted (g : Geometry) (ncl : Nat) (t : Fatfs) : Fatfs :=
  { t with
    lastClst := ncl
    freeClst := if t.freeClst < g.nFatent - 2 then sub32 t.freeClst 1 else t.freeClst
    fsiFlag := t.fsiFlag ||| 1 }

theorem WinOk.counted {t : Fatfs} (h : WinOk g t) (ncl : Nat) : WinOk g (t.counted g ncl) :=
  ⟨h.quiet, h.clean, h.dirty, h.small, h.primary⟩

theorem allocChain_spec (hg : g.Ok) (hv : WinOk g v) {clst scl : Nat}
    (hscl : 1 ≤ scl ∧ scl < g.nFatent)
    (hclst : clst = 0 ∨ g.Clust clst ∧ g.nFatent ≤ entry g v.view clst) :
    Post (allocChain g clst scl) v (Created g clst v) := by
  have hlast : clst ≠ 0 → g.nFatent ≤ entry g v.view clst := fun h => (hclst.resolve_left h).2
  have hlim := hg.nFatent_lt
  have hones : allOnes % 2 ^ g.fsType.width = eoc g := by
    unfold eoc allOnes
    cases g.fsType <;> rfl
  unfold allocChain
  refine (findFree_spec hg hscl hv hscl ?_ fun c _ _ => ?_).bind fun r t h => ?_
  · unfold restRounds
    split <;> omega
  · unfold InRest
    split <;> omega
  rcases h.result with ⟨ncl, rfl, hncl, h0⟩ | ⟨rfl, h0⟩ | ⟨rfl, h1⟩
  · have hne : clst ≠ ncl := by
      rintro rfl
      obtain rfl | ⟨-, hge⟩ := hclst
      · exact absurd hncl.1 (by decide)
      · omega
    refine (putFat_spec hg h.win hncl (by decide)).bind fun r t₁ k => ?_
    have hk := h.moved.toKept.trans k.kept
    have hfat := h.moved.fatOnly.trans k.fatOnly
    have hother : ∀ c, g.Clust c → c ≠ ncl → entry g t₁.view c = entry g v.view c := fun c hc hcn =>
      (k.entries c hc.2 hcn).trans (entry_moved hg h.moved hc)
    rw [k.result]
    obtain rfl | ⟨hc, hge⟩ := hclst
    · change Created g 0 v ncl (t₁.counted g ncl)
      refine ⟨k.win.counted ncl, ⟨hfat.mirrored, hfat.other⟩,
        .stretched hlast ⟨hncl, h0, fun c hc => ?_, ?_⟩⟩
      · have hc0 : c ≠ 0 := by
          rintro rfl
          exact absurd hc.1 (by decide)
        rw [if_neg hc0]
        split
        · next he => exact he ▸ k.entry_eq.trans hones
        · next he => exact hother c hc he
      · rw [← hk.freeClst]
        rfl
    · have hc0 : clst ≠ 0 := by
        rintro rfl
        exact absurd hc.1 (by decide)
      rw [if_pos ⟨rfl, hc0⟩]
      refine (putFat_spec hg k.win hc (hncl.2.trans (by unfold allOnes at hlim; omega))).bind
        fun r t₂ k₂ => ?_
      have hfat₂ := hfat.trans k₂.fatOnly
      rw [k₂.result]
      change Created g clst v ncl (t₂.counted g ncl)
      refine ⟨k₂.win.counted ncl, ⟨hfat₂.mirrored, hfat₂.other⟩,
        .stretched hlast ⟨hncl, h0, fun c hc => ?_, ?_⟩⟩
      · change entry g t₂.view c = _
        by_cases hcn : c = ncl
        · rw [if_pos hcn, hcn, k₂.entries ncl hncl.2 hne.symm, k.entry_eq, hones]
        · rw [if_neg hcn]
          split
          · next he => rw [he, k₂.entry_eq, Nat.mod_eq_of_lt
              (by unfold Geometry.Clust at hncl; omega)]
          · next he => rw [k₂.entries c hc.2 he, hother c hc hcn]
      · rw [← (hk.trans k₂.kept).freeClst]
        rfl
  · exact ⟨h.win, h.moved.fatOnly, .full hlast h0 h.moved⟩
  · exact ⟨h.win, h.moved.fatOnly, .corrupt (.inr h1) h.moved⟩

theorem Created.after {clst r : Nat} {t u : Fatfs} (hg : g.Ok) (hc : g.Clust clst)
    (hm : Moved g v t) (k : Created g clst t r u) : Created g clst v r u := by
  have hsame : ∀ {c}, g.Clust c → entry g t.view c = entry g v.view c := entry_moved hg hm
  refine ⟨k.win, hm.fatOnly.trans k.fat, ?_⟩
  cases k.result with
  | followed h0 hcl hm' =>
    rw [hsame hc] at hcl ⊢
    exact .followed h0 hcl (hm.trans hm')
  | stretched hlast h =>
    rw [hsame hc] at hlast
    refine .stretched hlast ⟨h.clust, hsame h.clust ▸ h.free, fun c hc' => ?_, ?_⟩
    · rw [h.table c hc', hsame hc']
    · rw [h.freeClst, hm.freeClst]
  | full hlast h hm' =>
    rw [hsame hc] at hlast
    exact .full hlast (fun c hc' => hsame hc' ▸ h c hc') (hm.trans hm')
  | corrupt h hm' =>
    rw [hsame hc] at h
    exact .corrupt (h.imp_right fun ⟨c, hc', h1⟩ => ⟨c, hc', hsame hc' ▸ h1⟩) (hm.trans hm')

theorem createChain_spec (hg : g.Ok) (hv : WinOk g v) {clst : Nat}
    (hclst : clst = 0 ∨ g.Clust clst) :
    Post (createChain g clst) v (Created g clst v) := by
  have hents := hg.ents
  unfold createChain
  rw [post_ite]
  refine ⟨fun h0 => ?_, fun h0 => ?_⟩
  · rw [post_bind, post_get]
    refine allocChain_spec hg hv ?_ (.inl h0)
    split <;> omega
  have hc := hclst.resolve_left h0
  refine (getFat_spec hg hv hc).bind fun cs t h => ?_
  have hsame := entry_moved hg h.moved hc
  rw [h.result, post_ite]
  refine ⟨fun hlt => ⟨h.win, h.moved.fatOnly, .corrupt (.inl ⟨h0, hlt⟩) h.moved⟩, fun hge => ?_⟩
  rw [if_neg (entry_lt_allOnes _ _).ne, post_ite]
  refine ⟨fun hlt => ⟨h.win, h.moved.fatOnly, .followed h0 ⟨by omega, hlt⟩ h.moved⟩,
    fun hlast => ?_⟩
  refine (allocChain_spec hg h.win ⟨by unfold Geometry.Clust at hc; omega, hc.2⟩
    (.inr ⟨hc, by rw [hsame]; omega⟩)).mono fun r u k => k.after hg hc h.moved

/-- The cluster that follows `c` in its chain. -/
def nextOf (g : Geometry) (d : Nat → Sector) (c : Nat) : Option Nat :=
  if entry g d c < g.nFatent then some (entry g d c) else none

/-- The number of a first cluster, or 0 for none. -/
def firstOf (sclust : Nat) : Option Nat := if sclust = 0 then none else some sclust

/-- From `sclust` on, the FAT leads through the clusters of the list, none of which is free. -/
structure IsChain (g : Geometry) (d : Nat → Sector) (sclust : Nat) (l : List Nat) : Prop where
  linked : Linked (nextOf g d) (firstOf sclust) l
  used : ∀ c ∈ l, g.Clust c ∧ 2 ≤ entry g d c

namespace IsChain

variable {d d' : Nat → Sector} {sclust : Nat} {l : List Nat}

theorem congr (h : IsChain g d sclust l) (he : ∀ c ∈ l, entry g d' c = entry g d c) :
    IsChain g d' sclust l where
  linked := h.linked.congr fun c hc => by rw [nextOf, nextOf, he c hc]
  used c hc := ⟨(h.used c hc).1, he c hc ▸ (h.used c hc).2⟩

theorem nodup (h : IsChain g d sclust l) : l.Nodup := h.linked.nodup

theorem nil_iff (h : IsChain g d sclust l) : l = [] ↔ sclust = 0 := by
  rw [← h.linked.head_eq_none_iff, firstOf]
  split <;> simp [*]

theorem not_free (h : IsChain g d sclust l) {c : Nat} (hc : c ∈ l) : entry g d c ≠ 0 := by
  have := (h.used c hc).2
  omega

theorem length_le (h : IsChain g d sclust l) : l.length + 2 ≤ g.nFatent ∨ l = [] := by
  rcases l with - | ⟨c, l⟩
  · exact .inr rfl
  · refine .inl ?_
    have hsub : (c :: l).toFinset ⊆ Finset.Ico 2 g.nFatent := fun a ha =>
      Finset.mem_Ico.mpr (h.used a (List.mem_toFinset.mp ha)).1
    have hcard := Finset.card_le_card hsub
    rw [List.toFinset_card_of_nodup h.nodup, Nat.card_Ico] at hcard
    have := (h.used c (by simp)).1
    unfold Geometry.Clust at this
    omega

theorem entry_getElem (h : IsChain g d sclust l) {i : Nat} (hi : i + 1 < l.length) :
    entry g d l[i] = l[i + 1] := by
  have hlink := h.linked
  rw [← List.take_append_drop i l, List.drop_eq_getElem_cons (by omega)] at hlink
  have htail := hlink.suffix
  rw [List.drop_eq_getElem_cons hi] at htail
  have hnext := htail.1
  unfold nextOf at hnext
  split at hnext
  · exact Option.some.inj hnext
  · cases hnext

theorem entry_getLast (h : IsChain g d sclust l) {c : Nat} (hc : l.getLast? = some c) :
    g.nFatent ≤ entry g d c := by
  have hnone := (h.linked.next_eq_none_iff (List.mem_of_getLast? hc)).mpr hc
  unfold nextOf at hnone
  split at hnone
  · cases hnone
  · omega

theorem last_or_next (h : IsChain g d sclust l) {j c : Nat} (hj : l[j]? = some c) :
    j + 1 = l.length ∧ l.getLast? = some c ∧ g.nFatent ≤ entry g d c ∨
    l[j + 1]? = some (entry g d c) := by
  obtain ⟨hjl, rfl⟩ := List.getElem?_eq_some_iff.mp hj
  obtain hlt | hge := Nat.lt_or_ge (j + 1) l.length
  · exact .inr (by rw [h.entry_getElem hlt, List.getElem?_eq_getElem hlt])
  · have he : j + 1 = l.length := by omega
    have hlast : l.getLast? = some l[j] := by
      rw [List.getLast?_eq_getElem?, ← he, Nat.add_sub_cancel, hj]
    exact .inl ⟨he, hlast, h.entry_getLast hlast⟩

end IsChain

theorem Stretched.chain {clst ncl sclust : Nat} {l : List Nat} {t : Fatfs} (hg : g.Ok)
    (h : Stretched g clst ncl v t) (hc : IsChain g v.view sclust l)
    (hlast : l.getLast?.getD 0 = clst) :
    IsChain g t.view (if sclust = 0 then ncl else sclust) (l ++ [ncl]) := by
  have hle := hg.le_eoc
  have hents := hg.ents
  have hnew : ncl ∉ l := fun hm => hc.not_free hm h.free
  have htab : ∀ c ∈ l, entry g t.view c = if c = clst then ncl else entry g v.view c :=
    fun c hm => by
    rw [h.table c (hc.used c hm).1, if_neg (by rintro rfl; exact hnew hm)]
  have hncl : entry g t.view ncl = eoc g := by rw [h.table ncl h.clust, if_pos rfl]
  refine ⟨hc.linked.snoc ?_ (fun b hb => ?_) (fun b hb hne => ?_) ?_, fun c hm => ?_⟩
  · rw [nextOf, hncl, if_neg (by omega)]
  · have he : b = clst := by simpa [hb] using hlast
    rw [nextOf, htab b (List.mem_of_getLast? hb), if_pos he, if_pos h.clust.2]
  · have he : b ≠ clst := by
      rintro rfl
      have ha := List.getLast?_eq_some_getLast (List.ne_nil_of_mem hb)
      rw [ha] at hlast hne
      exact hne (congrArg some hlast)
    rw [nextOf, nextOf, htab b hb, if_neg he]
  · have hn0 : ncl ≠ 0 := by
      rintro h0
      have := h.clust.1
      omega
    rw [firstOf, firstOf]
    by_cases hs : sclust = 0
    · simp [hs, hc.nil_iff.mpr hs, hn0]
    · simp [hs, mt hc.nil_iff.mp hs]
  · rw [List.mem_append, List.mem_singleton] at hm
    obtain hm | rfl := hm
    · refine ⟨(hc.used c hm).1, ?_⟩
      rw [htab c hm]
      split
      · exact h.clust.1
      · exact (hc.used c hm).2
    · exact ⟨h.clust, by rw [hncl]; omega⟩

/-- What `remove_chain` guarantees when it follows the clusters of the list. -/
structure Removed (g : Geometry) (l : List Nat) (v : Fatfs) (r : FResult) (t : Fatfs) : Prop where
  result : r = .ok
  win : WinOk g t
  fat : FatOnly g v t
  entries : ∀ c, g.Clust c → c ∉ l → entry g t.view c = entry g v.view c
  free : ∀ c ∈ l, entry g t.view c = 0
  freeClst : t.freeClst = min (v.freeClst + l.length) allOnes

/-- The counter after a cluster has been freed. -/
def Fatfs.released (t : Fatfs) : Fatfs :=
  if t.freeClst ≠ allOnes then { t with freeClst := succ32 t.freeClst, fsiFlag := t.fsiFlag ||| 1 }
    else t

theorem released_freeClst {t : Fatfs} (h : t.freeClst ≤ allOnes) :
    t.released.freeClst = min (t.freeClst + 1) allOnes := by
  unfold Fatfs.released succ32
  have : allOnes + 1 = 2 ^ 32 := by decide
  split
  · dsimp only
    omega
  · omega

theorem released_same (t : Fatfs) : t.released.view = t.view ∧ t.released.drive = t.drive := by
  unfold Fatfs.released
  split <;> exact ⟨rfl, rfl⟩

theorem WinOk.released {t : Fatfs} (h : WinOk g t) : WinOk g t.released := by
  unfold Fatfs.released
  split
  · exact ⟨h.quiet, h.clean, h.dirty, h.small, h.primary⟩
  · exact h

/-- One cluster has been freed. -/
structure Freed (g : Geometry) (c : Nat) (v t : Fatfs) : Prop where
  win : WinOk g t
  fat : FatOnly g v t
  entries : ∀ a, g.Clust a → a ≠ c → entry g t.view a = entry g v.view a
  free : entry g t.view c = 0
  freeClst : t.freeClst = min (v.freeClst + 1) allOnes

theorem Freed.removed {c : Nat} {l : List Nat} {r : FResult} {t u : Fatfs} (h : Freed g c v t)
    (hc : c ∉ l) (hcl : g.Clust c) (k : Removed g l t r u) : Removed g (c :: l) v r u where
  result := k.result
  win := k.win
  fat := h.fat.trans k.fat
  entries a ha hm := by
    rw [List.mem_cons, not_or] at hm
    rw [k.entries a ha hm.2, h.entries a ha hm.1]
  free a ha := by
    obtain rfl | ha := List.mem_cons.mp ha
    · rw [k.entries a hcl hc, h.free]
    · exact k.free a ha
  freeClst := by
    rw [k.freeClst, h.freeClst, List.length_cons]
    omega

theorem removeLoop_spec (hg : g.Ok) {c : Nat} {l : List Nat} {fuel : Nat} (hv : WinOk g v)
    (hfree : v.freeClst ≤ allOnes) (hl : Linked (nextOf g v.view) (some c) (c :: l))
    (hu : ∀ a ∈ c :: l, g.Clust a ∧ 2 ≤ entry g v.view a) (hfuel : l.length < fuel) :
    Post (removeLoop g fuel c) v (Removed g (c :: l) v) := by
  induction fuel generalizing c l v with
  | zero => omega
  | succ fuel ih =>
    obtain ⟨hc, hge⟩ := hu c (by simp)
    have hnd := List.nodup_cons.mp hl.nodup
    unfold removeLoop
    refine (getFat_spec hg hv hc).bind fun nxt t h => ?_
    rw [h.result, if_neg (by omega), if_neg (by omega), if_neg (entry_lt_allOnes _ _).ne]
    refine (putFat_spec hg h.win hc (by decide)).bind fun r t₁ k => ?_
    rw [k.result, if_neg (by decide), post_bind]
    change Post (if entry g v.view c < g.nFatent then removeLoop g fuel (entry g v.view c)
      else return .ok) t₁.released _
    obtain ⟨hview, hdrive⟩ := released_same t₁
    have hcount : t₁.freeClst = v.freeClst := (h.moved.toKept.trans k.kept).freeClst
    have hfreed : Freed g c v t₁.released := by
      refine ⟨k.win.released, ?_, fun a ha hne => ?_, by rw [hview, k.entry_eq, Nat.zero_mod], ?_⟩
      · have hfat := h.moved.fatOnly.trans k.fatOnly
        exact ⟨hdrive ▸ hfat.mirrored, hview ▸ hfat.other⟩
      · rw [hview, k.entries a ha.2 hne, entry_moved hg h.moved ha]
      · rw [released_freeClst (hcount ▸ hfree), hcount]
    have htail := hl.2
    cases l with
    | nil =>
      have hend : ¬ entry g v.view c < g.nFatent := by
        simpa [nextOf] using htail
      rw [if_neg hend, post_pure]
      refine hfreed.removed hnd.1 hc ⟨rfl, hfreed.win, .refl g _, fun _ _ _ => rfl, by simp, ?_⟩
      rw [List.length_nil, Nat.add_zero, hfreed.freeClst, Nat.min_assoc, Nat.min_self]
    | cons b l =>
      obtain ⟨hlt, hb⟩ : entry g v.view c < g.nFatent ∧ entry g v.view c = b := by
        simpa [nextOf] using htail.1
      have hsame : ∀ a ∈ b :: l, entry g t₁.released.view a = entry g v.view a := fun a ha =>
        hfreed.entries a (hu a (by simp [ha])).1 fun he => hnd.1 (he ▸ ha)
      rw [if_pos hlt, hb]
      refine (ih hfreed.win ?_ ⟨rfl, ?_⟩ (fun a ha => ?_) ?_).mono fun r u hr =>
        hfreed.removed hnd.1 hc hr
      · rw [hfreed.freeClst]
        exact min_le_right _ _
      · rw [nextOf, hsame b (by simp)]
        exact htail.2.congr fun a ha => by rw [nextOf, nextOf, hsame a (by simp [ha])]
      · rw [hsame a ha]
        exact hu a (List.mem_cons_of_mem c ha)
      · simpa using hfuel

theorem IsChain.eq_cons {d : Nat → Sector} {sclust : Nat} {l : List Nat} (h : IsChain g d sclust l)
    (h0 : sclust ≠ 0) :
    ∃ l', l = sclust :: l' := by
  cases l with
  | nil => exact absurd (h.nil_iff.mp rfl) h0
  | cons a l =>
    have ha := h.linked.1
    rw [firstOf, if_neg h0] at ha
    exact ⟨l, by rw [Option.some.inj ha]⟩

theorem removeChain_spec (hg : g.Ok) {clst : Nat} {l : List Nat} (hv : WinOk g v)
    (hfree : v.freeClst ≤ allOnes) (hl : IsChain g v.view clst l) (h0 : clst ≠ 0) :
    Post (removeChain g clst 0) v (Removed g l v) := by
  obtain ⟨l, rfl⟩ := hl.eq_cons h0
  have hc := (hl.used clst (by simp)).1
  have hlen := hl.length_le.resolve_right (List.cons_ne_nil _ _)
  rw [List.length_cons] at hlen
  unfold removeChain
  rw [if_neg (by unfold Geometry.Clust at hc; omega), if_neg (by decide)]
  refine removeLoop_spec hg hv hfree ?_ hl.used (by omega)
  have := hl.linked
  rwa [firstOf, if_neg h0] at this

/-- The free clusters of the volume. -/
def freeSet (g : Geometry) (d : Nat → Sector) : Finset Nat :=
  (Finset.Ico 2 g.nFatent).filter fun c => entry g d c = 0

theorem mem_freeSet {d : Nat → Sector} {c : Nat} :
    c ∈ freeSet g d ↔ g.Clust c ∧ entry g d c = 0 := by
  simp [freeSet, Geometry.Clust]

theorem Stretched.freeSet_eq {clst ncl : Nat} {t : Fatfs} (hg : g.Ok) (h : Stretched g clst ncl v t)
    (hclst : entry g v.view clst ≠ 0 ∨ clst = 0) :
    freeSet g t.view = (freeSet g v.view).erase ncl := by
  have hpos := hg.ents.trans_le hg.le_eoc
  ext c
  rw [Finset.mem_erase, mem_freeSet, mem_freeSet]
  by_cases hc : g.Clust c
  swap
  · simp [hc]
  rw [h.table c hc]
  have hc2 := hc.1
  have hn2 := h.clust.1
  split_ifs with hcn hcc
  · simp [hcn]
    omega
  · obtain hne | rfl := hclst
    · simp only [ne_eq, hcc]
      omega
    · omega
  · simp [hc, hcn]

/-- The counter of free clusters is right. -/
def Fatfs.Exact (g : Geometry) (v : Fatfs) : Prop := v.freeClst = (freeSet g v.view).card

theorem card_freeSet_le (g : Geometry) (d : Nat → Sector) : (freeSet g d).card ≤ g.nFatent - 2 :=
  (Finset.card_filter_le _ _).trans (Nat.card_Ico 2 g.nFatent).le

theorem Stretched.exact_iff {clst ncl : Nat} {t : Fatfs} (hg : g.Ok) (h : Stretched g clst ncl v t)
    (hclst : entry g v.view clst ≠ 0 ∨ clst = 0) (hv : v.Exact g) :
    t.Exact g ↔ ∃ c, g.Clust c ∧ entry g v.view c ≠ 0 := by
  have hmem : ncl ∈ freeSet g v.view := mem_freeSet.mpr ⟨h.clust, h.free⟩
  have hle := card_freeSet_le g v.view
  have hpos := Finset.card_pos.mpr ⟨ncl, hmem⟩
  have hlim := hg.nFatent_lt
  have hlt : (∃ c, g.Clust c ∧ entry g v.view c ≠ 0) ↔ (freeSet g v.view).card < g.nFatent - 2 := by
    rw [lt_iff_le_and_ne, and_iff_right hle, ← Nat.card_Ico 2 g.nFatent, freeSet,
      ne_eq, Finset.card_filter_eq_iff]
    simp [Geometry.Clust, and_assoc]
  unfold Fatfs.Exact at *
  rw [hlt, h.freeClst, h.freeSet_eq hg hclst, Finset.card_erase_of_mem hmem, hv]
  unfold allOnes at hlim
  split
  · rw [sub32_of_le (by omega) (by omega)]
    simpa
  · omega

/-- The counter goes wrong with the first cluster of an empty volume, which `create_chain` does not
count, and only there. -/
theorem createChain_exact_iff (hg : g.Ok) (hv : WinOk g v) {clst : Nat}
    (hclst : clst = 0 ∨ g.Clust clst ∧ g.nFatent ≤ entry g v.view clst) (hexact : v.Exact g) :
    Post (createChain g clst) v fun r t => g.Clust r →
      (t.Exact g ↔ ∃ c, g.Clust c ∧ entry g v.view c ≠ 0) := by
  have hents := hg.ents
  have hlim := hg.nFatent_lt.2
  refine (createChain_spec hg hv (hclst.imp_right And.left)).mono fun r t h hr => ?_
  obtain ⟨hr2, hrn⟩ := hr
  cases h.result with
  | followed h0 hc _ =>
    have := (hclst.resolve_left h0).2
    omega
  | stretched _ hst => exact hst.exact_iff hg (hclst.symm.imp_left fun h => by omega) hexact
  | full => omega
  | corrupt => omega

end

def small : Geometry where
  id := 1
  fsType := .fat16
  nFats := 2
  csize := 1
  nFatent := 10
  fsize := 1
  volbase := 0
  fatbase := 1
  database := 4

/-- A drive on which all transfers are carried out. -/
def quietDrive (sect : Nat → Sector) : Drive :=
  ⟨sect, 0, fun _ => false, fun _ _ _ => 0, fun _ => 0#8⟩

/-- One file of one cluster on `small`. -/
def smallDisk (s : Nat) : Sector := fun i =>
  if (s = 1 ∨ s = 2) ∧ (i.val = 4 ∨ i.val = 5) then 0xFF#8 else if s = 4
    then BitVec.ofNat 8 i.val else 0#8

def mounted : Fatfs where
  wflag := false
  winsect := allOnes
  win := fun _ => 0
  lastClst := 2
  freeClst := 7
  fsiFlag := 0
  drive := quietDrive smallDisk

/-- No file on `small`. -/
def blank : Fatfs := { mounted with freeClst := 8, drive := quietDrive fun _ _ => 0 }

theorem small_ok : small.Ok :=
  ⟨.inr rfl, ⟨0, by decide, rfl⟩, by decide, by decide, by decide, by decide, by decide, by decide⟩

theorem quietDrive_quiet (sect : Nat → Sector) : (quietDrive sect).Quiet :=
  fun _ => ⟨rfl, show 0#8 &&& 1#8 = 0#8 by decide⟩

theorem mounted_ok : WinOk small mounted :=
  ⟨quietDrive_quiet _, fun _ h => absurd rfl h,
    by simp [mounted], by decide, small_ok.not_mirror_allOnes⟩

theorem blank_ok : WinOk small blank :=
  ⟨quietDrive_quiet _, fun _ h => absurd rfl h,
    by simp [blank, mounted], by decide, small_ok.not_mirror_allOnes⟩

theorem entry_mounted :
    ∀ c < 10, 2 ≤ c → entry small mounted.view c = if c = 2 then 65535 else 0 := by decide +kernel

theorem entry_blank : ∀ c < 10, 2 ≤ c → entry small blank.view c = 0 := by decide +kernel

theorem mounted_chain : IsChain small mounted.view 2 [2] := by
  have h := entry_mounted 2 (by decide) (by decide)
  refine ⟨⟨rfl, ?_⟩, fun c hc => ?_⟩
  · rw [Linked, nextOf, h]
    rfl
  · obtain rfl := List.mem_singleton.mp hc
    exact ⟨by decide, by rw [h]; decide⟩

theorem mounted_exact : mounted.Exact small := by
  unfold Fatfs.Exact
  decide +kernel

theorem blank_exact : blank.Exact small := by
  unfold Fatfs.Exact
  decide +kernel

/-- The second cluster of the volume is counted, the first one is not. -/
theorem createChain_exact_iff_mounted :
    (Post (createChain small 2) mounted fun r t => small.Clust r ∧ t.Exact small) ∧
      Post (createChain small 0) blank fun r t => small.Clust r ∧ ¬ t.Exact small := by
  have hr : small.Clust ((createChain small 2).run mounted).run.1 := by decide +kernel
  have hr' : small.Clust ((createChain small 0).run blank).run.1 := by decide +kernel
  have h := createChain_exact_iff small_ok mounted_ok
    (.inr ⟨by decide, mounted_chain.entry_getLast rfl⟩) mounted_exact
  have h' := createChain_exact_iff small_ok blank_ok (.inl rfl) blank_exact
  refine ⟨⟨hr, (h hr).mpr ⟨2, by decide, mounted_chain.not_free (by simp)⟩⟩, hr', fun ht => ?_⟩
  obtain ⟨c, hc, hne⟩ := (h' hr').mp ht
  exact hne (entry_blank c hc.2 hc.1)

end NctuCourses.Osdi.Fat
