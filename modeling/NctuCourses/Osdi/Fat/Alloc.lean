import NctuCourses.Lib.Simulation
import NctuCourses.Osdi.Fat.Chain

namespace NctuCourses.Osdi.Fat

open NctuCourses.Lib
open NctuCourses.Osdi.Fs (FResult)

/-- What a file object keeps of its clusters: `obj.sclust` and `clust`. -/
structure Holder where
  sclust : Nat
  clust : Nat

variable {ι : Type}

/-- The uses that several open files make of the clusters: to go on to the next one as `f_write`
does, to start again at the first one, and to give all of them back. -/
inductive AllocOp (ι : Type)
  | next (i : ι)
  | rewind (i : ι)
  | remove (i : ι)

def AllocOp.run [DecidableEq ι] (g : Geometry) :
    AllocOp ι → StateM ((ι → Holder) × Fatfs) (Nat ⊕ FResult)
  | next i => do
    let (hs, fs) ← get
    let (clst, fs) := ((createChain g (if (hs i).sclust = 0 then 0 else (hs i).clust)).run fs).run
    -- 0, 1 and the error value leave the file object as it is
    let h := if clst < 2 ∨ clst = allOnes then hs i else
      ⟨if (hs i).sclust = 0 then clst else (hs i).sclust, clst⟩
    set (Function.update hs i h, fs)
    return .inl clst
  | rewind i => do
    let (hs, fs) ← get
    set (Function.update hs i ⟨(hs i).sclust, (hs i).sclust⟩, fs)
    return .inr .ok
  | remove i => do
    let (hs, fs) ← get
    if (hs i).sclust = 0 then return .inr .ok
    let (res, fs) := ((removeChain g (hs i).sclust 0).run fs).run
    set (Function.update hs i ⟨0, 0⟩, fs)
    return .inr res

/-- A file as its user sees it: its clusters in their order, and which
of them is the current one. -/
structure Held where
  clusts : List Nat
  pos : Nat

/-- The purpose of it: the cluster behind the current one, if there is one; else one that belongs to
no file, and 0 if there is no such cluster. -/
inductive AllocOp.Effect [DecidableEq ι] (g : Geometry) :
    AllocOp ι → (ι → Held) → Nat ⊕ FResult → (ι → Held) → Prop
  | followed {i : ι} {a : ι → Held} {c : Nat} (h : (a i).clusts[(a i).pos + 1]? = some c) :
      Effect g (next i) a (.inl c) (Function.update a i ⟨(a i).clusts, (a i).pos + 1⟩)
  | added {i : ι} {a : ι → Held} {c : Nat} (hend : (a i).clusts.length ≤ (a i).pos + 1)
      (hc : g.Clust c)
      (h : ∀ j, c ∉ (a j).clusts) :
      Effect g (next i) a (.inl c) (Function.update a i ⟨(a i).clusts ++ [c], (a i).clusts.length⟩)
  | full {i : ι} {a : ι → Held} (hend : (a i).clusts.length ≤ (a i).pos + 1)
      (h : ∀ c, g.Clust c → ∃ j, c ∈ (a j).clusts) : Effect g (next i) a (.inl 0) a
  | rewind (i : ι) (a : ι → Held) : Effect g (rewind i) a (.inr .ok)
      (Function.update a i ⟨(a i).clusts, 0⟩)
  | remove (i : ι) (a : ι → Held) : Effect g (remove i) a (.inr .ok) (Function.update a i ⟨[], 0⟩)

/-- The file object of a file: the first of its clusters and the current one. -/
structure Holder.Holds (g : Geometry) (d : Nat → Sector) (x : Holder) (y : Held) : Prop where
  chain : IsChain g d x.sclust y.clusts
  cur : x.sclust ≠ 0 → y.clusts[y.pos]? = some x.clust

/-- The FAT holds the files: a chain for each, no cluster in two of them,
and none in use outside them. -/
structure Ledger (g : Geometry) (hs : ι → Holder) (v : Fatfs) (a : ι → Held) : Prop where
  win : WinOk g v
  count : v.freeClst ≤ allOnes
  holds : ∀ i, (hs i).Holds g v.view (a i)
  apart : ∀ i j, i ≠ j → ∀ c ∈ (a i).clusts, c ∉ (a j).clusts
  used : ∀ c, g.Clust c → entry g v.view c ≠ 0 → ∃ i, c ∈ (a i).clusts

section

variable {g : Geometry} {hs : ι → Holder} {v t : Fatfs} {a : ι → Held} {i : ι}

theorem Ledger.clust (h : Ledger g hs v a) (j : ι) {c : Nat} (hc : c ∈ (a j).clusts) : g.Clust c :=
  ((h.holds j).chain.used c hc).1

theorem Ledger.two_le (h : Ledger g hs v a) {c : Nat} (hc : g.Clust c) (h0 : entry g v.view c ≠ 0) :
    2 ≤ entry g v.view c := by
  obtain ⟨j, hj⟩ := h.used c hc h0
  exact ((h.holds j).chain.used c hj).2

variable [DecidableEq ι]

/-- One file gets other clusters. Those of the others stay theirs, and none that is in
use is left without a file. -/
theorem Ledger.replace (h : Ledger g hs v a) (hw : WinOk g t) (hcount : t.freeClst ≤ allOnes)
    {x : Holder} {y : Held} (hxy : x.Holds g t.view y)
    (hsame : ∀ j ≠ i, ∀ c ∈ (a j).clusts, entry g t.view c = entry g v.view c ∧ c ∉ y.clusts)
    (hused : ∀ c, g.Clust c → entry g t.view c ≠ 0 → c ∈ y.clusts ∨ entry g v.view c ≠ 0 ∧
      c ∉ (a i).clusts) :
    Ledger g (Function.update hs i x) t (Function.update a i y) := by
  refine ⟨hw, hcount, forall_update_both (p := fun _ (x : Holder) y => x.Holds g t.view y)
    hxy fun j hj => ?_,
    fun j k hjk c hc hk => ?_, fun c hc h0 => ?_⟩
  · exact ⟨(h.holds j).chain.congr fun c hc => (hsame j hj c hc).1, (h.holds j).cur⟩
  · obtain rfl | hj := eq_or_ne j i
    · rw [Function.update_self] at hc
      rw [Function.update_of_ne hjk.symm] at hk
      exact (hsame k hjk.symm c hk).2 hc
    · rw [Function.update_of_ne hj] at hc
      obtain rfl | hki := eq_or_ne k i
      · rw [Function.update_self] at hk
        exact (hsame j hj c hc).2 hk
      · rw [Function.update_of_ne hki] at hk
        exact h.apart j k hjk c hc hk
  · obtain hm | ⟨hv, hn⟩ := hused c hc h0
    · exact ⟨i, by rwa [Function.update_self]⟩
    · obtain ⟨j, hj⟩ := h.used c hc hv
      have hji : j ≠ i := fun he => hn (he ▸ hj)
      exact ⟨j, by rwa [Function.update_of_ne hji]⟩

theorem Ledger.moved (hg : g.Ok) (h : Ledger g hs v a) (hw : WinOk g t) (hm : Moved g v t)
    {c n : Nat} (hc : (hs i).sclust ≠ 0 → (a i).clusts[n]? = some c) :
    Ledger g (Function.update hs i ⟨(hs i).sclust, c⟩) t
      (Function.update a i ⟨(a i).clusts, n⟩) := by
  have hsame : ∀ j, ∀ b ∈ (a j).clusts, entry g t.view b = entry g v.view b := fun j b hb =>
    entry_moved hg hm (h.clust j hb)
  refine h.replace hw (hm.freeClst.trans_le h.count) ⟨(h.holds i).chain.congr (hsame i), hc⟩
    (fun j hj b hb => ⟨hsame j b hb, h.apart j i hj b hb⟩) fun b hb h0 => ?_
  rw [entry_moved hg hm hb] at h0
  exact (em (b ∈ (a i).clusts)).imp_right fun hn => ⟨h0, hn⟩

theorem Ledger.stretched (hg : g.Ok) (h : Ledger g hs v a) {ncl : Nat} (hw : WinOk g t)
    (hst : Stretched g ((a i).clusts.getLast?.getD 0) ncl v t) :
    Ledger g (Function.update hs i ⟨if (hs i).sclust = 0 then ncl else (hs i).sclust, ncl⟩) t
      (Function.update a i ⟨(a i).clusts ++ [ncl], (a i).clusts.length⟩) := by
  have hlast : ∀ c, g.Clust c → c = (a i).clusts.getLast?.getD 0 → c ∈ (a i).clusts := by
    intro c hc he
    cases hl : (a i).clusts.getLast? with
    | none =>
      rw [hl] at he
      exact absurd hc.1 (by rw [he]; decide)
    | some b =>
      rw [hl] at he
      exact he ▸ List.mem_of_getLast? hl
  have hcount : t.freeClst ≤ allOnes := by
    have := h.count
    have : sub32 v.freeClst 1 < 2 ^ 32 := Nat.mod_lt _ (by decide)
    have : allOnes + 1 = 2 ^ 32 := by decide
    rw [hst.freeClst]
    split <;> omega
  refine h.replace hw hcount ⟨hst.chain hg (h.holds i).chain rfl, fun _ => by simp⟩
    (fun j hj c hc => ?_)
    fun c hc h0 => ?_
  · have hne : c ≠ ncl := ne_of_mem_of_not_mem hc fun hm => (h.holds j).chain.not_free hm hst.free
    have hni := h.apart j i hj c hc
    rw [hst.table c (h.clust j hc), if_neg hne, if_neg fun he => hni (hlast c (h.clust j hc) he)]
    exact ⟨rfl, by simp [hni, hne]⟩
  · by_cases hm : c ∈ (a i).clusts ++ [ncl]
    · exact .inl hm
    · have hm' : c ∉ (a i).clusts ∧ c ≠ ncl := by simpa using hm
      rw [hst.table c hc, if_neg hm'.2, if_neg fun he => hm'.1 (hlast c hc he)] at h0
      exact .inr ⟨h0, hm'.1⟩

theorem Ledger.removed (h : Ledger g hs v a) {r : FResult} (hr : Removed g (a i).clusts v r t) :
    Ledger g (Function.update hs i ⟨0, 0⟩) t (Function.update a i ⟨[], 0⟩) := by
  refine h.replace hr.win (hr.freeClst.trans_le (Nat.min_le_right _ _))
    ⟨⟨rfl, by simp⟩, fun h0 => absurd rfl h0⟩ (fun j hj c hc =>
      ⟨hr.entries c (h.clust j hc) (h.apart j i hj c hc), by simp⟩) fun c hc h0 => .inr ?_
  have hni : c ∉ (a i).clusts := fun hm => h0 (hr.free c hm)
  exact ⟨hr.entries c hc hni ▸ h0, hni⟩

/-- What an operation guarantees: an effect that it should have, and
nothing but the FAT has changed. -/
def Allocates (g : Geometry) (op : AllocOp ι) (v : Fatfs) (a : ι → Held) (r : Nat ⊕ FResult)
    (s : (ι → Holder) × Fatfs) : Prop :=
  ∃ a', op.Effect g a r a' ∧ Ledger g s.1 s.2 a' ∧ FatOnly g v s.2

theorem Ledger.next (hg : g.Ok) (h : Ledger g hs v a) (i : ι) :
    Post ((AllocOp.next i).run g) (hs, v) (Allocates g (.next i) v a) := by
  have hchain := (h.holds i).chain
  generalize hclst : (if (hs i).sclust = 0 then 0 else (hs i).clust) = clst
  have hcur : clst ≠ 0 → (hs i).sclust ≠ 0 ∧ (a i).clusts[(a i).pos]? = some clst := by
    intro h0
    rw [← hclst] at h0 ⊢
    split at h0
    · exact absurd rfl h0
    · next hs0 =>
      rw [if_neg hs0]
      exact ⟨hs0, (h.holds i).cur hs0⟩
  have hcl : clst = 0 ∨ g.Clust clst :=
    (eq_or_ne clst 0).imp_right fun h0 => h.clust i (List.mem_of_getElem? (hcur h0).2)
  -- `clst` is the last cluster of the file, or 0 for a file without clusters
  have hlast : (clst ≠ 0 → g.nFatent ≤ entry g v.view clst) →
      (a i).clusts.getLast?.getD 0 = clst ∧ (a i).clusts.length ≤ (a i).pos + 1 := by
    intro hend
    obtain h0 | h0 := eq_or_ne clst 0
    · have hs0 : (hs i).sclust = 0 := by
        by_contra hne
        rw [if_neg hne] at hclst
        have := (h.clust i (List.mem_of_getElem? ((h.holds i).cur hne))).1
        omega
      rw [hchain.nil_iff.mpr hs0, h0]
      exact ⟨rfl, Nat.zero_le _⟩
    · obtain ⟨hlen, he, -⟩ | he := hchain.last_or_next (hcur h0).2
      · rw [he, Option.getD_some]
        exact ⟨rfl, hlen.ge⟩
      · have := (h.clust i (List.mem_of_getElem? he)).2
        exact absurd (hend h0) (by omega)
  have hlim := hg.nFatent_lt.2
  have hspec := createChain_spec hg h.win hcl
  unfold AllocOp.run
  rw [post_bind, post_get]
  dsimp only
  rw [hclst]
  unfold Post at hspec
  generalize ((createChain g clst).run v).run = out at hspec ⊢
  obtain ⟨r, t⟩ := out
  dsimp only at hspec ⊢
  rw [post_bind, post_set, post_pure]
  cases hspec.result with
  | followed h0 hc hm =>
    obtain ⟨hs0, hpos⟩ := hcur h0
    have hnext : (a i).clusts[(a i).pos + 1]? = some (entry g v.view clst) := by
      obtain ⟨-, -, hge⟩ | he := hchain.last_or_next hpos
      · exact absurd hc.2 (by omega)
      · exact he
    rw [if_neg (by unfold Geometry.Clust at hc; omega), if_neg hs0]
    exact ⟨_, .followed hnext, h.moved hg hspec.win hm fun _ => hnext, hspec.fat⟩
  | stretched hend hst =>
    obtain ⟨he, hlen⟩ := hlast hend
    rw [← he] at hst
    have hc := hst.clust
    rw [if_neg (by unfold Geometry.Clust at hc; omega)]
    refine ⟨_, .added hlen hc fun j hm => (h.holds j).chain.not_free hm hst.free, ?_, hspec.fat⟩
    exact h.stretched hg hspec.win hst
  | full hend hall hm =>
    rw [if_pos (.inl (by decide))]
    have hstay := h.moved (i := i) hg hspec.win hm (h.holds i).cur
    rw [show (⟨(a i).clusts, (a i).pos⟩ : Held) = a i from rfl, Function.update_eq_self i a]
      at hstay
    exact ⟨a, .full (hlast hend).2 fun c hc => h.used c hc (hall c hc), hstay, hspec.fat⟩
  | corrupt hbad hm =>
    exfalso
    obtain ⟨h0, hlt⟩ | ⟨c, hc, h1⟩ := hbad
    · have := (hchain.used clst (List.mem_of_getElem? (hcur h0).2)).2
      omega
    · have := h.two_le hc (by omega)
      omega

theorem Ledger.remove (hg : g.Ok) (h : Ledger g hs v a) (i : ι) :
    Post ((AllocOp.remove i).run g) (hs, v) (Allocates g (.remove i) v a) := by
  unfold AllocOp.run
  rw [post_bind, post_get]
  dsimp only
  rw [post_ite]
  refine ⟨fun h0 => ?_, fun h0 => ?_⟩
  · have hnil := (h.holds i).chain.nil_iff.mpr h0
    have hstay := h.moved (i := i) (n := 0) (c := (hs i).clust) hg h.win (.refl g v) fun hne =>
      absurd h0 hne
    rw [hnil, show (⟨(hs i).sclust, (hs i).clust⟩ : Holder) = hs i from rfl,
      Function.update_eq_self] at hstay
    exact ⟨_, .remove i a, hstay, .refl g v⟩
  · have hrem := removeChain_spec hg h.win h.count (h.holds i).chain h0
    unfold Post at hrem
    rw [post_bind, post_set, post_pure, hrem.result]
    exact ⟨_, .remove i a, h.removed hrem, hrem.fat⟩

/-- Files that take, follow and give back clusters in any order never share one, lose
none, and are refused only when all clusters of the volume are theirs; the data and the
copies of the FAT are kept. -/
theorem alloc_runs (hg : g.Ok) (h : Ledger g hs v a) (ops : List (AllocOp ι)) :
    Post (ops.mapM (AllocOp.run g)) (hs, v) fun rs s =>
      ∃ a', Runs (AllocOp.Effect g) a ops rs a' ∧ Ledger g s.1 s.2 a' ∧ FatOnly g v s.2 := by
  refine Post.runs (I := fun (s : (ι → Holder) × Fatfs) a => Ledger g s.1 s.2 a ∧ FatOnly g v s.2)
    (fun op _ s a h => ?_) ⟨h, .refl g v⟩
  obtain ⟨hs, u⟩ := s
  obtain ⟨h, hfat⟩ := h
  have hop : Post (op.run g) (hs, u) (Allocates g op u a) := by
    cases op with
    | next i => exact h.next hg i
    | rewind i =>
      refine ⟨_, .rewind i a, h.moved hg h.win (.refl g u) fun h0 => ?_, .refl g u⟩
      obtain ⟨l, hl⟩ := (h.holds i).chain.eq_cons h0
      rw [hl]
      rfl
    | remove i => exact h.remove hg i
  obtain ⟨a', heff, hled, hfat'⟩ := hop
  exact ⟨a', heff, hled, hfat.trans hfat'⟩

end

/-- The file of the small volume, and a new one. -/
def smallHolders (i : Bool) : Holder := if i then ⟨2, 2⟩ else ⟨0, 0⟩
def smallHeld (i : Bool) : Held := if i then ⟨[2], 0⟩ else ⟨[], 0⟩

theorem mounted_ledger : Ledger small smallHolders mounted smallHeld := by
  refine ⟨mounted_ok, by decide, fun i => ?_, fun i j hij => ?_, fun c hc h0 => ⟨true, ?_⟩⟩
  · cases i with
    | false => exact ⟨⟨rfl, by simp [smallHeld]⟩, fun h => absurd rfl h⟩
    | true => exact ⟨mounted_chain, fun _ => rfl⟩
  · cases i <;> cases j <;> simp [smallHeld] at hij ⊢
  · rw [entry_mounted c hc.2 hc.1] at h0
    simpa [smallHeld] using h0

theorem alloc_runs_mounted :
    Post ([AllocOp.next false, .next true, .rewind true, .next true, .remove false].mapM
      (AllocOp.run small))
      (smallHolders, mounted) fun rs s => ∃ a', Runs (AllocOp.Effect small) smallHeld
        [.next false, .next true, .rewind true, .next true, .remove false] rs a' ∧
          Ledger small s.1 s.2 a' ∧ FatOnly small mounted s.2 :=
  alloc_runs small_ok mounted_ledger _

end NctuCourses.Osdi.Fat
