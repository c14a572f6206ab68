import NctuCourses.Osdi.Mem.VmRun

namespace NctuCourses.Osdi

open Lib

/-- The finite map that page directories implement: for each directory and page number the page
and the permissions of the mapping, if there is one. -/
abbrev Translation := Nat → Nat → Option (Nat × Word)

namespace Translation

/-- What a call means for the map. A failed insertion means nothing. -/
def apply (M : Translation) : VmOp × Int → Translation
  | (.insert d pp va perm, r), d', v =>
      if r = 0 ∧ d' = d ∧ v = pgnum va then some (pp, perm) else M d' v
  | (.remove d va, _), d', v => if d' = d ∧ v = pgnum va then none else M d' v
  | _, d', v => M d' v

/-- The map after a sequence of calls: at each page, the last successful insertion
that no removal has followed. -/
def ofHistory (es : List (VmOp × Int)) : Translation := es.foldl apply fun _ _ => none

theorem ofHistory_snoc (es : List (VmOp × Int)) (e : VmOp × Int) :
    ofHistory (es ++ [e]) = (ofHistory es).apply e := by
  simp [ofHistory]

end Translation

/-- A page table entry stands for a mapping. -/
def Stands (w : Word) : Option (Nat × Word) → Prop
  | none => present w = false
  | some (pp, perm) => w = page2pa pp ||| pteP ||| perm ∧ perm.toNat < 4096

/-- The directories in memory implement the map, and the map is empty elsewhere. -/
structure Implements (S : Vm) (M : Translation) : Prop where
  entry : ∀ d ∈ S.dirs, ∀ v < 2 ^ 20, Stands (S.mem.pteAt d v) (M d v)
  empty : ∀ d, d ∉ S.dirs → ∀ v, M d v = none
  lt : ∀ d v pp perm, M d v = some (pp, perm) → pp < S.mem.npages

theorem Implements.step {b : Boot} {S T : Vm} {I I' : Set Nat} {fl fl' : List Nat}
    {e : VmOp × Int} {M : Translation} (hM : Implements S M) (h : VmOk b S I fl)
    (he : VmEffect b S I fl e T I' fl') : Implements T (M.apply e) := by
  cases he with
  | allocNone _ => exact hM
  | newdirNone _ => exact hM
  | @insertNone d pp va perm _ =>
    have hid : M.apply (.insert d pp va perm, -eNoMem) = M := by
      funext d' v
      simp [Translation.apply, eNoMem]
    rw [hid]
    exact hM
  | @alloc f p _ hfl =>
    subst hfl
    refine ⟨fun d hd v hv => ?_, hM.empty, hM.lt⟩
    have hpte := (h.inv.take f).2.2.2 d hd v hv
    rw [hpte]
    exact hM.entry d hd v hv
  | @newdir p _ hfl =>
    subst hfl
    refine ⟨fun d hd v hv => ?_, fun d hd => hM.empty d fun e => hd (by simp [e]), hM.lt⟩
    by_cases hdp : d ∈ S.dirs
    · have hpte := (h.inv.take allocZero).2.2.2 d hdp v hv
      rw [hpte]
      exact hM.entry d hdp v hv
    · -- the new directory is zeroed
      obtain rfl : d = p := by simpa [hdp] using hd
      have hp : d < 2 ^ 20 := (h.inv.free.lt d (by simp)).trans_le h.inv.np
      have h0 : (S.mem.take allocZero d).ram d (v / 1024) = 0#32 := take_ram_self hp _
      have hM0 : M.apply (VmOp.newdir, 0) d v = none := hM.empty d hdp v
      rw [hM0]
      simp [Stands, Mem.pteAt, h0]
  | @insert d pp va perm t _ hd hdat hperm hmap =>
    refine ⟨fun d' hd' v hv => ?_, fun d' hd' v => ?_, fun d' v pp' perm' => ?_⟩
    · rw [hmap.pte d' hd' v hv]
      simp only [Translation.apply, true_and]
      split_ifs
      · exact ⟨rfl, hperm⟩
      · exact hM.entry d' hd' v hv
    · have hne : d' ≠ d := fun e => hd' (e ▸ hd)
      simp [Translation.apply, hne, hM.empty d' hd' v]
    · simp only [Translation.apply, true_and, hmap.npages]
      split_ifs
      · rintro heq
        obtain ⟨rfl, _⟩ := Prod.mk.inj (Option.some.inj heq)
        exact hdat.lt
      · exact hM.lt d' v pp' perm'
  | @removeNone d va hd hp =>
    refine ⟨fun d' hd' v hv => ?_, fun d' hd' v => ?_, fun d' v pp' perm' => ?_⟩
    · simp only [Translation.apply]
      split_ifs with hs
      · rw [hs.1, hs.2]
        exact hp
      · exact hM.entry d' hd' v hv
    · simp [Translation.apply, hM.empty d' hd' v]
    · simp only [Translation.apply]
      split_ifs
      · simp
      · exact hM.lt d' v pp' perm'
  | @remove d va t _ hd hmap =>
    refine ⟨fun d' hd' v hv => ?_, fun d' hd' v => ?_, fun d' v pp' perm' => ?_⟩
    · rw [hmap.pte d' hd' v hv]
      simp only [Translation.apply]
      split_ifs
      · exact present_zero
      · exact hM.entry d' hd' v hv
    · simp [Translation.apply, hM.empty d' hd' v]
    · simp only [Translation.apply, hmap.npages]
      split_ifs
      · simp
      · exact hM.lt d' v pp' perm'

theorem implements_reach {b : Boot} {s₀ : Mem} {I₀ : Set Nat} {fl₀ : List Nat} {S : Vm}
    {es : List (VmOp × Int)} (h0 : VmOk b ⟨s₀, ∅, ∅⟩ I₀ fl₀) (hb0 : Vm.Bounded b ⟨s₀, ∅, ∅⟩)
    (h : Reach (BoundedStep b) ⟨s₀, ∅, ∅⟩ es S) :
    S.Bounded b ∧ (∃ I fl, VmOk b S I fl) ∧ Implements S (Translation.ofHistory es) := by
  refine h.historyInvariant
    (I := fun es S => S.Bounded b ∧ (∃ I fl, VmOk b S I fl) ∧
      Implements S (Translation.ofHistory es)) ⟨hb0, ⟨I₀, fl₀, h0⟩, ?_⟩ ?_
  · exact ⟨by simp, fun _ _ _ => rfl, fun _ _ _ _ he => by simp [Translation.ofHistory] at he⟩
  · rintro es S e T ⟨hb, ⟨I, fl, hok⟩, hM⟩ ⟨hs, hbT⟩
    obtain ⟨I', fl', heff, hok'⟩ := hok.step hb hs
    rw [Translation.ofHistory_snoc]
    exact ⟨hbT, ⟨I', fl', hok'⟩, hM.step hok heff⟩

/-- What `page_lookup` and `check_va2pa` make of a mapping. -/
theorem Implements.lookup {b : Boot} {S : Vm} {I : Set Nat} {fl : List Nat} {M : Translation}
    (hM : Implements S M) (h : VmOk b S I fl) {d : Nat} (hd : d ∈ S.dirs) (va : Word) :
    (∃ r, pageLookup (kva d) va S.mem = some r ∧
      r.map Prod.fst = (M d (pgnum va)).map Prod.fst ∧
      ∀ pp pte perm, r = some (pp, pte) → M d (pgnum va) = some (pp, perm) →
        load S.mem pte &&& 0xFFF#32 = perm ||| pteP) ∧
    checkVa2pa (kva d) va S.mem =
      some ((M d (pgnum va)).elim (~~~0#32) fun m => page2pa m.1) := by
  have hlt := h.inv.dir_lt hd
  have ht : present (S.mem.ram d (pdx va)) = true → pgnum (S.mem.ram d (pdx va)) < S.mem.npages :=
    h.inv.tbl_lt hd (pdx_lt va)
  have hs := hM.entry d hd _ (pgnum_lt va)
  rw [checkVa2pa_eq hlt ht]
  cases hm : M d (pgnum va) with
  | none =>
    rw [hm] at hs
    have hp : present (S.mem.pteAt d (pgnum va)) = false := hs
    exact ⟨⟨none, pageLookup_none hlt hp ht, rfl, by simp⟩, by simp [hp]⟩
  | some m =>
    obtain ⟨pp, perm⟩ := m
    rw [hm] at hs
    obtain ⟨he, hperm⟩ : S.mem.pteAt d (pgnum va) = page2pa pp ||| pteP ||| perm ∧
      perm.toNat < 4096 := hs
    have hpp := hM.lt d _ pp perm hm
    have hp : present (S.mem.pteAt d (pgnum va)) = true := by
      rw [he]
      exact present_or_left (present_or_right present_pteP)
    have hpg : pgnum (S.mem.pteAt d (pgnum va)) = pp := by
      rw [he, VmInv.entry_assoc]
      exact pgnum_entry pp _ (hpp.trans_le h.inv.np) (VmInv.pteP_or_lt hperm)
    have hpde := VmInv.pde_present hp
    refine ⟨⟨_, pageLookup_some hlt hp (ht hpde) (hpg ▸ hpp), by simp [hpg], ?_⟩, by simp [hp, hpg]⟩
    intro pp' pte perm' hr hm'
    obtain ⟨_, rfl⟩ := Prod.mk.inj (Option.some.inj hr)
    obtain ⟨_, rfl⟩ := Prod.mk.inj (Option.some.inj hm')
    rw [load_pte hpde, he]
    exact entry_low pp perm hperm

private theorem lookup_congr {b : Boot} {S T : Vm} {I I' : Set Nat} {fl fl' : List Nat}
    (h : VmOk b S I fl) (h' : VmOk b T I' fl') (hf : Frame (S.space b) S.mem T.mem) {d : Nat}
    (hd : d ∈ S.dirs) (hd' : d ∈ T.dirs) {va : Word}
    (hpte : T.mem.pteAt d (pgnum va) = S.mem.pteAt d (pgnum va)) :
    pageLookup (kva d) va T.mem = pageLookup (kva d) va S.mem ∧
      checkVa2pa (kva d) va T.mem = checkVa2pa (kva d) va S.mem ∧
      ∀ pp pte, pageLookup (kva d) va S.mem = some (some (pp, pte)) →
        load T.mem pte = load S.mem pte := by
  have hlt := h.inv.dir_lt hd
  have ht : present (S.mem.ram d (pdx va)) = true → pgnum (S.mem.ram d (pdx va)) < S.mem.npages :=
    h.inv.tbl_lt hd (pdx_lt va)
  have ht' : present (T.mem.ram d (pdx va)) = true →
      pgnum (T.mem.ram d (pdx va)) < T.mem.npages := h'.inv.tbl_lt hd' (pdx_lt va)
  rw [checkVa2pa_eq hlt ht, checkVa2pa_eq hlt ht', hpte]
  cases hp : present (S.mem.pteAt d (pgnum va)) with
  | false =>
    rw [pageLookup_none hlt hp ht, pageLookup_none hlt (by rw [hpte, hp]) ht']
    simp
  | true =>
    have hpde := VmInv.pde_present hp
    have hrow := hf.row d hd _ (pdx_lt va) hpde
    have hdat := h.inv.mapped d hd _ (pgnum_lt va) rfl hp
    have hpde' : present (T.mem.ram d (pdx va)) = true := by rw [hrow, hpde]
    rw [pageLookup_some hlt hp (ht hpde) hdat.lt, pageLookup_some hlt (by rw [hpte, hp])
      (ht' hpde') (by rw [hpte, hf.npages]; exact hdat.lt), hpte, hrow]
    refine ⟨rfl, rfl, fun pp pte he => ?_⟩
    obtain ⟨_, rfl⟩ := Prod.mk.inj (Option.some.inj (Option.some.inj he))
    have hl := load_pte (s := T.mem) hpde'
    rw [hrow] at hl
    rw [load_pte hpde, hl, hpte]

/-- The page that a call is about. -/
def VmOp.site : VmOp → Option (Nat × Nat)
  | .insert d _ va _ => some (d, pgnum va)
  | .remove d va => some (d, pgnum va)
  | _ => none

private theorem VmEffect.frame {b : Boot} {S T : Vm} {I I' : Set Nat} {fl fl' : List Nat}
    {e : VmOp × Int} {d v : Nat} (he : VmEffect b S I fl e T I' fl')
    (hsite : e.1.site = some (d, v)) : S.dirs = T.dirs ∧ Frame (S.space b) S.mem T.mem ∧
      ∀ d' ∈ S.dirs, ∀ v' < 2 ^ 20, ¬ (d' = d ∧ v' = v) →
        T.mem.pteAt d' v' = S.mem.pteAt d' v' := by
  cases he with
  | allocNone _ | alloc _ | newdirNone _ | newdir _ => simp [VmOp.site] at hsite
  | insertNone _ | removeNone _ _ => exact ⟨rfl, Frame.refl _ _, fun _ _ _ _ _ => rfl⟩
  | insert _ _ _ hmap | remove _ hmap =>
    obtain ⟨rfl, rfl⟩ := Prod.mk.inj (Option.some.inj hsite)
    refine ⟨rfl, hmap.toFrame, fun d' hd' v' hv' hne => ?_⟩
    rw [hmap.pte d' hd' v' hv', if_neg hne]

/-- A two-level page table refines a finite map. In every run that never maps a page at 65536
entries, `page_lookup` and `check_va2pa` give, for every directory and address, the page of the
last successful insertion there that no removal has followed, the entry's low bits are that
insertion's permissions with `PTE_P`, and a call on one page of one directory leaves the
translation of every other page as it was. -/
theorem pageTable_refines_map (b : Boot) (ram : Nat → Nat → Word) (hnp : b.npages.toNat ≤ 2 ^ 20)
    (hnext : kernbase ≤ b.nextfree) :
    ∃ s₀, pageInit b (bootMem b ram) = some s₀ ∧
      ∀ es S, Reach (BoundedStep b) ⟨s₀, ∅, ∅⟩ es S → ∀ d ∈ S.dirs, ∀ va : Word,
        (∃ r, pageLookup (kva d) va S.mem = some r ∧
          r.map Prod.fst = (Translation.ofHistory es d (pgnum va)).map Prod.fst ∧
          ∀ pp pte perm, r = some (pp, pte) →
            Translation.ofHistory es d (pgnum va) = some (pp, perm) →
            load S.mem pte &&& 0xFFF#32 = perm ||| pteP) ∧
        checkVa2pa (kva d) va S.mem = some
          ((Translation.ofHistory es d (pgnum va)).elim (~~~0#32) fun m => page2pa m.1) ∧
        ∀ e T, BoundedStep b S e T → ∀ d' v', e.1.site = some (d', v') →
          ¬ (d = d' ∧ pgnum va = v') →
          pageLookup (kva d) va T.mem = pageLookup (kva d) va S.mem ∧
          checkVa2pa (kva d) va T.mem = checkVa2pa (kva d) va S.mem ∧
          ∀ pp pte, pageLookup (kva d) va S.mem = some (some (pp, pte)) →
            load T.mem pte = load S.mem pte := by
  obtain ⟨s₀, hs₀, hok₀, hb₀⟩ := vmOk_init b ram hnp hnext
  refine ⟨s₀, hs₀, fun es S hreach d hd va => ?_⟩
  obtain ⟨hb, ⟨I, fl, hok⟩, hM⟩ := implements_reach hok₀ hb₀ hreach
  obtain ⟨hl, hc⟩ := hM.lookup hok hd va
  refine ⟨hl, hc, fun e T hs d' v' hsite hne => ?_⟩
  obtain ⟨I', fl', heff, hok'⟩ := hok.step hb hs.1
  obtain ⟨hdirs, hf, hpte⟩ := heff.frame hsite
  exact lookup_congr hok hok' hf hd (hdirs ▸ hd) (hpte d hd _ (pgnum_lt va) hne)

/-- At 65536 mappings the 16-bit count has wrapped to zero: inserting the page once more where it
is mapped puts it on the free list, and nothing else changes. -/
private theorem wrap_reinsert {b : Boot} {d p : Nat} {S : Vm} {I : Set Nat} {fl : List Nat}
    (h : Filled b d p 65536 S I fl) :
    ∃ t, pageInsert (kva d) p (pageAddr 0) 0#32 S.mem = some (0, t) ∧ t.ram = S.mem.ram ∧
      t.npages = S.mem.npages ∧ FreeList t (p :: fl) ∧ (t.pages p).ppRef = 0 := by
  have hd : d ∈ (S.space b).dirs := by simp [Vm.space, h.dirs]
  have hlt := h.ok.inv.dir_lt hd
  have hpg : pgnum (pageAddr 0) = 0 := by decide
  have hent := h.entry 0 (by omega)
  simp only [Nat.zero_lt_succ, if_true] at hent
  have hpr : present (S.mem.pteAt d (pgnum (pageAddr 0))) = true := by
    rw [hpg, hent]
    exact present_or_left (present_or_right present_pteP)
  have hpde := VmInv.pde_present hpr
  have htl := h.ok.inv.tbl_lt hd (pdx_lt _) hpde
  have hwp : pgnum (S.mem.pteAt d (pgnum (pageAddr 0))) = p := by rw [hpg, hent, h.pgnum_entry]
  have href : (S.mem.pages p).ppRef = 0 := by
    rw [h.ok.inv.ref p h.data.lt h.data.pool, refs, h.card_mapSites (by omega),
      tableSites_eq_empty h.data.notTable, Finset.card_empty, Pi.zero_apply]
    rfl
  let s₁ := S.mem.setRef p ((S.mem.pages p).ppRef + 1)
  let s₂ := s₁.setRef p ((s₁.pages p).ppRef - 1)
  have hr1 : (s₁.pages p).ppRef = 1 := by simp [s₁, href]
  have hr2 : (s₂.pages p).ppRef = 0 := by simp [s₂, hr1]
  have hf2 : FreeList s₂ fl := (h.ok.inv.free.setRef h.data.used _).setRef h.data.used _
  have hlook : pageLookup (kva d) (pageAddr 0) s₁ = some (some (p,
      slot (kva (pgnum (S.mem.ram d (pdx (pageAddr 0))))) (ptx (pageAddr 0)))) := by
    have hl := pageLookup_some (s := s₁) hlt hpr htl (by
      rw [show s₁.pteAt d _ = S.mem.pteAt d _ from rfl, hwp]
      exact h.data.lt)
    rw [hl, show s₁.pteAt d _ = S.mem.pteAt d _ from rfl, hwp]
    rfl
  have hdec : pageDecref p s₁ = some (s₂.give p) := by
    rw [pageDecref]
    exact (if_pos (by rw [hr1]; rfl)).trans (pageFree_eq hf2 h.data.used hr2)
  have ht20 := htl.trans_le h.ok.inv.np
  have hst : ∀ w u, store (slot (kva (pgnum (S.mem.ram d (pdx (pageAddr 0)))))
      (ptx (pageAddr 0))) w u = u.setRam (pgnum (S.mem.ram d (pdx (pageAddr 0))))
        (ptx (pageAddr 0)) w := fun w u => store_slot u _ _ w ht20 (ptx_lt _)
  have hld : load s₁ (slot (kva (pgnum (S.mem.ram d (pdx (pageAddr 0))))) (ptx (pageAddr 0))) =
      S.mem.pteAt d (pgnum (pageAddr 0)) := load_pte (s := s₁) hpde
  let u := (s₂.give p).setRam (pgnum (S.mem.ram d (pdx (pageAddr 0)))) (ptx (pageAddr 0)) 0#32
  refine ⟨u.setRam (pgnum (S.mem.ram d (pdx (pageAddr 0)))) (ptx (pageAddr 0))
    (page2pa p ||| pteP ||| 0#32), ?_, ?_, rfl,
    ((hf2.give h.data.used h.data.lt hr2).setRam _ _ _).setRam _ _ _, ?_⟩
  · simp only [pageInsert, pgdirWalk_present hlt hpde htl, Option.bind_eq_bind, Option.bind_some]
    rw [show S.mem.setRef p ((S.mem.pages p).ppRef + 1) = s₁ from rfl, hld, if_pos hpr, pageRemove,
      hlook]
    simp only [Option.bind_eq_bind, Option.bind_some, hdec, Option.map_some, hst]
    rfl
  · funext r c
    have hold : S.mem.ram (pgnum (S.mem.ram d (pdx (pageAddr 0)))) (ptx (pageAddr 0)) =
        page2pa p ||| pteP ||| 0#32 := by
      have hpt : S.mem.pteAt d (pgnum (pageAddr 0)) = page2pa p ||| pteP ||| 0#32 := by
        rw [hpg, hent]
      rw [← hpt, Mem.pteAt, pgnum_div, pgnum_mod, if_pos hpde]
    by_cases hrc : r = pgnum (S.mem.ram d (pdx (pageAddr 0))) ∧ c = ptx (pageAddr 0)
    · rw [hrc.1, hrc.2, hold]
      simp [Mem.setRam]
    · simp only [u, Mem.setRam, hrc, if_false]
      rfl
  · simpa [u, Mem.setRam, Mem.give] using hr2

/-- `page_insert` into a slot without page table takes the head of the free list for one, whatever
else that page is used for. -/
private theorem insert_newTable {s : Mem} {d p q v : Nat} {fl : List Nat} (hd : d < 2 ^ 20)
    (hp : p < 2 ^ 20) (hv : v < 2 ^ 20) (hf : FreeList s (p :: fl)) (hdp : d ≠ p) (hqp : q ≠ p)
    (hq : q ∉ fl) (habs : present (s.ram d (v / 1024)) = false) :
    ∃ t, pageInsert (kva d) q (pageAddr v) 0#32 s = some (0, t) ∧ t.npages = s.npages ∧
      FreeList t fl ∧ (t.pages p).ppRef = (s.pages p).ppRef + 1 ∧
      (∀ r c, r ≠ p → t.ram r c = if r = d ∧ c = v / 1024 then
        page2pa p ||| (pteP ||| pteU ||| pteW) else s.ram r c) ∧
      ∀ c, t.ram p c = if c = v % 1024 then page2pa q ||| pteP ||| 0#32 else 0#32 := by
  let s₁ := (s.newTable d (v / 1024) p).setRef q (((s.newTable d (v / 1024) p).pages q).ppRef + 1)
  have hzero : ∀ c, s₁.ram p c = 0#32 := newTable_ram_self hp hdp.symm
  have hload : load s₁ (slot (kva p) (v % 1024)) = 0#32 := by
    rw [load_slot s₁ p _ hp (by omega), hzero]
  have hwalk : pgdirWalk (kva d) (pageAddr v) true s =
      some (some (slot (kva p) (v % 1024)), s.newTable d (v / 1024) p) := by
    have habs' : present (s.ram d (pdx (pageAddr v))) = false := by rwa [pdx_pageAddr hv]
    have hw := pgdirWalk_create_cons hd habs' hf
    rwa [pdx_pageAddr hv, ptx_pageAddr hv] at hw
  refine ⟨s₁.setRam p (v % 1024) (page2pa q ||| pteP ||| 0#32), ?_, rfl, ?_, ?_, ?_, ?_⟩
  · have hcont : ∀ u, store (slot (kva p) (v % 1024)) (page2pa q ||| pteP ||| 0#32) u =
        u.setRam p (v % 1024) (page2pa q ||| pteP ||| 0#32) :=
      fun u => store_slot u p _ _ hp (Nat.mod_lt _ (by decide))
    unfold pageInsert
    rw [hwalk, Option.bind_eq_bind, Option.bind_some]
    have hn : ¬ present (load s₁ (slot (kva p) (v % 1024))) = true := by
      rw [hload, present_zero]
      exact Bool.false_ne_true
    rw [← hcont]
    exact if_neg hn
  · exact (hf.newTable.setRef hq _).setRam _ _ _
  · have he : (s₁.setRam p (v % 1024) (page2pa q ||| pteP ||| 0#32)).pages p =
        (s.newTable d (v / 1024) p).pages p := Mem.setRef_pages_ne _ _ hqp.symm
    rw [he]
    simp [Mem.newTable, Mem.setRam]
  · intro r c hr
    have hrc : (s₁.setRam p (v % 1024) (page2pa q ||| pteP ||| 0#32)).ram r c =
        (s.newTable d (v / 1024) p).ram r c := by
      simp [Mem.setRam, hr, s₁, Mem.setRef]
    rw [hrc, newTable_ram hp hr]
  · intro c
    simp only [Mem.setRam, hzero, true_and]

/-- `page_remove` frees the page when its count is one, whatever else it is used for. -/
private theorem remove_last {s : Mem} {d p v : Nat} {fl : List Nat} (hd : d < 2 ^ 20)
    (hn : s.npages ≤ 2 ^ 20) (hv : v < 2 ^ 20) (hf : FreeList s fl) (hp : p ∉ fl)
    (hlt : p < s.npages) (hr : (s.pages p).ppRef = 1)
    (ht : pgnum (s.ram d (v / 1024)) < s.npages)
    (hpr : present (s.pteAt d v) = true) (he : pgnum (s.pteAt d v) = p) :
    ∃ t, pageRemove (kva d) (pageAddr v) s = some t ∧ t.npages = s.npages ∧
      FreeList t (p :: fl) ∧
      t.ram = (s.setRam (pgnum (s.ram d (v / 1024))) (v % 1024) 0#32).ram := by
  let s₁ := s.setRef p ((s.pages p).ppRef - 1)
  have hr1 : (s₁.pages p).ppRef = 0 := by simp [s₁, hr]
  have hf1 : FreeList s₁ fl := hf.setRef hp _
  have hdec : pageDecref p s = some (s₁.give p) := by
    rw [pageDecref]
    exact (if_pos (by rw [hr]; rfl)).trans (pageFree_eq hf1 hp hr1)
  have hpr' : present (s.pteAt d (pgnum (pageAddr v))) = true := by rwa [pgnum_pageAddr hv]
  have hlook := pageLookup_some hd hpr'
    (by rwa [pdx_pageAddr hv]) (by rwa [pgnum_pageAddr hv, he])
  rw [pgnum_pageAddr hv, pdx_pageAddr hv, ptx_pageAddr hv, he] at hlook
  refine ⟨(s₁.give p).setRam (pgnum (s.ram d (v / 1024))) (v % 1024) 0#32, ?_, rfl,
    (hf1.give hp hlt hr1).setRam _ _ _, rfl⟩
  simp only [pageRemove, hlook, Option.bind_eq_bind, Option.bind_some, hdec, Option.map_some,
    store_slot _ _ _ _ (ht.trans_le hn) (show v % 1024 < 1024 by omega)]

/-- Without the bound the refinement fails: page 158 is mapped at 65536 addresses, which wraps its
count to zero, so that a later insertion takes it for a page table while it is still mapped;
removing one of the old mappings frees that page table, and the next insertion clears it. The
mapping of page 157 at page number 65536 is then lost although nothing has removed it. -/
theorem pageTable_loses_mapping :
    let b : Boot := ⟨160#32, 160#32, 0xF0200000#32⟩
    ∃ s₀ es S, pageInit b (bootMem b fun _ _ => 0#32) = some s₀ ∧
      Reach (VmStep b) ⟨s₀, ∅, ∅⟩ es S ∧ 159 ∈ S.dirs ∧
      Translation.ofHistory es 159 65536 = some (157, 0#32) ∧
      pageLookup (kva 159) (pageAddr 65536) S.mem = some none := by
  intro b
  obtain ⟨s₀, fl, hs₀, hok, hb, hlen⟩ := vmOk_160
  obtain ⟨S₁, hrun₁, hF₁, hout₁, htabs⟩ := Filled.start hok hb
  obtain ⟨es, S, I, fl', hrun, hF, hout, hI, _⟩ := hF₁.run hlen htabs 65536 le_rfl
  have hd : 159 ∈ (S.space b).dirs := by simp [Vm.space, hF.dirs]
  have hq : IsData (S.space b) S.mem fl' 157 := ((hF.ok.inv.idle 157).mp (hI (by simp))).1
  have hqout : 157 ∈ S.out := by rw [hout, hout₁]; simp
  have hp : IsData (S.space b) S.mem fl' 158 := hF.data
  have hnp := hF.ok.inv.np
  -- the page table of the first 1024 pages, which stays as it is
  have hpr0 : present (S.mem.pteAt 159 1) = true := by
    rw [hF.entry 1 (by omega), if_pos (by omega)]
    exact present_or_left (present_or_right present_pteP)
  have hpde : present (S.mem.ram 159 0) = true := by
    have hpr1 : present (S.mem.pteAt 159 (pgnum (pageAddr 1))) = true := hpr0
    exact VmInv.pde_present hpr1
  obtain ⟨htl, _, _, htd⟩ := hF.ok.inv.tbl 159 hd 0 (by omega) hpde
  have htp : pgnum (S.mem.ram 159 0) ≠ 158 := fun e => hp.notTable ⟨159, hd, 0, by omega, hpde, e⟩
  have htd' : pgnum (S.mem.ram 159 0) ≠ 159 := fun e => htd (by rw [e]; exact hd)
  have hrows : ∀ i, 64 ≤ i → i < 1024 → present (S.mem.ram 159 i) = false :=
    fun i h1 h2 => hF.rows i h2 (by omega)
  -- the insertion that frees page 158
  obtain ⟨t₁, he₁, hram₁, hn₁, hf₁, href₁⟩ := wrap_reinsert hF
  have hs₁ : VmStep b S (.insert 159 158 (pageAddr 0) 0#32, 0) { S with mem := t₁ } :=
    ⟨⟨hd, hF.usable, by decide⟩, by simp [Vm.exec, he₁]⟩
  have hu₁ : Vm.Usable b { S with mem := t₁ } 157 := by
    refine ⟨hqout, fun fl hf => hf₁.unique hf ▸ ?_, hq.notDir, ?_⟩
    · simp [hq.used]
    · exact mt (isTable_congr (G := S.space b) (fun _ _ _ _ => by rw [hram₁]) 157).mp hq.notTable
  -- the insertion that takes page 158 for a page table
  obtain ⟨t₂, he₂, hn₂, hf₂, href₂, hram₂, _⟩ := insert_newTable (d := 159) (q := 157) (v := 65536)
    (by decide) (by decide) (by decide) hf₁ (by decide) (by decide) hq.used
    (by rw [hram₁]; exact hrows 64 (by omega) (by omega))
  rw [hram₁] at hram₂
  have hs₂ : VmStep b { S with mem := t₁ } (.insert 159 157 (pageAddr 65536) 0#32, 0)
      { S with mem := t₂ } := ⟨⟨hd, hu₁, by decide⟩, by simp [Vm.exec, he₂]⟩
  have hrow₂ : t₂.ram 159 0 = S.mem.ram 159 0 := by rw [hram₂ 159 0 (by decide), if_neg (by decide)]
  have hpte₂ : t₂.pteAt 159 1 = S.mem.pteAt 159 1 := by
    simp only [Mem.pteAt, Nat.reduceDiv, Nat.reduceMod, hrow₂, hram₂ _ 1 htp]
    simp [htd']
  -- the removal of an old mapping that frees page 158 again
  obtain ⟨t₃, he₃, hn₃, hf₃, hram₃⟩ := remove_last (s := t₂) (d := 159) (p := 158) (v := 1)
    (by decide) (by rw [hn₂, hn₁]; exact hnp) (by decide) hf₂ hp.used
    (by rw [hn₂, hn₁]; exact hp.lt) (by rw [href₂, href₁]; rfl)
    (by rw [hn₂, hn₁, show 1 / 1024 = 0 from rfl, hrow₂]; exact htl) (by rw [hpte₂]; exact hpr0)
    (by rw [hpte₂, hF.entry 1 (by omega), if_pos (by omega)]; exact hF.pgnum_entry)
  have hs₃ : VmStep b { S with mem := t₂ } (.remove 159 (pageAddr 1), 0) { S with mem := t₃ } :=
    ⟨hd, by simp [Vm.exec, he₃]⟩
  have hrow₃ : ∀ i, t₃.ram 159 i =
      if i = 64 then page2pa 158 ||| (pteP ||| pteU ||| pteW) else S.mem.ram 159 i := by
    intro i
    rw [hram₃, show 1 / 1024 = 0 from rfl, hrow₂]
    simp only [Mem.setRam, htd'.symm, false_and, if_false]
    rw [hram₂ 159 i (by decide)]
    simp
  have hu₃ : Vm.Usable b { S with mem := t₃ } 157 := by
    refine ⟨hqout, fun fl hf => hf₃.unique hf ▸ ?_, hq.notDir, ?_⟩
    · simp [hq.used]
    · rintro ⟨d', hd', i, hi, hpr, he⟩
      obtain rfl : d' = 159 := by simpa [Vm.space, hF.dirs] using hd'
      rw [show (Vm.mem { S with mem := t₃ }) = t₃ from rfl, hrow₃ i] at hpr he
      split_ifs at hpr he
      · rw [pgnum_entry 158 _ (by decide) (by decide)] at he
        omega
      · exact hq.notTable ⟨159, hd, i, hi, hpr, he⟩
  -- the insertion that clears page 158
  obtain ⟨t₄, he₄, hn₄, hf₄, _, hram₄, hzero₄⟩ := insert_newTable (d := 159) (q := 157)
    (v := 66561) (by decide) (by decide) (by decide) hf₃ (by decide) (by decide) hq.used
    (by rw [hrow₃]; exact hrows 65 (by omega) (by omega))
  have hs₄ : VmStep b { S with mem := t₃ } (.insert 159 157 (pageAddr 66561) 0#32, 0)
      { S with mem := t₄ } := ⟨⟨hd, hu₃, by decide⟩, by simp [Vm.exec, he₄]⟩
  have hrow₄ : t₄.ram 159 64 = page2pa 158 ||| (pteP ||| pteU ||| pteW) := by
    rw [hram₄ 159 64 (by decide), if_neg (by decide), hrow₃ 64, if_pos rfl]
  have hpg₄ : pgnum (t₄.ram 159 64) = 158 := by
    rw [hrow₄]
    exact pgnum_entry 158 _ (by decide) (by decide)
  have hreach := (((((hrun₁.mono fun _ _ _ h => h.1).trans hrun).snoc hs₁).snoc hs₂).snoc hs₃).snoc
    hs₄
  refine ⟨s₀, _, _, hs₀, hreach, hd, ?_, ?_⟩
  · have hpg : pgnum (pageAddr 66561) = 66561 := pgnum_pageAddr (by decide)
    have hpg1 : pgnum (pageAddr 1) = 1 := pgnum_pageAddr (by decide)
    have hpg2 : pgnum (pageAddr 65536) = 65536 := pgnum_pageAddr (by decide)
    rw [Translation.ofHistory_snoc, Translation.ofHistory_snoc, Translation.ofHistory_snoc]
    simp [Translation.apply, hpg, hpg1, hpg2]
  · have hpdx : pdx (pageAddr 65536) = 64 := pdx_pageAddr (by decide)
    have hpg : pgnum (pageAddr 65536) = 65536 := pgnum_pageAddr (by decide)
    refine pageLookup_none (by decide) ?_ ?_
    · rw [hpg]
      simp only [Mem.pteAt, Nat.reduceDiv, Nat.reduceMod, hpg₄, hzero₄]
      simp
    · intro _
      rw [hpdx, hpg₄, show (Vm.mem { S with mem := t₄ }) = t₄ from rfl, hn₄, hn₃, hn₂, hn₁]
      exact hp.lt

theorem pageTable_refines_map_run :
    let b : Boot := ⟨160#32, 160#32, 0xF0200000#32⟩
    ∃ s₀ S, pageInit b (bootMem b fun _ _ => 0#32) = some s₀ ∧
      Reach (BoundedStep b) ⟨s₀, ∅, ∅⟩ [(.newdir, 0), (.alloc 0#32, 0), (.alloc 0#32, 0),
        (.insert 159 158 (pageAddr 0) 0#32, 0)] S ∧
      checkVa2pa (kva 159) 0xABC#32 S.mem = some (page2pa 158) := by
  intro b
  obtain ⟨s₀, hs₀, hall⟩ := pageTable_refines_map b (fun _ _ => 0#32) (by decide) (by decide)
  obtain ⟨s₁, fl, hs₁, hok, hb, hlen⟩ := vmOk_160
  obtain rfl : s₁ = s₀ := Option.some.inj (hs₁.symm.trans hs₀)
  obtain ⟨S₁, hrun₁, hF₁, _, _⟩ := Filled.start hok hb
  obtain ⟨S, _, hs, hF, _⟩ := hF₁.step (by decide) (by rintro rfl; simp at hlen)
  have hrun := hrun₁.snoc ⟨hs, hF.bounded (by decide)⟩
  obtain ⟨_, hc, _⟩ := hall _ S hrun 159 (by simp [hF.dirs]) 0xABC#32
  exact ⟨s₁, S, hs₀, hrun, hc⟩

end NctuCourses.Osdi
