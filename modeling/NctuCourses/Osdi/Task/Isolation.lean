import NctuCourses.Osdi.Task.Link
import NctuCourses.Osdi.Task.Runqueue

namespace NctuCourses.Osdi

theorem regionsEntry_cases (rs : List Region) (w : Word) (v : Nat) :
    regionsEntry rs w v = w ∨ ∃ r ∈ rs, r.entry v = some (regionsEntry rs w v) := by
  induction rs generalizing w with
  | nil => exact .inl rfl
  | cons r rs ih =>
    rw [regionsEntry_cons]
    rcases ih ((r.entry v).getD w) with he | ⟨r', hr', he⟩
    · cases hr : r.entry v with
      | none =>
        rw [hr, Option.getD_none] at he
        exact .inl (by rw [Option.getD_none, he])
      | some w' =>
        rw [hr, Option.getD_some] at he
        exact .inr ⟨r, by simp, by rw [hr, Option.getD_some, he]⟩
    · exact .inr ⟨r', by simp [hr'], he⟩

theorem regionsEntry_of_some {rs : List Region} {v : Nat} {e : Word}
    (h : ∀ r ∈ rs, r.entry v = none ∨ r.entry v = some e) {r : Region} (hr : r ∈ rs)
    (he : r.entry v = some e) (w : Word) : regionsEntry rs w v = e := by
  induction rs generalizing w with
  | nil => simp at hr
  | cons r' rs ih =>
    rw [regionsEntry_cons]
    by_cases hrs : r ∈ rs
    · exact ih (fun q hq => h q (by simp [hq])) hrs _
    · obtain rfl : r = r' := (List.mem_cons.mp hr).resolve_right hrs
      rw [he, Option.getD_some]
      rcases regionsEntry_cases rs e v with hkeep | ⟨q, hq, hlast⟩
      · exact hkeep
      · rcases h q (by simp [hq]) with hq' | hq'
        · simp [hq'] at hlast
        · exact Option.some.inj (hlast.symm.trans hq')

/-- The entry of the linear map at `KERNBASE`, open to user code. -/
def openEntry (v : Nat) : Word := page2pa (v - 983040) ||| (pteW ||| pteU) ||| pteP

/-- The call of `setupvm` for a range. -/
def rangeRegion (r : Nat × Nat) : Region :=
  sectionRegion (BitVec.ofNat 32 r.1) (BitVec.ofNat 32 r.2 - BitVec.ofNat 32 r.1)

section Ranges

variable {r : Nat × Nat} (hlow : 0xF0000000 ≤ r.1) (hle : r.1 ≤ r.2) (hfit : r.2 + 4096 ≤ 2 ^ 32)
include hlow hle hfit

theorem range_pages : (roundup (BitVec.ofNat 32 r.2 - BitVec.ofNat 32 r.1) pgsize).toNat =
    (r.2 - r.1 + 4095) / 4096 * 4096 := by
  have hsub : (BitVec.ofNat 32 r.2 - BitVec.ofNat 32 r.1).toNat = r.2 - r.1 := by
    simp only [BitVec.toNat_sub, BitVec.toNat_ofNat]
    omega
  rw [roundup_toNat (by omega), hsub]

/-- `setupvm` maps the pages that the range covers, each to itself. -/
theorem range_entry (hal : r.1 % 4096 = 0) {v : Nat} (hv : v < 2 ^ 20) :
    (Covers r v → (rangeRegion r).entry v = some (openEntry v)) ∧
      (¬ Covers r v → (rangeRegion r).entry v = none) := by
  have hpages := range_pages hlow hle hfit
  have hpg : pgnum (BitVec.ofNat 32 r.1) = r.1 / 4096 := by
    rw [pgnum_eq, BitVec.toNat_ofNat]
    omega
  constructor
  · intro hc
    obtain ⟨h1, h2⟩ := hc
    obtain ⟨k, rfl⟩ := Nat.exists_eq_add_of_le h1
    have hvpn : r.1 / 4096 + k = vpnAt (BitVec.ofNat 32 r.1) k := by
      rw [vpnAt, hpg]
      omega
    have hpa : BitVec.ofNat 32 r.1 - kernbase + BitVec.ofNat 32 (4096 * k) =
        page2pa (r.1 / 4096 + k - 983040) := by
      apply BitVec.eq_of_toNat_eq
      have hbase : kernbase.toNat = 4026531840 := by decide
      rw [page2pa_toNat _ (by omega), BitVec.toNat_add, BitVec.toNat_sub, hbase, BitVec.toNat_ofNat,
        BitVec.toNat_ofNat]
      omega
    rw [openEntry, ← hpa, hvpn]
    refine Region.entry_vpnAt (r := rangeRegion r) ?_
    change k < (roundup (BitVec.ofNat 32 r.2 - BitVec.ofNat 32 r.1) pgsize).toNat / 4096
    omega
  · intro hc
    refine Region.entry_none hv fun k hk e => hc ?_
    change k < (roundup (BitVec.ofNat 32 r.2 - BitVec.ofNat 32 r.1) pgsize).toNat / 4096 at hk
    change v = vpnAt (BitVec.ofNat 32 r.1) k at e
    rw [vpnAt, hpg] at e
    rw [hpages] at hk
    constructor <;> omega

end Ranges

theorem Image.LinkedBy.bounded {L : Image} {o : Objects} (hL : L.LinkedBy (link o)) :
    L.Bounded := by
  intro p hp
  change p ∈ L.sections at hp
  rw [hL.sections] at hp
  obtain ⟨r, hr, rfl⟩ := List.mem_map.mp hp
  obtain ⟨h1, h2, h3⟩ := link_ranges o hr
  have hfit := hL.fits
  dsimp only
  rw [range_pages h1 h2 (by omega), BitVec.toNat_ofNat]
  omega

namespace UserSpace

variable {L : Image} {o : Objects} {n : Nat} {fl : List Nat} {mem : Mem} {d : Nat}

theorem userEntry (h : UserSpace L n fl mem d) (hL : L.LinkedBy (link o)) {v : Nat}
    (hv : v < 2 ^ 20) (w : Word) :
    ((∃ r ∈ (link o).ranges, Covers r v) → regionsEntry (userRegions L) w v = openEntry v) ∧
      ((∀ r ∈ (link o).ranges, ¬ Covers r v) → regionsEntry (userRegions L) w v = w) := by
  have hfit := hL.fits
  have hent : ∀ r ∈ (link o).ranges,
      (Covers r v → (rangeRegion r).entry v = some (openEntry v)) ∧
      (¬ Covers r v → (rangeRegion r).entry v = none) := by
    intro r hr
    obtain ⟨h1, h2, h3⟩ := link_ranges o hr
    have hal := (h.aligned (BitVec.ofNat 32 r.1, BitVec.ofNat 32 r.2)
      (by rw [hL.sections]; exact List.mem_map_of_mem hr)).1
    rw [BitVec.toNat_ofNat] at hal
    exact range_entry h1 h2 (by omega) (by omega) hv
  have hreg : userRegions L = (link o).ranges.map rangeRegion := by
    rw [userRegions, hL.sections, List.map_map]
    rfl
  rw [hreg]
  constructor
  · intro hc
    obtain ⟨r, hr, hc⟩ := hc
    refine regionsEntry_of_some (fun q hq => ?_) (List.mem_map_of_mem hr) ((hent r hr).1 hc) w
    obtain ⟨r', hr', rfl⟩ := List.mem_map.mp hq
    by_cases hc' : Covers r' v
    · exact .inr ((hent r' hr').1 hc')
    · exact .inl ((hent r' hr').2 hc')
  · intro hc
    refine regionsEntry_of_none (fun q hq => ?_) w
    obtain ⟨r, hr, rfl⟩ := List.mem_map.mp hq
    exact (hent r hr).2 (hc r hr)

end UserSpace

end NctuCourses.Osdi
