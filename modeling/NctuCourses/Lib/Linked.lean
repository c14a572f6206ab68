import Mathlib.Data.List.Nodup
import Mathlib.Data.List.Chain

namespace NctuCourses.Lib

/-- Following `next` from `head` visits exactly the cells of the list, in order, and then ends. -/
def Linked {ι : Type*} (next : ι → Option ι) : Option ι → List ι → Prop
  | head, [] => head = none
  | head, a :: l => head = some a ∧ Linked next (next a) l

namespace Linked

variable {ι : Type*} {next : ι → Option ι} {head : Option ι} {l : List ι}

@[simp] theorem nil_iff : Linked next head [] ↔ head = none := Iff.rfl

@[simp] theorem cons_iff {a : ι} :
    Linked next head (a :: l) ↔ head = some a ∧ Linked next (next a) l := Iff.rfl

theorem unique {l' : List ι} (h : Linked next head l) (h' : Linked next head l') : l = l' := by
  induction l generalizing head l' with
  | nil =>
    cases l' with
    | nil => rfl
    | cons b l' => rw [nil_iff] at h; simp [h] at h'
  | cons a l ih =>
    obtain ⟨rfl, ht⟩ := h
    cases l' with
    | nil => simp at h'
    | cons b l' =>
      obtain ⟨hb, ht'⟩ := h'
      obtain rfl := Option.some.inj hb
      rw [ih ht ht']

theorem suffix {l₁ l₂ : List ι} {a : ι} (h : Linked next head (l₁ ++ a :: l₂)) :
    Linked next (next a) l₂ := by
  induction l₁ generalizing head with
  | nil => exact h.2
  | cons b l₁ ih => exact ih h.2

/-- A finite linked list is acyclic: two visits of one cell would have equal continuations. -/
theorem nodup (h : Linked next head l) : l.Nodup := by
  induction l generalizing head with
  | nil => exact List.nodup_nil
  | cons a l ih =>
    refine List.nodup_cons.mpr ⟨fun ha => ?_, ih h.2⟩
    obtain ⟨l₁, l₂, rfl⟩ := List.append_of_mem ha
    have he := congrArg List.length (h.2.unique h.2.suffix)
    simp at he
    omega

theorem congr {next' : ι → Option ι} (h : Linked next head l)
    (he : ∀ a ∈ l, next' a = next a) : Linked next' head l := by
  induction l generalizing head with
  | nil => exact h
  | cons a l ih =>
    refine ⟨h.1, ?_⟩
    rw [he a (by simp)]
    exact ih h.2 (fun b hb => he b (by simp [hb]))

theorem head_eq_none_iff (h : Linked next head l) : head = none ↔ l = [] := by
  cases l with
  | nil => simpa using h
  | cons a l => simp [h.1]

/-- Linking a cell to the head puts it in front, as long as the cells behind it keep their links. -/
theorem push {next' : ι → Option ι} {a : ι} (h : Linked next head l) (ha : next' a = head)
    (he : ∀ b ∈ l, next' b = next b) : Linked next' (some a) (a :: l) :=
  ⟨rfl, ha ▸ h.congr he⟩

theorem snoc {next' : ι → Option ι} {head' : Option ι} {a : ι} (h : Linked next head l)
    (ha : next' a = none) (hlast : ∀ b, l.getLast? = some b → next' b = some a)
    (he : ∀ b ∈ l, l.getLast? ≠ some b → next' b = next b)
    (hhead : head' = if l = [] then some a else head) : Linked next' head' (l ++ [a]) := by
  induction l generalizing head head' with
  | nil => exact ⟨hhead, ha⟩
  | cons b l ih =>
    refine ⟨hhead.trans h.1, ?_⟩
    cases l with
    | nil => exact ⟨hlast b rfl, ha⟩
    | cons c l =>
      have hb : b ∉ c :: l := (List.nodup_cons.mp h.nodup).1
      have hnext : next' b = next b := by
        refine he b (by simp) fun hl => hb ?_
        rw [List.getLast?_cons_cons] at hl
        exact List.mem_of_getLast? hl
      refine ih h.2 (fun d hd => hlast d ?_) (fun d hd hne => he d (by simp [hd]) ?_) ?_
      · rwa [List.getLast?_cons_cons]
      · rwa [List.getLast?_cons_cons]
      · rw [hnext, if_neg (by simp)]

theorem unlink {next' : ι → Option ι} {head' : Option ι} {l₁ l₂ : List ι} {a : ι}
    (h : Linked next head (l₁ ++ a :: l₂)) (hlast : ∀ b, l₁.getLast? = some b → next' b = next a)
    (he : ∀ b ∈ l₁ ++ l₂, l₁.getLast? ≠ some b → next' b = next b)
    (hhead : head' = if l₁ = [] then next a else head) : Linked next' head' (l₁ ++ l₂) := by
  induction l₁ generalizing head head' with
  | nil =>
    rw [hhead, if_pos rfl]
    exact h.2.congr fun b hb => he b hb (by simp)
  | cons b l₁ ih =>
    refine ⟨hhead.trans h.1, ?_⟩
    cases l₁ with
    | nil =>
      rw [hlast b rfl]
      have ht : Linked next (next a) l₂ := h.2.2
      apply ht.congr
      intro d hd
      apply he d (by simp [hd])
      intro hbd
      have hnd := h.nodup
      simp only [List.getLast?_singleton, Option.some.injEq] at hbd
      simp [hbd, hd] at hnd
    | cons c l₁ =>
      have hb : b ∉ c :: l₁ := fun hb => (List.nodup_cons.mp h.nodup).1 (List.mem_append_left _ hb)
      have hnext : next' b = next b := by
        apply he b (by simp)
        rw [List.getLast?_cons_cons]
        intro hl
        exact hb (List.mem_of_getLast? hl)
      apply ih h.2
      · intro d hd
        apply hlast
        rwa [List.getLast?_cons_cons]
      · intro d hd hne
        apply he d (List.mem_cons_of_mem _ hd)
        rwa [List.getLast?_cons_cons]
      · rw [hnext, if_neg (by simp)]

theorem next_eq_none_iff (h : Linked next head l) {a : ι} (ha : a ∈ l) :
    next a = none ↔ l.getLast? = some a := by
  induction l generalizing head with
  | nil => simp at ha
  | cons b l ih =>
    have hnd := List.nodup_cons.mp h.nodup
    cases l with
    | nil =>
      obtain rfl := List.mem_singleton.mp ha
      simpa using h.2
    | cons c l =>
      rw [List.getLast?_cons_cons]
      cases List.mem_cons.mp ha with
      | inl hab =>
        have hnext : next b = some c := h.2.1
        have hlast : (c :: l).getLast? ≠ some b := fun hl => hnd.1 (List.mem_of_getLast? hl)
        simp [hab, hnext, hlast]
      | inr hal => exact ih h.2 hal

/-- A list that keeps its links up to its last cell is still walked to that cell. -/
theorem mem_of_getLast {next' : ι → Option ι} {l' : List ι} {a : ι} (h : Linked next head l)
    (hl : l.getLast? = some a) (he : ∀ b, b ≠ a → next' b = next b) (h' : Linked next' head l') :
    a ∈ l' := by
  induction l generalizing head l' with
  | nil => simp at hl
  | cons b l ih =>
    cases l' with
    | nil => simp [h.1] at h'
    | cons b' l' =>
      obtain rfl : b = b' := Option.some.inj (h.1.symm.trans h'.1)
      by_cases hab : b = a
      · simp [hab]
      · cases l with
        | nil => simp [hab] at hl
        | cons c l =>
          rw [List.getLast?_cons_cons] at hl
          have ht := h'.2
          rw [he b hab] at ht
          exact List.mem_cons_of_mem b (ih h.2 hl ht)

/-- Linking the last cell back to the head closes a cycle, which no finite list walks. -/
theorem not_of_cycle {next' : ι → Option ι} {a : ι} (h : Linked next head l)
    (hl : l.getLast? = some a) (he : ∀ b, b ≠ a → next' b = next b) (ha : next' a = head)
    (l' : List ι) : ¬ Linked next' (some a) l' := by
  intro h'
  cases l' with
  | nil => simp at h'
  | cons b l' =>
    obtain rfl : a = b := Option.some.inj h'.1
    have ht := h'.2
    rw [ha] at ht
    exact (List.nodup_cons.mp h'.nodup).1 (h.mem_of_getLast hl he ht)

end Linked

/-- Each cell of the list is linked to the one after it; the last one may be linked to any cell. -/
def Chained {ι : Type*} (next : ι → Option ι) (l : List ι) : Prop :=
  l.IsChain fun a b => next a = some b

namespace Chained

variable {ι : Type*} {next next' : ι → Option ι} {l : List ι}

theorem congr (h : Chained next l) (hnd : l.Nodup)
    (he : ∀ a ∈ l, l.getLast? ≠ some a → next' a = next a) :
    Chained next' l := by
  induction l with
  | nil => exact List.IsChain.nil
  | cons a l ih =>
    cases l with
    | nil => exact List.IsChain.singleton a
    | cons b l =>
      obtain ⟨hab, ht⟩ := List.isChain_cons_cons.mp h
      obtain ⟨ha, hnd⟩ := List.nodup_cons.mp hnd
      have ha' : (a :: b :: l).getLast? ≠ some a := by
        rw [List.getLast?_cons_cons]
        intro hl
        exact ha (List.mem_of_getLast? hl)
      have ht' : Chained next' (b :: l) := by
        apply ih ht hnd
        intro c hc hne
        apply he c (List.mem_cons_of_mem a hc)
        rwa [List.getLast?_cons_cons]
      exact List.isChain_cons_cons.mpr ⟨(he a (by simp) ha').trans hab, ht'⟩

theorem snoc {a : ι} (h : Chained next l) (hlast : ∀ b, l.getLast? = some b → next b = some a) :
    Chained next (l ++ [a]) := by
  refine List.isChain_append.mpr ⟨h, List.IsChain.singleton a, ?_⟩
  intro b hb c hc
  obtain rfl : a = c := by simpa using hc
  exact hlast b hb

theorem linked {head : Option ι} {l' : List ι} (h : Chained next l) (ht : Linked next head l')
    (hlast : ∀ a, l.getLast? = some a → next a = head) :
    Linked next (l.head?.or head) (l ++ l') := by
  induction l with
  | nil => exact ht
  | cons a l ih =>
    refine ⟨rfl, ?_⟩
    cases l with
    | nil =>
      rw [hlast a rfl]
      exact ht
    | cons b l =>
      obtain ⟨hab, htail⟩ := List.isChain_cons_cons.mp h
      rw [hab]
      apply ih htail
      intro c hc
      apply hlast
      rwa [List.getLast?_cons_cons]

end Chained

end NctuCourses.Lib
