import Mathlib.Logic.Function.Basic
import NctuCourses.Lib.Post

namespace NctuCourses.Lib

/-- A run of a system given by what each operation can do: `R op a r a'` takes `a`
to `a'` with the result `r`. -/
inductive Runs {ι ρ A : Type} (R : ι → A → ρ → A → Prop) : A → List ι → List ρ → A → Prop
  | nil (a : A) : Runs R a [] [] a
  | cons {a a' a'' : A} {op : ι} {ops : List ι} {r : ρ} {rs : List ρ} (h : R op a r a')
      (hs : Runs R a' ops rs a'') : Runs R a (op :: ops) (r :: rs) a''

variable {σ ι ρ A : Type} {R : ι → A → ρ → A → Prop}

/-- Forward simulation: what holds of one operation, with a relation `I` to the abstract states that
it keeps, holds of every list of operations. -/
theorem Post.runs {run : ι → StateM σ ρ} {I : σ → A → Prop} {ops : List ι}
    (step : ∀ op ∈ ops, ∀ s a, I s a → Post (run op) s fun r t => ∃ a', R op a r a' ∧ I t a')
    {s : σ} {a : A} (h : I s a) :
    Post (ops.mapM run) s fun rs t => ∃ a', Runs R a ops rs a' ∧ I t a' := by
  induction ops generalizing s a with
  | nil => exact ⟨a, .nil a, h⟩
  | cons op ops ih =>
    rw [List.mapM_cons]
    refine (step op (List.mem_cons_self ..) s a h).bind fun r t hr => ?_
    obtain ⟨a', hR, ht⟩ := hr
    refine (ih (fun o ho => step o (List.mem_cons_of_mem op ho)) ht).bind fun rs u hrs => ?_
    obtain ⟨a'', hRs, hu⟩ := hrs
    exact ⟨a'', .cons hR hRs, hu⟩

/-- Two families of which one member changes: what holds of all pairs is to be shown of the new
pair, and again of the others. -/
theorem forall_update_both {α β : Type} [DecidableEq ι] {p : ι → α → β → Prop} {f : ι → α}
    {g : ι → β} {i : ι} {x : α} {y : β} (hi : p i x y) (h : ∀ j ≠ i, p j (f j) (g j)) (j : ι) :
    p j (Function.update f i x j) (Function.update g i y j) := by
  obtain rfl | hj := eq_or_ne j i
  · simpa using hi
  · simpa [hj] using h j hj

end NctuCourses.Lib
