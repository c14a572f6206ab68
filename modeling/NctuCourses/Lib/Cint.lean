import Mathlib.Algebra.Ring.Int.Defs

namespace NctuCourses.Lib

/-- The value of an `int` expression, undefined if it overflows. -/
def cint (x : Int) : Option Int := if -2 ^ 31 ≤ x ∧ x < 2 ^ 31 then some x else none

theorem cint_some {x y : Int} : cint x = some y ↔ x = y ∧ -2 ^ 31 ≤ x ∧ x < 2 ^ 31 := by
  unfold cint
  by_cases h : -2 ^ 31 ≤ x ∧ x < 2 ^ 31
  · rw [if_pos h, Option.some.injEq]
    exact ⟨fun hxy => ⟨hxy, h⟩, And.left⟩
  · rw [if_neg h]
    exact ⟨(nomatch ·), fun hy => absurd hy.2 h⟩

end NctuCourses.Lib
