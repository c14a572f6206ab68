import Mathlib.Data.Rat.Defs
import Mathlib.Tactic
import NctuCourses.Lib.Threads

namespace NctuCourses.Cuda

open NctuCourses.Lib

def maxpoints : Nat := 1000000
def maxsteps : Nat := 1000000
def minpoints : Nat := 20

/-- What `check_param` lets pass. -/
def Accepted (tpoints nsteps : Nat) : Prop :=
  minpoints ≤ tpoints ∧ tpoints ≤ maxpoints ∧ 1 ≤ nsteps ∧ nsteps ≤ maxsteps

instance (tpoints nsteps : Nat) : Decidable (Accepted tpoints nsteps) :=
  inferInstanceAs (Decidable (_ ∧ _))

/-- The arrays of `sserial_wave.c`. -/
structure Serial where
  values : Nat → ℚ
  oldval : Nat → ℚ
  newval : Nat → ℚ

def doMath (s : Serial) (i : Nat) : Serial :=
  let dtime : ℚ := 0.3
  let c : ℚ := 1.0
  let dx : ℚ := 1.0
  let tau := c * dtime / dx
  let sqtau := tau * tau
  { s with newval := Function.update s.newval i (2.0 * s.values i - s.oldval i +
    sqtau * (-2.0) * s.values i) }

/-- One turn of the first inner loop of `update`. -/
def newPoint (tpoints : Nat) (s : Serial) (j : Nat) : Serial :=
  if j = 1 ∨ j = tpoints then { s with newval := Function.update s.newval j 0.0 } else doMath s j

/-- One turn of the second inner loop. -/
def shiftPoint (s : Serial) (j : Nat) : Serial :=
  { s with
    oldval := Function.update s.oldval j (s.values j)
    values := Function.update s.values j (s.newval j) }

def timeStep (tpoints : Nat) (s : Serial) : Serial :=
  let s := (List.range' 1 tpoints).foldl (newPoint tpoints) s
  (List.range' 1 tpoints).foldl shiftPoint s

def update (nsteps tpoints : Nat) (s : Serial) : Serial :=
  (List.range' 1 nsteps).foldl (fun s _ => timeStep tpoints s) s

def blocksize : Nat := 1024

def gridsize (tpoints : Nat) : Nat := (tpoints + blocksize) / blocksize

/-- `size / sizeof(float)`. -/
def elements (tpoints : Nat) : Nat := blocksize * gridsize tpoints

/-- `blockIdx.x` and `threadIdx.x`. -/
abbrev ThreadId (tpoints : Nat) := Fin (gridsize tpoints) × Fin blocksize

def ThreadId.idx {tpoints : Nat} (t : ThreadId tpoints) : Nat := t.1 * blocksize + t.2

/-- The statements in the loop of `updateKernel`. -/
inductive Stmt
  | compute | keep | store

/-- The variables of a thread and the statement that comes next. -/
structure Thread where
  i : Nat
  next : Stmt
  newval : ℚ

/-- The memory of the device: two arrays of `size` elements, and the threads. -/
structure Device (tpoints : Nat) where
  size : Nat
  oldvald : Nat → ℚ
  valuesd : Nat → ℚ
  threads : ThreadId tpoints → Thread

/-- What a thread does with the element of its index. -/
def Thread.step (nsteps tpoints idx : Nat) (old val : ℚ) (th : Thread) : ℚ × ℚ × Thread :=
  if th.i ≤ nsteps then
    match th.next with
    | .compute => (old, val, { th with
        newval := if idx = 1 ∨ idx = tpoints then 0.0 else 1.82 * val - old
        next := .keep })
    | .keep => (val, val, { th with next := .store })
    | .store => (old, th.newval, { th with i := th.i + 1, next := .compute })
  else (old, val, th)

/-- Thread `t` takes its next statement, undefined outside the arrays. -/
def kernelStep {tpoints : Nat} (nsteps : Nat) (d : Device tpoints) (t : ThreadId tpoints) :
    Option (Device tpoints) :=
  if t.idx < d.size then
    let (old, val, th) := Thread.step nsteps tpoints t.idx (d.oldvald t.idx)
      (d.valuesd t.idx) (d.threads t)
    some { d with
      oldvald := Function.update d.oldvald t.idx old
      valuesd := Function.update d.valuesd t.idx val
      threads := Function.update d.threads t th }
  else none

/-- The arrays of `cuda_wave.cu`, with the elements `0` to `MAXPOINTS`. -/
structure Host where
  values : Nat → ℚ
  oldval : Nat → ℚ

/-- `cudaMemcpy` of `n` elements of a host array, undefined if it has fewer. -/
def copyToDevice (n : Nat) (a : Nat → ℚ) : Option (Nat → ℚ) :=
  if n ≤ maxpoints + 1 then some a else none

def copyToHost (n : Nat) (dev a : Nat → ℚ) : Option (Nat → ℚ) :=
  if n ≤ maxpoints + 1 then some fun j => if j < n then dev j else a j else none

/-- `main` from the allocation of the device arrays on, with the statements of the threads
in the order of `schedule`. -/
def cudaMain (tpoints nsteps : Nat) (schedule : List (ThreadId tpoints)) (h : Host) :
    Option Host := do
  let size := elements tpoints
  let oldvald ← copyToDevice size h.oldval
  let valuesd ← copyToDevice size h.values
  let d ← schedule.foldlM (kernelStep nsteps) ⟨size, oldvald, valuesd, fun _ => ⟨1, .compute, 0⟩⟩
  let values ← copyToHost size d.valuesd h.values
  some { h with values := values }

/-- Every thread gets to the end of its loop: a turn is three statements. -/
def Finishes {tpoints : Nat} (nsteps : Nat) (schedule : List (ThreadId tpoints)) : Prop :=
  ∀ t, 3 * nsteps ≤ schedule.count t

/-- A point of the string: the value before, and the value now. -/
structure Point where
  old : ℚ
  val : ℚ

/-- What one time step does to point `j`. -/
def Point.next (tpoints j : Nat) (p : Point) : Point :=
  ⟨p.val, if j = 1 ∨ j = tpoints then 0 else 1.82 * p.val - p.old⟩

section Serial

variable (tpoints : Nat)

/-- Point `j` in the arrays of the serial program. -/
def Serial.point (s : Serial) (j : Nat) : Point := ⟨s.oldval j, s.values j⟩

/-- What the first inner loop sees of index `j`: the point and its new value. -/
def Serial.column (j : Nat) (s : Serial) : Point × ℚ := (s.point j, s.newval j)

theorem newPoint_column (s : Serial) (j : Nat) :
    (newPoint tpoints s j).column j = (s.point j, ((s.point j).next tpoints j).val) := by
  unfold newPoint
  split_ifs with hj
  · simp only [Serial.column, Serial.point, Point.next, if_pos hj, Function.update_self,
      Prod.mk.injEq, true_and]
    norm_num
  · simp only [doMath, Serial.column, Serial.point, Point.next, if_neg hj,
      Function.update_self, Prod.mk.injEq, true_and]
    norm_num
    ring

theorem newPoint_other (s : Serial) {i j : Nat} (h : i ≠ j) :
    (newPoint tpoints s i).column j = s.column j := by
  unfold newPoint
  split_ifs
  · simp only [Serial.column, Serial.point, Function.update_of_ne h.symm]
  · simp only [doMath, Serial.column, Serial.point, Function.update_of_ne h.symm]

theorem shiftPoint_column (s : Serial) (j : Nat) :
    (shiftPoint s j).column j = (⟨s.values j, s.newval j⟩, s.newval j) := by
  simp only [shiftPoint, Serial.column, Serial.point, Function.update_self]

theorem shiftPoint_other (s : Serial) {i j : Nat} (h : i ≠ j) :
    (shiftPoint s i).column j = s.column j := by
  simp only [shiftPoint, Serial.column, Serial.point, Function.update_of_ne h.symm]

theorem timeStep_point (s : Serial) {j : Nat} (h1 : 1 ≤ j) (hj : j ≤ tpoints) :
    (timeStep tpoints s).point j = (s.point j).next tpoints j := by
  have hmem : j ∈ List.range' 1 tpoints := List.mem_range'_1.mpr ⟨h1, by omega⟩
  have hnew := foldl_elements (fun j c => (c.1, (c.1.next tpoints j).val)) (newPoint_column tpoints)
    (fun s i j h => newPoint_other tpoints s h) (List.range' 1 tpoints) List.nodup_range' s j
  have hshift := foldl_elements (fun _ c => (⟨c.1.val, c.2⟩, c.2)) shiftPoint_column
    (fun s i j h => shiftPoint_other s h) (List.range' 1 tpoints) List.nodup_range'
    ((List.range' 1 tpoints).foldl (newPoint tpoints) s) j
  rw [if_pos hmem] at hnew hshift
  rw [hnew] at hshift
  exact congrArg Prod.fst hshift

theorem update_point (nsteps : Nat) (s : Serial) {j : Nat} (h1 : 1 ≤ j) (hj : j ≤ tpoints) :
    (update nsteps tpoints s).point j = (Point.next tpoints j)^[nsteps] (s.point j) := by
  have hloop : ∀ first,
      ((List.range' first nsteps).foldl (fun s _ => timeStep tpoints s) s).point j =
      (Point.next tpoints j)^[nsteps] (s.point j) := by
    induction nsteps generalizing s with
    | zero => exact fun _ => rfl
    | succ n ih =>
      intro first
      rw [List.range'_succ, List.foldl_cons, ih, timeStep_point tpoints s h1 hj,
        Function.iterate_succ_apply]
  exact hloop 1

end Serial

section Kernel

variable {tpoints : Nat}

theorem idx_lt (t : ThreadId tpoints) : t.idx < elements tpoints := by
  have h1 := t.1.isLt
  have h2 := t.2.isLt
  rw [ThreadId.idx, elements, Nat.mul_comm blocksize]
  calc t.1 * blocksize + t.2 < t.1 * blocksize + blocksize := by omega
    _ = (t.1 + 1) * blocksize := by ring
    _ ≤ gridsize tpoints * blocksize := Nat.mul_le_mul_right _ h1

theorem idx_injective {t u : ThreadId tpoints} (h : t.idx = u.idx) : t = u := by
  have ht := t.2.isLt
  have hu := u.2.isLt
  unfold ThreadId.idx blocksize at *
  refine Prod.ext (Fin.ext ?_) (Fin.ext ?_) <;> omega

theorem exists_idx {j : Nat} (hj : j < elements tpoints) : ∃ t : ThreadId tpoints, t.idx = j := by
  have hb : j / blocksize < gridsize tpoints := by
    rw [elements, Nat.mul_comm] at hj
    exact (Nat.div_lt_iff_lt_mul (by decide)).mpr hj
  refine ⟨(⟨j / blocksize, hb⟩, ⟨j % blocksize, Nat.mod_lt _ (by decide)⟩), ?_⟩
  exact Nat.div_add_mod' j blocksize

theorem tpoints_lt_elements : tpoints < elements tpoints := by
  unfold elements gridsize blocksize
  omega

theorem elements_le_iff : elements tpoints ≤ maxpoints + 1 ↔ tpoints ≤ 999423 := by
  unfold elements gridsize blocksize maxpoints
  omega

/-- What thread `t` works on: its element of the two arrays and its variables. -/
def Device.part (t : ThreadId tpoints) (d : Device tpoints) : Point × Thread :=
  (⟨d.oldvald t.idx, d.valuesd t.idx⟩, d.threads t)

/-- The next statement of the thread for index `idx`, as far as it goes. -/
def Thread.own (nsteps tpoints idx : Nat) (c : Point × Thread) : Point × Thread :=
  let (old, val, th) := Thread.step nsteps tpoints idx c.1.old c.1.val c.2
  (⟨old, val⟩, th)

/-- `kernelStep` where it is defined. -/
def Device.advance (nsteps : Nat) (d : Device tpoints) (t : ThreadId tpoints) : Device tpoints :=
  let c := Thread.own nsteps tpoints t.idx (d.part t)
  { d with
    oldvald := Function.update d.oldvald t.idx c.1.old
    valuesd := Function.update d.valuesd t.idx c.1.val
    threads := Function.update d.threads t c.2 }

theorem advance_own (nsteps : Nat) (d : Device tpoints) (t : ThreadId tpoints) :
    (d.advance nsteps t).part t = Thread.own nsteps tpoints t.idx (d.part t) := by
  simp only [Device.advance, Device.part, Function.update_self]

theorem advance_other (nsteps : Nat) (d : Device tpoints) {t u : ThreadId tpoints} (h : t ≠ u) :
    (d.advance nsteps t).part u = d.part u := by
  have hidx : u.idx ≠ t.idx := fun he => h (idx_injective he.symm)
  simp only [Device.advance, Device.part, Function.update_of_ne hidx, Function.update_of_ne h.symm]

theorem foldlM_kernelStep (nsteps : Nat) (schedule : List (ThreadId tpoints)) (d : Device tpoints)
    (hsize : d.size = elements tpoints) :
    schedule.foldlM (kernelStep nsteps) d = some (schedule.foldl (Device.advance nsteps) d) := by
  induction schedule generalizing d with
  | nil => rfl
  | cons t schedule ih =>
    have hstep : kernelStep nsteps d t = some (d.advance nsteps t) := if_pos (hsize ▸ idx_lt t)
    rw [List.foldlM_cons, hstep]
    exact ih (d.advance nsteps t) hsize

theorem own_turn {nsteps idx i : Nat} (hi : i ≤ nsteps) (p : Point) (w : ℚ) :
    ∃ w', (Thread.own nsteps tpoints idx)^[3] (p, ⟨i, .compute, w⟩) =
      (p.next tpoints idx, ⟨i + 1, .compute, w'⟩) := by
  refine ⟨(p.next tpoints idx).val, ?_⟩
  have hz : (0.0 : ℚ) = 0 := by norm_num
  simp only [Function.iterate_succ, Function.iterate_zero, Function.comp_apply,
    id, Thread.own, Thread.step, if_pos hi, Point.next, hz]

theorem own_turns {nsteps idx i n : Nat} (hn : i + n ≤ nsteps + 1) (p : Point) (w : ℚ) :
    ∃ w', (Thread.own nsteps tpoints idx)^[3 * n] (p, ⟨i, .compute, w⟩) =
      ((Point.next tpoints idx)^[n] p, ⟨i + n, .compute, w'⟩) := by
  induction n generalizing i p w with
  | zero => exact ⟨w, rfl⟩
  | succ n ih =>
    obtain ⟨w₁, h₁⟩ := own_turn (show i ≤ nsteps by omega) p w
    obtain ⟨w₂, h₂⟩ := ih (i := i + 1) (by omega) (p.next tpoints idx) w₁
    refine ⟨w₂, ?_⟩
    rw [Nat.mul_succ, Function.iterate_add_apply, h₁, h₂, Function.iterate_succ_apply,
      Nat.add_assoc, Nat.add_comm 1 n]

theorem own_done {nsteps idx : Nat} (p : Point) (th : Thread) (h : nsteps < th.i) (n : Nat) :
    (Thread.own nsteps tpoints idx)^[n] (p, th) = (p, th) := by
  apply Function.iterate_fixed
  simp only [Thread.own, Thread.step, if_neg (Nat.not_le.mpr h)]

theorem own_all (tpoints idx : Nat) {nsteps n : Nat} (hn : 3 * nsteps ≤ n) (p : Point) (w : ℚ) :
    ((Thread.own nsteps tpoints idx)^[n] (p, ⟨1, .compute, w⟩)).1 =
      (Point.next tpoints idx)^[nsteps] p := by
  obtain ⟨w', h⟩ := own_turns (show 1 + nsteps ≤ nsteps + 1 by omega) p w
  obtain ⟨m, rfl⟩ := Nat.exists_eq_add_of_le' hn
  rw [Function.iterate_add_apply, h, own_done _ _ (by simp)]

/-- The kernel advances every element of the device arrays once a time step,
in any order of the threads. -/
theorem kernel_point {nsteps : Nat} {schedule : List (ThreadId tpoints)}
    (hs : Finishes nsteps schedule) (d : Device tpoints) (hd : ∀ t, d.threads t = ⟨1, .compute, 0⟩)
    {j : Nat} (hj : j < elements tpoints) :
    (schedule.foldl (Device.advance nsteps) d).valuesd j =
      ((Point.next tpoints j)^[nsteps] ⟨d.oldvald j, d.valuesd j⟩).val := by
  obtain ⟨t, rfl⟩ := exists_idx hj
  have hstart : d.part t = (⟨d.oldvald t.idx, d.valuesd t.idx⟩, ⟨1, .compute, 0⟩) := by
    rw [Device.part, hd t]
  have hpart := foldl_interleave (advance_own nsteps) (fun d t u h => advance_other nsteps d h)
    schedule d t
  have hall := own_all tpoints t.idx (hs t) ⟨d.oldvald t.idx, d.valuesd t.idx⟩ 0
  rw [← hstart, ← hpart] at hall
  exact congrArg Point.val hall

theorem cudaMain_none {nsteps : Nat} (hn : ¬tpoints ≤ 999423) (schedule : List (ThreadId tpoints))
    (h : Host) :
    cudaMain tpoints nsteps schedule h = none := by
  have hcopy : copyToDevice (elements tpoints) h.oldval = none :=
    if_neg fun hle => hn (elements_le_iff.mp hle)
  simp only [cudaMain, hcopy]
  rfl

theorem cudaMain_some {nsteps : Nat} (hn : tpoints ≤ 999423) {schedule : List (ThreadId tpoints)}
    (hs : Finishes nsteps schedule) (h : Host) :
    ∃ h', cudaMain tpoints nsteps schedule h = some h' ∧ ∀ j < elements tpoints,
      h'.values j = ((Point.next tpoints j)^[nsteps] ⟨h.oldval j, h.values j⟩).val := by
  have hle := elements_le_iff.mpr hn
  have hrun := foldlM_kernelStep nsteps schedule ⟨elements tpoints, h.oldval,
    h.values, fun _ => ⟨1, .compute, 0⟩⟩ rfl
  have hpoint := fun j => @kernel_point tpoints nsteps schedule hs
    ⟨elements tpoints, h.oldval, h.values, fun _ => ⟨1, .compute, 0⟩⟩ (fun _ => rfl) j
  generalize schedule.foldl (Device.advance nsteps) _ = d at hrun hpoint
  refine ⟨⟨fun j => if j < elements tpoints then d.valuesd j else h.values j, h.oldval⟩, ?_, ?_⟩
  · simp only [cudaMain, copyToDevice, copyToHost, if_pos hle, Option.bind_eq_bind,
      Option.bind_some, hrun]
  · intro j hj
    dsimp only
    rw [if_pos hj]
    exact hpoint j hj

/-- The copies stay in the host arrays and the points of the string are those of the serial program
exactly if the number of points, rounded up to blocks, fits the arrays. Every thread has an element
of the device arrays. -/
theorem cudaWave_matches {nsteps : Nat} {schedule : List (ThreadId tpoints)}
    (hs : Finishes nsteps schedule) (h : Host) (newval : Nat → ℚ) :
    (∀ t : ThreadId tpoints, t.idx < elements tpoints) ∧
    ((∃ h', cudaMain tpoints nsteps schedule h = some h' ∧
      ∀ j, 1 ≤ j → j ≤ tpoints →
      h'.values j = (update nsteps tpoints ⟨h.values, h.oldval, newval⟩).values j) ↔
        tpoints ≤ 999423) := by
  refine ⟨idx_lt, ?_⟩
  constructor
  · intro ⟨h', hmain, _⟩
    by_contra hn
    rw [cudaMain_none hn] at hmain
    cases hmain
  · intro hn
    obtain ⟨h', hmain, hval⟩ := cudaMain_some hn hs h
    refine ⟨h', hmain, ?_⟩
    intro j h1 hj
    have hserial := update_point tpoints nsteps ⟨h.values, h.oldval, newval⟩ h1 hj
    rw [hval j (lt_of_le_of_lt hj tpoints_lt_elements)]
    exact (congrArg Point.val hserial).symm

/-- One thread after the other. -/
def inOrder (tpoints nsteps : Nat) : List (ThreadId tpoints) :=
  (List.finRange (gridsize tpoints) ×ˢ List.finRange blocksize).flatMap fun t =>
  List.replicate (3 * nsteps) t

theorem inOrder_finishes (nsteps : Nat) : Finishes nsteps (inOrder tpoints nsteps) := by
  intro t
  have hmem : t ∈ List.finRange (gridsize tpoints) ×ˢ List.finRange blocksize :=
    List.mem_product.mpr ⟨List.mem_finRange t.1, List.mem_finRange t.2⟩
  have hsub : (List.replicate (3 * nsteps) t).Sublist (inOrder tpoints nsteps) := by
    rw [inOrder, List.flatMap_def]
    exact List.sublist_flatten_of_mem (List.mem_map_of_mem hmem)
  calc 3 * nsteps = (List.replicate (3 * nsteps) t).count t := by rw [List.count_replicate_self]
    _ ≤ _ := hsub.count_le t

end Kernel

/-- A string of 1000 points over 10 time steps, one thread after the other. -/
theorem cudaWave_matches_inOrder : Accepted 1000 10 ∧ Finishes 10 (inOrder 1000 10) ∧
    ∀ (h : Host) (newval : Nat → ℚ), ∃ h', cudaMain 1000 10 (inOrder 1000 10) h = some h' ∧
      ∀ j, 1 ≤ j → j ≤ 1000 → h'.values j = (update 10 1000 ⟨h.values, h.oldval, newval⟩).values
        j := by
  have hs : Finishes 10 (inOrder 1000 10) := inOrder_finishes 10
  refine ⟨by decide, hs, ?_⟩
  intro h newval
  exact (cudaWave_matches hs h newval).2.mpr (by decide)

/-- With the greatest number of points, 1000448 elements are copied out of arrays of 1000001. -/
theorem cudaWave_overruns : Accepted 1000000 1 ∧ elements 1000000 = 1000448 ∧
    ∀ (h : Host) (schedule : List (ThreadId 1000000)), cudaMain 1000000 1 schedule h = none := by
  refine ⟨by decide, by decide, ?_⟩
  intro h schedule
  exact cudaMain_none (by decide) schedule h

end NctuCourses.Cuda
