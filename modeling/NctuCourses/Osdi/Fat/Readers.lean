import NctuCourses.Lib.Simulation
import NctuCourses.Osdi.Fat.File

namespace NctuCourses.Osdi.Fat

open NctuCourses.Lib
open NctuCourses.Osdi.Fs (FResult)

section

variable {g : Geometry} {v t : Fatfs} {l m : List Nat} {fp : Fil}

theorem InFile.apart {s : Nat} (hl : ∀ c ∈ l, g.Clust c) (hm : ∀ c ∈ m, g.Clust c)
    (h : ∀ c ∈ m, c ∉ l) (hs : InFile g m s) : ¬ InFile g l s := by
  rintro ⟨c, hc, hcs⟩
  obtain ⟨c', hc', hcs'⟩ := hs
  obtain rfl := sectOf_unique (hl c hc).1 (hm c' hc').1 hcs hcs'
  exact h c hc' hc

/-- An operation on one file leaves the others as they are, with their contents. -/
theorem FileOk.other (hg : g.Ok) (hf : FileOk g m fp v) (hl : ∀ c ∈ l, g.Clust c)
    (h : ∀ c ∈ m, c ∉ l) (ht : Touched g l v t) :
    FileOk g m fp t ∧ ∀ n, InFile g m n → fp.data t n = fp.data v n := by
  obtain ⟨hbuf, hdata⟩ := hf.frame hg ht.place
    (fun s hs => ht.view s (hs.outside hg).2.1 (hs.apart hl hf.clusts h)) fun c hc =>
    ht.entry_eq hg (hf.clusts c hc)
  exact ⟨{ hf with toFileBuf := hbuf }, hdata⟩

/-- All bytes of a file. -/
def Fil.contents (g : Geometry) (l : List Nat) (fp : Fil) (v : Fatfs) : List (BitVec 8) :=
  (List.range fp.objsize).map (fileByte g l (fp.data v))

theorem Fil.slice_eq (fp : Fil) (v : Fatfs) (n : Nat) :
    fp.slice g l v (min n (fp.objsize - fp.fptr)) =
    ((fp.contents g l v).drop fp.fptr).take n := by
  refine List.ext_getElem ?_ fun i _ _ => ?_
  · simp [Fil.slice, Fil.contents]
  · simp [Fil.slice, Fil.contents]

theorem FileOk.contents_eq (hg : g.Ok) (hf : FileOk g l fp v) {fp' : Fil}
    (hsize : fp'.objsize = fp.objsize) (h : ∀ n, InFile g l n → fp'.data t n = fp.data v n) :
    fp'.contents g l t = fp.contents g l v := by
  unfold Fil.contents
  rw [hsize]
  refine List.map_congr_left fun i hi => ?_
  rw [fileByte, fileByte, h _ (hf.inFile hg (List.mem_range.mp hi))]

end

variable {ι : Type} [DecidableEq ι]

/-- A call of `f_read`: the file, the contents of the buffer before the call, and
the number of bytes asked for. -/
structure ReadCall (ι : Type) where
  file : ι
  rbuff : Nat → BitVec 8
  btr : Nat

/-- `f_read` on one of several open files. -/
def readFrom (g : Geometry) (op : ReadCall ι) :
    StateM ((ι → Fil) × Fatfs) (FResult × List (BitVec 8)) := do
  let (fps, fs) ← get
  let (r, fp, fs) := ((fRead g op.rbuff op.btr).run (fps op.file, fs)).run
  set (Function.update fps op.file fp, fs)
  return r

/-- A file as its reader sees it. -/
structure Stream where
  contents : List (BitVec 8)
  pos : Nat

/-- The next bytes, up to the end of the file. -/
def Stream.Effect (op : ReadCall ι) (a : ι → Stream) (r : FResult × List (BitVec 8))
    (a' : ι → Stream) : Prop :=
  r = (.ok, ((a op.file).contents.drop (a op.file).pos).take op.btr) ∧
    a' = Function.update a op.file { a op.file with pos := (a op.file).pos + r.2.length }

/-- Files with clusters of their own, open for reading. -/
structure Opened (g : Geometry) (L : ι → List Nat) (fps : ι → Fil) (v : Fatfs) (a : ι → Stream) :
    Prop where
  win : WinOk g v
  file : ∀ i, FileOk g (L i) (fps i) v
  valid : ∀ i, (fps i).Valid g
  mode : ∀ i, (fps i).faRead = true
  apart : ∀ i j, i ≠ j → ∀ c ∈ L i, c ∉ L j
  stream : ∀ i, a i = ⟨(fps i).contents g (L i) v, (fps i).fptr⟩

section

variable {g : Geometry} {L : ι → List Nat} {fps : ι → Fil} {v : Fatfs} {a : ι → Stream}

theorem Opened.after (hg : g.Ok) (h : Opened g L fps v a) {i : ι} {n : Nat}
    {r : FResult × List (BitVec 8)} {fp : Fil} {t : Fatfs}
    (hr : FileRead g (L i) (fps i) v n r (fp, t)) :
    Opened g L (Function.update fps i fp) t
      (Function.update a i { a i with pos := (a i).pos + n }) := by
  have hother : ∀ j ≠ i, FileOk g (L j) (fps j) t ∧ ∀ n, InFile g (L j) n →
      (fps j).data t n = (fps j).data v n :=
    fun j hj => (h.file j).other hg (h.file i).clusts (h.apart j i hj) hr.touched
  have hcont : fp.objsize = (fps i).objsize → fp.contents g (L i) t = (fps i).contents g (L i) v :=
    fun hsize => (h.file i).contents_eq hg hsize hr.data
  have hok := hr.ok
  obtain ⟨c, sect, b, d, rfl⟩ := hr.same
  refine ⟨hr.win, ?_, ?_, ?_, h.apart, ?_⟩
  · exact (Function.forall_update_iff fps fun j fp => FileOk g (L j) fp t).mpr
      ⟨hok, fun j hj => (hother j hj).1⟩
  · exact (Function.forall_update_iff fps fun _ fp => fp.Valid g).mpr
      ⟨⟨(h.valid i).fs, (h.valid i).id, (h.valid i).err⟩, fun j _ => h.valid j⟩
  · exact (Function.forall_update_iff fps fun _ fp => fp.faRead = true).mpr
      ⟨h.mode i, fun j _ => h.mode j⟩
  · refine forall_update_both (p := fun j (x : Stream) (fp : Fil) =>
      x = ⟨fp.contents g (L j) t, fp.fptr⟩) ?_
      fun j hj => ?_
    · rw [hcont rfl, h.stream i]
    · rw [h.stream j, (h.file j).contents_eq hg rfl (hother j hj).2]

/-- Reads of less than two sectors, or from clusters of one sector: `f_read` asks the driver for one
sector at a time, and the driver moves one. -/
def ReadCall.Single (g : Geometry) (op : ReadCall ι) : Prop := g.csize = 1 ∨ op.btr < 1024

theorem readFrom_spec (hg : g.Ok) (h : Opened g L fps v a) {op : ReadCall ι} (hop : op.Single g) :
    Post (readFrom g op) (fps, v) fun r s => ∃ a', Stream.Effect op a r a' ∧
    Opened g L s.1 s.2 a' := by
  obtain ⟨i, rbuff, btr⟩ := op
  have hread := fRead_spec hg h.win (h.file i) (h.valid i) (h.mode i) hop rbuff
  unfold readFrom
  rw [post_bind, post_get]
  unfold Post at hread
  dsimp only at hread ⊢
  generalize ((fRead g rbuff btr).run (fps i, v)).run = out at hread ⊢
  obtain ⟨r, fp, t⟩ := out
  have hr : r = _ := hread.result
  rw [post_bind, post_set, post_pure]
  have hlen : r.2.length = min btr ((fps i).objsize - (fps i).fptr) := by
    rw [hr]
    simp [Fil.slice]
  refine ⟨_, ⟨?_, rfl⟩, ?_⟩
  · rw [hr, h.stream i, Fil.slice_eq]
  · dsimp only
    rw [hlen]
    exact h.after hg hread

/-- Reads from several files in any order: each one returns the next bytes of its
own file, up to the end of it. -/
theorem read_runs (hg : g.Ok) (h : Opened g L fps v a) {ops : List (ReadCall ι)}
    (hops : ∀ op ∈ ops, op.Single g) :
    Post (ops.mapM (readFrom g)) (fps, v) fun rs s => ∃ a', Runs Stream.Effect a ops rs a' ∧
    Opened g L s.1 s.2 a' :=
  Post.runs (I := fun (s : (ι → Fil) × Fatfs) a => Opened g L s.1 s.2 a)
    (fun op hop _ _ h => readFrom_spec hg h (hops op hop)) h

end

/-- The file of the small volume, just opened. -/
def smallFile : Fil where
  fs := true
  id := 1
  sclust := 2
  objsize := 300
  faRead := true
  faDirty := false
  err := .ok
  fptr := 0
  clust := 0
  sect := 0
  buf := fun _ => 0

theorem smallFile_opened : Opened small (fun _ : Unit => [2]) (fun _ => smallFile) mounted
    (fun _ => ⟨smallFile.contents small [2] mounted, 0⟩) where
  win := mounted_ok
  file _ :=
    { chain := mounted_chain
      away := by simp [InFile, sectOf, small, mounted, allOnes]
      cached := .inl ⟨rfl, rfl⟩
      clean := fun _ h => absurd rfl h
      size := by decide
      limit := by decide
      ptr := by decide
      clust := fun h => absurd h (by decide)
      here := fun h => absurd rfl h }
  valid _ := ⟨rfl, rfl, rfl⟩
  mode _ := rfl
  apart _ _ h := absurd rfl h
  stream _ := rfl

/-- The file is read in two pieces, of which the second one is cut off at its end. -/
def smallReads : List (ReadCall Unit) := [⟨(), fun _ => 0, 200⟩, ⟨(), fun _ => 0, 200⟩]

theorem read_runs_mounted :
    Post (smallReads.mapM (readFrom small)) (fun _ => smallFile, mounted) fun rs s => ∃ a',
      Runs Stream.Effect (fun _ => ⟨smallFile.contents small [2] mounted, 0⟩) smallReads rs a' ∧
        Opened small (fun _ => [2]) s.1 s.2 a' :=
  read_runs small_ok smallFile_opened fun _ _ => .inl rfl

end NctuCourses.Osdi.Fat
