import NctuCourses.Lib.Run
import NctuCourses.Sdb.Text

namespace NctuCourses.Sdb

open NctuCourses.Lib

/-- What the debugger knows about the file and its breakpoints. -/
structure Recorded {R : Type} (path : Path) (F : File) (pg : Program R) : Prop where
  name : pg.name = path
  elfentry : pg.elfentry = F.elfentry
  elftext : pg.elftext = F.elftext
  elftextoff : pg.elftextoff = F.elftextoff
  textSize : pg.textSize = F.textSize
  nodup : (pg.breakpoints.map (·.addr)).Nodup
  points : ∀ b ∈ pg.breakpoints, F.InText b.addr ∧ b.origCode = F.byte b.addr

/-- The code of the tracee is that of the process as it was started, with `0xcc` at the breakpoints
once the program is running. -/
structure Inv {R : Type} (E : Env R) (path : Path) (F : File) (pg : Program R) : Prop
    extends Recorded path F pg where
  maps : pg.stat ≠ .unloaded →
    getTextStartInMemory path none (E.spawn (pg.loads - 1)).maps = some pg.vmtext
  fresh : pg.stat = .intermediate → pg.tracee = pg.origin E
  mem : pg.stat = .running → pg.tracee.mem = patched (pg.origin E).mem pg.vmPoints

/-- Every breakpoint is in place with the byte of the file kept, and the rest of
`.text` is that of the file. -/
structure Patched {R : Type} (F : File) (pg : Program R) : Prop where
  points : ∀ b ∈ pg.breakpoints, pg.tracee.mem (F.vmAddr pg.vmtext b.addr) = some 0xcc#8 ∧
    b.origCode = F.byte b.addr
  rest : ∀ a, F.InText a → a ∉ pg.breakpoints.map (·.addr) →
    pg.tracee.mem (F.vmAddr pg.vmtext a) = some (F.byte a)

section Lists

theorem breakPointExist_eq_zero {bs : List BreakPoint} {id : Int} {addr : Addr} :
    breakPointExist bs id addr = 0 ↔ ∀ b ∈ bs, b.id ≠ id ∧ b.addr ≠ addr := by
  induction bs with
  | nil => simp [breakPointExist]
  | cons b bs ih =>
    rw [breakPointExist]
    split_ifs with h1 h2
    · simp [h1]
    · simp [h2]
    · simp [h1, h2, ih]

theorem deleteBreakPoint_some {bs rest : List BreakPoint} {id : Int} {b : BreakPoint}
    (h : deleteBreakPoint bs id = some (b, rest)) :
    b.id = id ∧ ∃ l₁ l₂, bs = l₁ ++ b :: l₂ ∧ rest = l₁ ++ l₂ := by
  induction bs generalizing rest with
  | nil => simp [deleteBreakPoint] at h
  | cons c bs ih =>
    rw [deleteBreakPoint] at h
    split_ifs at h with h1
    · obtain ⟨rfl, rfl⟩ := Prod.mk.inj (Option.some.inj h)
      exact ⟨h1, [], _, rfl, rfl⟩
    · obtain ⟨⟨b', rest'⟩, hd, he⟩ := Option.map_eq_some_iff.mp h
      obtain ⟨rfl, rfl⟩ := Prod.mk.inj he
      obtain ⟨hid, l₁, l₂, rfl, rfl⟩ := ih hd
      exact ⟨hid, c :: l₁, l₂, rfl, rfl⟩

theorem nodup_addr_middle {b : BreakPoint} {l₁ l₂ : List BreakPoint}
    (h : ((l₁ ++ b :: l₂).map (·.addr)).Nodup) : (b.addr :: (l₁ ++ l₂).map (·.addr)).Nodup := by
  rw [List.map_append, List.map_cons] at h
  rw [List.map_append]
  exact List.nodup_middle.mp h

theorem deleteBreakPoint_none {bs : List BreakPoint} {id : Int} :
    deleteBreakPoint bs id = none ↔ ∀ b ∈ bs, b.id ≠ id := by
  induction bs with
  | nil => simp [deleteBreakPoint]
  | cons b bs ih =>
    rw [deleteBreakPoint]
    by_cases h : b.id = id
    · simp [h]
    · simp [h, ih]

end Lists

namespace Program

variable {R : Type}

theorem isRunning_iff {pg : Program R} : pg.isRunning = true ↔ pg.stat = .running := by
  simp [isRunning]

/-- The state with one breakpoint more. -/
def withPoint (pg : Program R) (b : BreakPoint) : Program R :=
  { pg with breakpoints := pg.breakpoints ++ [b] }

/-- `Break` has made a breakpoint of address `a` of the file, which holds `codes`. -/
structure MadePoint (pg : Program R) (id : Int) (a : Addr) (codes : List Byte) (pg' : Program R) :
    Prop where
  low : pg.elftext ≤ a
  high : a < pg.elftext + pg.textSize
  listed : ∃ i ∈ pg.instructions, i.rip = a
  peek : peekText pg.tracee.mem (pg.vm a) = some codes
  new : ∀ b ∈ pg.breakpoints, b.id ≠ id ∧ b.addr ≠ a
  result : pg' = if pg.stat = .running then
      (pg.withPoint ⟨id, a, codes.headD 0#8⟩).setMem
        (Function.update pg.tracee.mem (pg.vm a) (some 0xcc#8))
    else pg.withPoint ⟨id, a, codes.headD 0#8⟩

theorem breakAt_cases {pg pg' : Program R} {id : Int} {addr a : Addr} {r : Int}
    (h : pg.breakAt id addr (pg.vm a) a = (r, pg')) :
    (∃ ls, pg' = pg.print ls) ∨ ∃ codes, pg.MadePoint id a codes pg' := by
  rw [breakAt] at h
  by_cases h1 : a < pg.elftext ∨ pg.elftext + pg.textSize ≤ a
  · rw [if_pos h1] at h
    exact .inl ⟨_, (Prod.mk.inj h).2.symm⟩
  rw [if_neg h1] at h
  by_cases h2 : pg.instructions.all (fun i => i.rip != a) = true
  · rw [if_pos h2] at h
    exact .inl ⟨_, (Prod.mk.inj h).2.symm⟩
  rw [if_neg h2] at h
  cases hp : peekText pg.tracee.mem (pg.vm a) with
  | none =>
    rw [hp] at h
    exact .inl ⟨_, (Prod.mk.inj h).2.symm⟩
  | some codes =>
    simp only [hp, addBreakPoint] at h
    by_cases hex : breakPointExist pg.breakpoints id a = 0
    · right
      obtain ⟨hlow, hhigh⟩ := not_or.mp h1
      refine ⟨codes, BitVec.not_lt.mp hlow, BitVec.not_le.mp hhigh, by simpa using h2, hp,
        breakPointExist_eq_zero.mp hex, ?_⟩
      simp only [hex, ne_eq, not_true_eq_false, if_false] at h
      rw [pokeText_peekText hp] at h
      by_cases hrun : pg.stat = .running
      · rw [if_pos (isRunning_iff.mpr hrun)] at h
        rw [if_pos hrun]
        exact (Prod.mk.inj h).2.symm
      · rw [if_neg fun e => hrun (isRunning_iff.mp e)] at h
        rw [if_neg hrun]
        exact (Prod.mk.inj h).2.symm
    · rw [if_pos hex] at h
      split at h
      · rename_i heq
        exact absurd (Prod.mk.inj heq).1 hex
      · exact .inl ⟨_, (Prod.mk.inj h).2.symm⟩

/-- The address of the file that is meant by address `addr` of a `Break`. -/
def fileAddr (pg : Program R) (addr : Addr) : Addr :=
  if pg.isRunning then vmToElf addr pg.elftext pg.elftextoff pg.vmtext else addr

/-- The two ways in which `Break` ends: it has printed something, or
there is one breakpoint more. -/
theorem break_cases {pg pg' : Program R} {id : Int} {addr : Addr} {r : Int}
    (h : pg.break_ id addr = (r, pg')) :
    (∃ ls, pg' = pg.print ls) ∨
      pg.stat ≠ .unloaded ∧ ∃ a codes, a = pg.fileAddr addr ∧ pg.MadePoint id a codes pg' := by
  rw [break_] at h
  by_cases hl : pg.stat = .unloaded
  · rw [if_pos (by simp [isLoaded, hl])] at h
    exact .inl ⟨_, (Prod.mk.inj h).2.symm⟩
  rw [if_neg (by simp [isLoaded, hl])] at h
  have hat : pg.breakAt id addr (pg.vm (pg.fileAddr addr)) (pg.fileAddr addr) = (r, pg') := by
    rw [fileAddr]
    split_ifs at h ⊢
    · rw [vm, elfToVm_vmToElf]
      exact h
    · exact h
  rcases breakAt_cases hat with hp | ⟨codes, hc⟩
  · exact .inl hp
  · exact .inr ⟨hl, _, codes, rfl, hc⟩

/-- The two ways in which `Delete` ends: nothing has that number, or one breakpoint is gone, and a
program that is running has its byte back at the address in the file. -/
theorem delete_cases {pg pg' : Program R} {id : Int} {r : Int}
    (h : pg.delete id = some (r, pg')) :
    (∃ ls, pg' = pg.print ls) ∨
      ∃ b l₁ l₂, b.id = id ∧ pg.breakpoints = l₁ ++ b :: l₂ ∧
        pg' = setMem ({ pg with breakpoints := l₁ ++ l₂ }.print [.deleted id])
          (if pg.stat = .running then Function.update pg.tracee.mem b.addr (some b.origCode)
            else pg.tracee.mem) := by
  rw [delete] at h
  cases he : deleteBreakPoint pg.breakpoints id with
  | none =>
    rw [he] at h
    exact .inl ⟨_, (Prod.mk.inj (Option.some.inj h)).2.symm⟩
  | some p =>
    obtain ⟨b, rest⟩ := p
    obtain ⟨hid, l₁, l₂, hbs, rfl⟩ := deleteBreakPoint_some he
    refine .inr ⟨b, l₁, l₂, hid, hbs, ?_⟩
    simp only [he] at h
    by_cases hr : pg.stat = .running
    · rw [if_pos (by simp [isRunning, print, hr])] at h
      obtain ⟨pg₁, hp, heq⟩ := Option.map_eq_some_iff.mp h
      obtain ⟨_, rfl⟩ := Prod.mk.inj heq
      rw [if_pos hr, patchCode_eq hp]
      rfl
    · rw [if_neg (by simp [isRunning, print, hr])] at h
      rw [if_neg hr, ← (Prod.mk.inj (Option.some.inj h)).2]
      rfl

/-- The two ways in which `Load` ends for a program that is not loaded. -/
theorem load_cases {E : Env R} {path : Path} {pg pg' : Program R} {r : Int}
    (hs : pg.stat = .unloaded) (h : pg.load E path = some (r, pg')) :
    (r = -1 ∧ ∃ ls, pg' = pg.print ls) ∨
      r = 0 ∧ ∃ e vmtext is ls, getTextStartInMemory path none (E.spawn pg.loads).maps =
        some vmtext ∧
        E.elf path = some e ∧ pg' = { ({ pg with
            name := path, stat := .intermediate, tracee := (E.spawn pg.loads).tracee,
            loads := pg.loads + 1, vmtext := vmtext } : Program R).readElf e with
          instructions := is, out := ls } := by
  rw [load, if_neg (by simp [isLoaded, hs])] at h
  split_ifs at h
  · obtain ⟨rfl, rfl⟩ := Prod.mk.inj (Option.some.inj h)
    exact .inl ⟨rfl, _, rfl⟩
  · simp only [Option.bind_eq_bind, Option.bind_eq_some_iff] at h
    obtain ⟨vmtext, hvm, e, he, pg₁, hl, h⟩ := h
    obtain ⟨rfl, rfl⟩ := Prod.mk.inj (Option.some.inj h)
    refine .inr ⟨rfl, e, vmtext, ?_⟩
    rw [loadInstructions] at hl
    split_ifs at hl
    · simp only [Option.bind_eq_bind, Option.bind_eq_some_iff] at hl
      obtain ⟨codes, _, hl⟩ := hl
      obtain rfl := Option.some.inj hl
      exact ⟨_, _, hvm, he, rfl⟩
    · obtain rfl := Option.some.inj hl
      exact ⟨_, _, hvm, he, rfl⟩

theorem printHit_eq (pg : Program R) : ∃ ls, pg.printHit = pg.print ls := by
  rw [printHit]
  split
  · exact ⟨[], by simp [print]⟩
  · exact ⟨_, rfl⟩

/-- `Start` only prints something, or it puts the breakpoints into a
program that has not run yet. -/
theorem start_cases {pg pg' : Program R} {r : Int} (h : pg.start = some (r, pg')) :
    (∃ ls, pg' = pg.print ls) ∨
      pg.stat = .intermediate ∧ (print { pg with stat := .running } [.pid]).setBreakPoints =
        some pg' := by
  rw [start] at h
  split_ifs at h with h1 h2
  · exact .inl ⟨_, (Prod.mk.inj (Option.some.inj h)).2.symm⟩
  · exact .inl ⟨_, (Prod.mk.inj (Option.some.inj h)).2.symm⟩
  · obtain ⟨pg₁, hp, he⟩ := Option.map_eq_some_iff.mp h
    obtain ⟨_, rfl⟩ := Prod.mk.inj he
    refine .inr ⟨?_, hp⟩
    cases hst : pg.stat with
    | unloaded => simp [isLoaded, hst] at h1
    | intermediate => rfl
    | running => simp [isRunning, hst] at h2

/-- The state with `rip` on the breakpoint that was hit and some byte in its place. -/
def stepBack (pg : Program R) (v : Option Byte) : Program R :=
  { pg with tracee := { pg.tracee with
      rip := pg.tracee.rip - 1
      mem := Function.update pg.tracee.mem (pg.tracee.rip - 1) v } }

theorem hitPoint_some {pg : Program R} {b : BreakPoint} (h : pg.hitPoint = some b) :
    b ∈ pg.breakpoints ∧ pg.vm b.addr = pg.tracee.rip - 1 := by
  have he : b.addr = vmToElf (pg.tracee.rip - 1) pg.elftext pg.elftextoff pg.vmtext := by
    simpa using List.find?_some h
  refine ⟨List.mem_of_find?_eq_some h, ?_⟩
  rw [vm, he, elfToVm_vmToElf]

theorem hitPoint_none {pg : Program R} (h : pg.hitPoint = none) :
    pg.tracee.rip - 1 ∉ pg.vmPoints := by
  intro hmem
  obtain ⟨b, hb, he⟩ := List.mem_map.mp hmem
  have := List.find?_eq_none.mp h b hb
  rw [← he, vm, vmToElf_elfToVm] at this
  simp at this

/-- The two ways in which `Cont` and `Si` begin. -/
theorem beforeResume_cases {pg pg' : Program R} {rip : Option Addr}
    (h : pg.beforeResume = some (rip, pg')) :
    (pg.hitPoint = none ∧ rip = none ∧ pg' = pg) ∨
      ∃ b v, pg.hitPoint = some b ∧ rip = some (pg.vm b.addr) ∧ pg' = pg.stepBack v ∧
        (pg.elfentry = pg.elftext → v = some b.origCode) ∧
        (v = pg.tracee.mem (pg.tracee.rip - 1) ∨ v.isSome) := by
  rw [beforeResume] at h
  cases hp : pg.hitPoint with
  | none =>
    rw [if_neg (by simp [checkIfHit, hp])] at h
    obtain ⟨rfl, rfl⟩ := Prod.mk.inj (Option.some.inj h)
    exact .inl ⟨rfl, rfl, rfl⟩
  | some b =>
    rw [if_pos (by simp [checkIfHit, hp])] at h
    obtain ⟨⟨a, pg₁⟩, hr, he⟩ := Option.map_eq_some_iff.mp h
    obtain ⟨rfl, rfl⟩ := Prod.mk.inj he
    have hvm := (hitPoint_some hp).2
    rw [restoreRipAndCode] at hr
    dsimp only at hr
    split at hr
    · rename_i hf
      obtain ⟨rfl, rfl⟩ := Prod.mk.inj (Option.some.inj hr)
      refine .inr ⟨b, pg.tracee.mem (pg.tracee.rip - 1), rfl,
        by rw [hvm], ?_, fun heq => ?_, .inl rfl⟩
      · rw [stepBack, Function.update_eq_self]
      · rw [heq] at hf
        rw [hitPoint, hf] at hp
        simp at hp
    · rename_i b' hf
      obtain ⟨pg₂, hpatch, he⟩ := Option.map_eq_some_iff.mp hr
      obtain ⟨rfl, rfl⟩ := Prod.mk.inj he
      refine .inr ⟨b, some b'.origCode, rfl,
        by rw [hvm], patchCode_eq hpatch, fun heq => ?_, .inr rfl⟩
      rw [heq] at hf
      rw [hitPoint, hf] at hp
      rw [Option.some.inj hp]

end Program

namespace Inv

variable {R : Type} {E : Env R} {path : Path} {F : File} {pg pg' : Program R}

theorem print (h : Inv E path F pg) (ls : List Line) : Inv E path F (pg.print ls) :=
  ⟨⟨h.name, h.elfentry, h.elftext, h.elftextoff, h.textSize, h.nodup, h.points⟩,
    h.maps, h.fresh, h.mem⟩

theorem vm_eq (h : Inv E path F pg) (hF : Loadable E path F) (hl : pg.stat ≠ .unloaded) (a : Addr) :
    pg.vm a = F.vmAddr pg.vmtext a := by
  have hmode := hF.mode _ _ (h.maps hl)
  rw [Program.vm, elfToVm, h.elftext, h.elftextoff, File.vmAddr]
  cases hp : F.pie with
  | false => rw [if_pos (hmode.mpr hp), if_neg Bool.false_ne_true]
  | true =>
    rw [if_neg fun e => by simp [hmode.mp e] at hp, if_pos rfl]

theorem origin_byte (h : Inv E path F pg) (hF : Loadable E path F) (hl : pg.stat ≠ .unloaded)
    {a : Addr} (ha : F.InText a) : (pg.origin E).mem (pg.vm a) = some (F.byte a) := by
  rw [h.vm_eq hF hl]
  exact hF.code _ _ (h.maps hl) a ha

theorem patched (h : Inv E path F pg) (hF : Loadable E path F) (hr : pg.stat = .running) :
    Patched F pg := by
  have hl : pg.stat ≠ .unloaded := by simp [hr]
  constructor
  · intro b hb
    refine ⟨?_, (h.points b hb).2⟩
    rw [← h.vm_eq hF hl, h.mem hr, Sdb.patched]
    exact if_pos (List.mem_map_of_mem hb)
  · intro a ha hn
    rw [← h.vm_eq hF hl, h.mem hr, Sdb.patched, if_neg fun hm => hn (Program.mem_vmPoints.mp hm)]
    exact h.origin_byte hF hl ha

theorem load (hF : Loadable E path F) (hs : pg.stat = .unloaded)
    (hnd : (pg.breakpoints.map (·.addr)).Nodup)
    (hpts : ∀ b ∈ pg.breakpoints, F.InText b.addr ∧ b.origCode = F.byte b.addr)
    (h : pg.load E path = some (0, pg')) : Inv E path F pg' := by
  obtain ⟨e, s, he, hsec, h1, h2, h3, h4⟩ := hF.elf
  rcases Program.load_cases hs h with ⟨hneg, _⟩ | ⟨_, e', vmtext, is, ls, hvm, he', rfl⟩
  · simp at hneg
  obtain rfl := Option.some.inj (he.symm.trans he')
  simp only [Program.readElf, hsec]
  exact ⟨⟨rfl, h1, h2, h3, h4, hnd, hpts⟩, fun _ => hvm, fun _ => rfl, fun hr => by simp at hr⟩

theorem childExit (h : Recorded path F pg) (hF : Loadable E path F)
    (hc : pg.childExit E = some pg') :
    Inv E path F pg' := by
  obtain rfl := h.name
  rw [Program.childExit] at hc
  obtain ⟨⟨r, pg₁⟩, hl, rfl⟩ := Option.map_eq_some_iff.mp hc
  have hi : Inv E pg.name F (Program.print
      { pg with stat := .unloaded, gone := pg.gone ++ [pg.tracee] } [.terminated, .reload]) :=
    ⟨⟨rfl, h.elfentry, h.elftext, h.elftextoff, h.textSize, h.nodup, h.points⟩,
      fun hn => absurd rfl hn, fun hi => by simp [Program.print] at hi, fun hi => by
      simp [Program.print] at hi⟩
  rcases Program.load_cases rfl hl with ⟨_, ls, rfl⟩ | ⟨rfl, _⟩
  · exact hi.print ls
  · exact load hF rfl hi.nodup hi.points hl

theorem withTracee (h : Inv E path F pg) (hr : pg.stat = .running) {T : Tracee R}
    (hT : T.mem = pg.tracee.mem) : Inv E path F { pg with tracee := T } :=
  ⟨⟨h.name, h.elfentry, h.elftext, h.elftextoff, h.textSize, h.nodup, h.points⟩, h.maps,
    fun hi => by simp [hr] at hi, fun hr => hT.trans (h.mem hr)⟩

/-- From the moment at which the tracee is resumed to the end of the command. -/
theorem resume (h : Inv E path F pg) (hF : Loadable E path F) (hr : pg.stat = .running)
    {rip : Option Addr} {pg₁ : Program R}
    (hb : (rip = none ∧ pg₁ = pg) ∨
      ∃ b v, pg.hitPoint = some b ∧ rip = some (pg.vm b.addr) ∧ pg₁ = pg.stepBack v)
    {w : Wait R} (hw : w.tracee.mem = pg₁.tracee.mem) {r : Int}
    (ha : pg₁.afterWait E rip w = some (.done r pg')) : Inv E path F pg' := by
  cases w with
  | going T =>
    simp only [Program.afterWait] at ha
    cases ha
  | exited T =>
    obtain ⟨pg₂, hc, he⟩ := Option.map_eq_some_iff.mp ha
    obtain ⟨_, rfl⟩ : 0 = r ∧ pg₂ = pg' := by simpa using he
    have hrec : Recorded path F { pg₁ with tracee := T } := by
      rcases hb with ⟨_, rfl⟩ | ⟨_, _, _, _, rfl⟩
      · exact ⟨h.name, h.elfentry, h.elftext, h.elftextoff, h.textSize, h.nodup, h.points⟩
      · exact ⟨h.name, h.elfentry, h.elftext, h.elftextoff, h.textSize, h.nodup, h.points⟩
    exact childExit hrec hF hc
  | stopped T =>
    obtain ⟨pg₂, hp, he⟩ := Option.map_eq_some_iff.mp ha
    obtain ⟨_, rfl⟩ : 0 = r ∧ pg₂.printHit = pg' := by simpa using he
    obtain ⟨ls, hls⟩ := pg₂.printHit_eq
    rw [hls]
    refine print ?_ ls
    rcases hb with ⟨rfl, rfl⟩ | ⟨b, v, hit, rfl, rfl⟩
    · obtain rfl := Option.some.inj hp
      exact h.withTracee hr hw
    · -- The byte that was put back is `0xcc` again.
      obtain ⟨hmem, hvm⟩ := Program.hitPoint_some hit
      obtain rfl := Program.patchCode_eq hp
      refine h.withTracee hr ?_
      have hT : T.mem = Function.update pg.tracee.mem (pg.tracee.rip - 1) v := hw
      change Function.update T.mem (pg.vm b.addr) (some 0xcc#8) = pg.tracee.mem
      rw [hT, hvm, h.mem hr]
      exact repatch (hvm ▸ List.mem_map_of_mem hmem) v

theorem resumed (h : Inv E path F pg) (hF : Loadable E path F) (hr : pg.stat = .running)
    {rip : Option Addr} {pg₁ : Program R} (hb : pg.beforeResume = some (rip, pg₁)) {w : Wait R}
    (hw : w.tracee.mem = pg₁.tracee.mem) {r : Int}
    (ha : pg₁.afterWait E rip w = some (.done r pg')) :
    Inv E path F pg' := by
  refine h.resume hF hr ?_ hw ha
  rcases Program.beforeResume_cases hb with ⟨_, h1, h2⟩ | ⟨b, v, h1, h2, h3, _⟩
  · exact .inl ⟨h1, h2⟩
  · exact .inr ⟨b, v, h1, h2, h3⟩

theorem cont (h : Inv E path F pg) (hF : Loadable E path F) {fuel : Nat} {r : Int}
    (hc : pg.cont E fuel = some (.done r pg')) : Inv E path F pg' := by
  rw [Program.cont] at hc
  by_cases hr : pg.stat = .running
  · rw [if_neg (by simp [Program.isRunning, hr])] at hc
    simp only [Option.bind_eq_bind, Option.bind_eq_some_iff] at hc
    obtain ⟨⟨rip, pg₁⟩, hb, ha⟩ := hc
    exact h.resumed hF hr hb (E.cpu.cont_mem fuel _) ha
  · rw [if_pos (by simp [Program.isRunning, hr])] at hc
    obtain ⟨_, rfl⟩ : -1 = r ∧ pg.print _ = pg' := by simpa using hc
    exact h.print _

theorem si (h : Inv E path F pg) (hF : Loadable E path F) {r : Int}
    (hc : pg.si E = some (.done r pg')) : Inv E path F pg' := by
  rw [Program.si] at hc
  by_cases hr : pg.stat = .running
  · rw [if_neg (by simp [Program.isRunning, hr])] at hc
    simp only [Option.bind_eq_bind, Option.bind_eq_some_iff] at hc
    obtain ⟨⟨rip, pg₁⟩, hb, ha⟩ := hc
    exact h.resumed hF hr hb (E.cpu.singleStep_mem _) ha
  · rw [if_pos (by simp [Program.isRunning, hr])] at hc
    obtain ⟨_, rfl⟩ : -1 = r ∧ pg.print _ = pg' := by simpa using hc
    exact h.print _

theorem setBreakPoints (h : Inv E path F pg) (hi : pg.stat = .intermediate)
    (hs : (Program.print { pg with stat := .running } [.pid]).setBreakPoints = some pg') :
    Inv E path F pg' ∧ pg'.stat = .running := by
  obtain rfl := Program.setBreakPoints_eq hs
  refine ⟨⟨⟨h.name, h.elfentry, h.elftext, h.elftextoff, h.textSize, h.nodup, h.points⟩,
    fun _ => h.maps (by simp [hi]), fun hi => by simp [Program.setMem, Program.print] at hi,
    fun _ => ?_⟩, rfl⟩
  change Sdb.patched pg.tracee.mem pg.vmPoints = Sdb.patched (pg.origin E).mem pg.vmPoints
  rw [h.fresh hi]

theorem start (h : Inv E path F pg) {r : Int} (hs : pg.start = some (r, pg')) :
    Inv E path F pg' := by
  rcases Program.start_cases hs with ⟨ls, rfl⟩ | ⟨hi, hp⟩
  · exact h.print ls
  · exact (h.setBreakPoints hi hp).1

theorem run (h : Inv E path F pg) (hF : Loadable E path F) {fuel : Nat} {r : Int}
    (hc : pg.run E fuel = some (.done r pg')) : Inv E path F pg' := by
  rw [Program.run] at hc
  cases hst : pg.stat with
  | unloaded =>
    rw [if_pos (by simp [Program.isLoaded, hst])] at hc
    obtain ⟨_, rfl⟩ : -1 = r ∧ pg.print _ = pg' := by simpa using hc
    exact h.print _
  | running =>
    rw [if_neg (by simp [Program.isLoaded, hst]), if_pos (by simp [Program.isRunning, hst])] at hc
    exact (h.print _).cont hF hc
  | intermediate =>
    rw [if_neg (by simp [Program.isLoaded, hst]), if_neg (by simp [Program.isRunning, hst])] at hc
    simp only [Option.bind_eq_bind, Option.bind_eq_some_iff] at hc
    obtain ⟨pg₁, hs, ha⟩ := hc
    obtain ⟨h1, hr⟩ := h.setBreakPoints hst hs
    exact h1.resume hF hr (.inl ⟨rfl, rfl⟩) (E.cpu.cont_mem fuel _) ha

theorem byte_eq (h : Inv E path F pg) (hF : Loadable E path F) (hl : pg.stat ≠ .unloaded) {a : Addr}
    (ha : F.InText a) (hn : a ∉ pg.breakpoints.map (·.addr)) :
    pg.tracee.mem (pg.vm a) = some (F.byte a) := by
  rw [← h.origin_byte hF hl ha]
  cases hst : pg.stat with
  | unloaded => exact absurd hst hl
  | intermediate => rw [h.fresh hst]
  | running =>
    rw [h.mem hst, Sdb.patched, if_neg fun hm => hn (Program.mem_vmPoints.mp hm)]

theorem withPoint (h : Inv E path F pg) {b : BreakPoint} (ha : F.InText b.addr)
    (hcode : b.origCode = F.byte b.addr) (hn : b.addr ∉ pg.breakpoints.map (·.addr)) :
    Inv E path F (if pg.stat = .running then
        (pg.withPoint b).setMem (Function.update pg.tracee.mem (pg.vm b.addr) (some 0xcc#8))
      else pg.withPoint b) := by
  have hnd : ((pg.breakpoints ++ [b]).map (·.addr)).Nodup := by
    rw [List.map_append, List.nodup_append]
    refine ⟨h.nodup, by simp, fun x hx y hy e => hn ?_⟩
    obtain rfl : y = b.addr := by simpa using hy
    rwa [← e]
  have hpts : ∀ c ∈ pg.breakpoints ++ [b], F.InText c.addr ∧ c.origCode = F.byte c.addr := by
    intro c hc
    rcases List.mem_append.mp hc with hc | hc
    · exact h.points c hc
    · obtain rfl : c = b := by simpa using hc
      exact ⟨ha, hcode⟩
  split_ifs with hr
  · refine ⟨⟨h.name, h.elfentry, h.elftext, h.elftextoff, h.textSize, hnd, hpts⟩, h.maps,
      fun hi => absurd (hr.symm.trans hi) (by simp), fun _ => ?_⟩
    change Function.update pg.tracee.mem (pg.vm b.addr) (some 0xcc#8) =
      Sdb.patched (pg.origin E).mem ((pg.breakpoints ++ [b]).map fun c => pg.vm c.addr)
    rw [h.mem hr, update_patched]
    refine patched_congr fun x => ?_
    rw [List.map_append, List.mem_append, List.mem_cons, or_comm, Program.vmPoints]
    simp
  · exact ⟨⟨h.name, h.elfentry, h.elftext, h.elftextoff, h.textSize, hnd, hpts⟩, h.maps, h.fresh,
      fun hr' => absurd hr' hr⟩

theorem break_ (h : Inv E path F pg) (hF : Loadable E path F) {id : Int} {addr : Addr} {r : Int}
    (hb : pg.break_ id addr = (r, pg')) : Inv E path F pg' := by
  rcases Program.break_cases hb with ⟨ls, rfl⟩ | ⟨hl, a, codes, _, h1, h2, _, hp, hnew, rfl⟩
  · exact h.print ls
  have ha : F.InText a := ⟨h.elftext ▸ h1, h.elftext ▸ h.textSize ▸ h2⟩
  have hn : a ∉ pg.breakpoints.map (·.addr) := by
    intro hm
    obtain ⟨c, hc, he⟩ := List.mem_map.mp hm
    exact (hnew c hc).2 he
  refine h.withPoint (b := ⟨id, a, codes.headD 0#8⟩) ha ?_ hn
  have h0 := peekText_getElem? hp (i := 0) (by omega)
  rw [BitVec.add_zero, h.byte_eq hF hl ha hn] at h0
  cases codes with
  | nil => simp at h0
  | cons c cs => simpa using h0

/-- `Delete`, but for a program that is running and has been moved. -/
theorem delete (h : Inv E path F pg) (hF : Loadable E path F) {id : Int}
    (hgood : pg.stat = .running → F.pie = false ∨ ∀ b ∈ pg.breakpoints, b.id ≠ id) {r : Int}
    (hd : pg.delete id = some (r, pg')) : Inv E path F pg' := by
  rcases Program.delete_cases hd with ⟨ls, rfl⟩ | ⟨b, l₁, l₂, hid, hbs, rfl⟩
  · exact h.print ls
  have hb : b ∈ pg.breakpoints := by simp [hbs]
  have hnd := nodup_addr_middle (hbs ▸ h.nodup)
  have hpts : ∀ c ∈ l₁ ++ l₂, F.InText c.addr ∧ c.origCode = F.byte c.addr := fun c hc =>
    h.points c (by
      rw [hbs]
      simp only [List.mem_append, List.mem_cons] at hc ⊢
      tauto)
  refine ⟨⟨h.name, h.elfentry, h.elftext, h.elftextoff, h.textSize,
    (List.nodup_cons.mp hnd).2, hpts⟩, h.maps, fun hi => ?_, fun hr => ?_⟩
  · have hn : pg.stat ≠ .running := fun hr => absurd (hr.symm.trans hi) (by simp)
    rw [if_neg hn]
    exact h.fresh hi
  · change pg.stat = .running at hr
    have hpie : F.pie = false := (hgood hr).resolve_right fun hn => hn b hb hid
    have hl : pg.stat ≠ .unloaded := by simp [hr]
    have hvm : pg.vm b.addr = b.addr := by
      rw [h.vm_eq hF hl, File.vmAddr, hpie]
      rfl
    have hm : (pg.origin E).mem b.addr = some b.origCode := by
      rw [(h.points b hb).2, ← h.origin_byte hF hl (h.points b hb).1, hvm]
    have hnot : b.addr ∉ (l₁ ++ l₂).map fun c => pg.vm c.addr := by
      intro hm
      obtain ⟨c, hc, he⟩ := List.mem_map.mp hm
      rw [← hvm] at he
      exact (List.nodup_cons.mp hnd).1 (pg.vm_injective he ▸ List.mem_map_of_mem hc)
    rw [if_pos hr]
    change Function.update pg.tracee.mem b.addr (some b.origCode) =
      Sdb.patched (pg.origin E).mem ((l₁ ++ l₂).map fun c => pg.vm c.addr)
    rw [h.mem hr, ← restore_patched hm hnot]
    congr 1
    refine patched_congr fun x => ?_
    rw [Program.vmPoints, hbs]
    simp only [List.map_append, List.map_cons, List.mem_append, List.mem_cons, hvm]
    tauto

end Inv

/-- A command that is no `Delete` of a breakpoint while a
position-independent program is running. -/
def SafeDelete {R : Type} (F : File) (pg : Program R) (c : Cmd) : Prop :=
  ∀ id, c = .delete id → pg.stat = .running → F.pie = false ∨ ∀ b ∈ pg.breakpoints, b.id ≠ id

/-- A command that returns. -/
def CmdStep {R : Type} (E : Env R) (pg : Program R) (c : Cmd) (pg' : Program R) : Prop :=
  ∃ fuel r, c.exec E fuel pg = some (.done r pg')

theorem Inv.step {R : Type} {E : Env R} {path : Path} {F : File} {pg pg' : Program R} {c : Cmd}
    (h : Inv E path F pg) (hF : Loadable E path F) (hc : SafeDelete F pg c)
    (hs : CmdStep E pg c pg') :
    Inv E path F pg' := by
  obtain ⟨fuel, r, he⟩ := hs
  cases c with
  | break_ id addr =>
    obtain ⟨hr, rfl⟩ : (pg.break_ id addr).1 = r ∧ (pg.break_ id addr).2 = pg' := by
      simpa [Cmd.exec] using he
    exact h.break_ hF rfl
  | delete id =>
    obtain ⟨⟨r', pg₁⟩, hd, hr⟩ := Option.map_eq_some_iff.mp he
    obtain ⟨_, rfl⟩ : r' = r ∧ pg₁ = pg' := by simpa using hr
    exact h.delete hF (hc id rfl) hd
  | start =>
    obtain ⟨⟨r', pg₁⟩, hd, hr⟩ := Option.map_eq_some_iff.mp he
    obtain ⟨_, rfl⟩ : r' = r ∧ pg₁ = pg' := by simpa using hr
    exact h.start hd
  | run => exact h.run hF he
  | cont => exact h.cont hF he
  | si => exact h.si hF he

/-- A position-independent program with `.text` at `0x20000` of the file, mapped at `0x55550000`;
all of its memory is mapped. -/
def pieEnv : Env Unit where
  cpu := exitCpu
  access _ := true
  elf _ := some ⟨0x20000, [⟨"", 0, 0, 0⟩, ⟨".text", 0x20000, 0x20000, 0x10⟩]⟩
  spawn _ := ⟨[⟨0x55550000, "r-xp", some ["a.out"]⟩],
    ⟨fun _ => some 0x90#8, 0x55570000, (), false, []⟩⟩
  disasm _ _ := [⟨0x20000, [0x90], 1, "nop", ""⟩]

def pieFile : File := ⟨0x20000, 0x20000, 0x20000, 0x10, true, fun _ => 0x90⟩

theorem pieEnv_loadable : Loadable pieEnv ["a.out"] pieFile := by
  have hvm : ∀ n vm, getTextStartInMemory ["a.out"] none (pieEnv.spawn n).maps = some vm →
      vm = 0x55550000 := by
    intro n vm h
    simpa [getTextStartInMemory, pieEnv, eq_comm] using h
  refine ⟨⟨_, _, rfl, rfl, rfl, rfl, rfl, rfl⟩, fun n vm h => ?_, fun _ _ _ _ _ => rfl⟩
  rw [hvm n vm h]
  decide

/-- The program after `load`, `break`, `start` and `delete`. -/
def pieLoaded : Program Unit :=
  ((unloadedProgram.load pieEnv ["a.out"]).getD (0, unloadedProgram)).2
def pieBroken : Program Unit := (pieLoaded.break_ 0 0x20000).2
def pieStarted : Program Unit := (pieBroken.start.getD (0, pieBroken)).2
def pieDeleted : Program Unit := ((pieStarted.delete 0).getD (0, pieStarted)).2

theorem pieBroken_step : CmdStep pieEnv pieLoaded (.break_ 0 0x20000) pieBroken := ⟨0, 0, rfl⟩

theorem pieStarted_step : CmdStep pieEnv pieBroken .start pieStarted := ⟨0, 0, rfl⟩

theorem pieDeleted_step : CmdStep pieEnv pieStarted (.delete 0) pieDeleted := ⟨0, 0, rfl⟩

theorem safeDelete_of_ne {R : Type} {F : File} {pg : Program R} {c : Cmd}
    (h : ∀ id, c ≠ .delete id) :
    SafeDelete F pg c := fun id hc => absurd hc (h id)

/-- Whatever the commands, as long as no breakpoint is deleted while a position-independent program
is running, the patched code of a running program matches the breakpoint list. -/
theorem text_patched {R : Type} {E : Env R} {path : Path} {F : File} (hF : Loadable E path F)
    {pg₀ pg pg' : Program R} (h₀ : pg₀.stat = .unloaded) (hb : pg₀.breakpoints = [])
    (hload : pg₀.load E path = some (0, pg)) {cs : List Cmd}
    (hrun : Reach (fun pg c pg' => CmdStep E pg c pg' ∧ SafeDelete F pg c) pg cs pg')
    (hr : pg'.stat = .running) : Patched F pg' := by
  have hinit : Inv E path F pg := Inv.load hF h₀ (by simp [hb]) (by simp [hb]) hload
  have hinv : Inv E path F pg' := hrun.invariant hinit fun _ _ _ h hs => h.step hF hs.2 hs.1
  exact hinv.patched hF hr

/-- A breakpoint is set and the program is started. -/
theorem text_patched_start :
    unloadedProgram.load pieEnv ["a.out"] = some (0, pieLoaded) ∧
      Reach (CmdStep pieEnv) pieLoaded [.break_ 0 0x20000, .start] pieStarted ∧
      pieStarted.breakpoints.length = 1 ∧ Patched pieFile pieStarted := by
  have hrun : Reach (fun pg c pg' => CmdStep pieEnv pg c pg' ∧ SafeDelete pieFile pg c) pieLoaded
      [.break_ 0 0x20000, .start] pieStarted :=
    (Reach.init.snoc ⟨pieBroken_step, safeDelete_of_ne (by simp)⟩).snoc
      ⟨pieStarted_step, safeDelete_of_ne (by simp)⟩
  have hload : unloadedProgram.load pieEnv ["a.out"] = some (0, pieLoaded) := rfl
  exact ⟨hload, hrun.mono fun _ _ _ h => h.1, rfl, text_patched pieEnv_loadable
    rfl rfl hload hrun rfl⟩

/-- The breakpoint is then deleted: `Delete` writes to the address of the file, and the `0xcc` stays
in the code without a breakpoint. -/
theorem text_patched_delete :
    Loadable pieEnv ["a.out"] pieFile ∧ unloadedProgram.load pieEnv ["a.out"] =
      some (0, pieLoaded) ∧
      Reach (CmdStep pieEnv) pieLoaded [.break_ 0 0x20000, .start, .delete 0] pieDeleted ∧
      pieDeleted.stat = .running ∧ pieDeleted.breakpoints = [] ∧
      pieDeleted.tracee.mem (pieFile.vmAddr pieDeleted.vmtext 0x20000) = some 0xcc#8 ∧
      ¬ Patched pieFile pieDeleted := by
  refine ⟨pieEnv_loadable, rfl, ((Reach.init.snoc pieBroken_step).snoc pieStarted_step).snoc
    pieDeleted_step, rfl, rfl, rfl, fun h => ?_⟩
  have hbyte := h.rest 0x20000 (by constructor <;> decide) List.not_mem_nil
  exact absurd hbyte (by decide)

end NctuCourses.Sdb
