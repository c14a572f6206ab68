import Mathlib.Data.List.Chain
import NctuCourses.Sdb.Address

namespace NctuCourses.Sdb

/-- What `main` prints for a `disasm` command. -/
inductive Reply where
  | noAddr
  | lines (ls : List Line)
deriving DecidableEq

/-- The instructions among the lines printed. -/
def Reply.insns : Reply → List Insn
  | .noAddr => []
  | .lines ls => ls.filterMap fun l => match l with
    | .insn _ i => some i
    | _ => none

namespace Program

variable {R : Type}

def disasm (pg : Program R) (addr : Addr) : Int × List Line :=
  if !pg.isLoaded then (-1, [.noProgram])
  else ((pg.listInstructions addr false).1, (pg.listInstructions addr false).2)

/-- The branch of `main` for `disasm`, with the address given or none. -/
def mainDisasm (pg : Program R) (disasmAddr : Addr) (arg1 : Option Addr) : Addr × Reply :=
  if arg1 = none ∧ disasmAddr = 0#64 then (disasmAddr, .noAddr)
  else
    let addr := arg1.getD disasmAddr
    let r := pg.disasm addr
    (if r.1 ≠ -1 then addr + BitVec.ofInt 64 r.1 else addr, .lines r.2)

/-- `disasm start` and then `disasm` without an argument `k` times: `disasm_addr`, and the
instructions printed. -/
def session (pg : Program R) (start : Addr) : Nat → Addr × List Insn
  | 0 => ((pg.mainDisasm 0#64 (some start)).1, (pg.mainDisasm 0#64 (some start)).2.insns)
  | k + 1 =>
    let s := pg.session start k
    let r := pg.mainDisasm s.1 none
    (r.1, s.2 ++ r.2.insns)

end Program

/-- The test for an address in `ListInstructions`. -/
def Insn.covers (i : Insn) (addr : Addr) : Bool := i.rip ≤ addr && addr < i.rip + i.size

/-- Each instruction starts where the one before it ends, and none is empty or longer than 15 bytes.
The code lies in the 64-bit address space. -/
structure Contiguous (is : List Insn) : Prop where
  sizes : ∀ i ∈ is, 1 ≤ i.size.toNat ∧ i.size.toNat ≤ 15
  next : is.IsChain fun i j => j.rip.toNat = i.rip.toNat + i.size.toNat
  space : ∀ i ∈ is, i.rip.toNat + i.size.toNat ≤ 2 ^ 64

/-- The number of bytes that instructions take. -/
def bytes (is : List Insn) : Nat := (is.map fun i => i.size.toNat).sum

/-- What `disasm` shows at an address. -/
def shown (is : List Insn) (addr : Addr) : List Insn :=
  match is.findIdx? (·.covers addr) with
  | none => []
  | some lowerBound => (is.drop lowerBound).take 10

namespace Program

variable {R : Type} {pg : Program R}

theorem disasm_eq (hl : pg.stat ≠ .unloaded) (addr : Addr) :
    (pg.disasm addr).1 = bytes (shown pg.instructions addr) ∧
      (Reply.lines (pg.disasm addr).2).insns = shown pg.instructions addr := by
  have hload : ¬ (!pg.isLoaded) = true := by simp [isLoaded, hl]
  rw [disasm, if_neg hload]
  unfold listInstructions shown Insn.covers
  cases pg.instructions.findIdx? (fun i => i.rip ≤ addr && addr < i.rip + i.size) with
  | none => exact ⟨rfl, rfl⟩
  | some k =>
    refine ⟨rfl, ?_⟩
    change List.filterMap _ (List.map _ _) = _
    rw [List.filterMap_map]
    exact List.filterMap_some

theorem mainDisasm_some (hl : pg.stat ≠ .unloaded) (d start : Addr) :
    pg.mainDisasm d (some start) =
      (start + BitVec.ofNat 64 (bytes (shown pg.instructions start)),
        .lines (pg.disasm start).2) := by
  have h := (disasm_eq hl start).1
  have hne : (pg.disasm start).1 ≠ -1 := by omega
  rw [mainDisasm, if_neg (by simp)]
  dsimp only [Option.getD_some]
  rw [if_pos hne, h, BitVec.ofInt_natCast]

theorem mainDisasm_none (hl : pg.stat ≠ .unloaded) {d : Addr} (hd : d ≠ 0#64) :
    pg.mainDisasm d none =
      (d + BitVec.ofNat 64 (bytes (shown pg.instructions d)), .lines (pg.disasm d).2) := by
  have h := (disasm_eq hl d).1
  have hne : (pg.disasm d).1 ≠ -1 := by omega
  rw [mainDisasm, if_neg (by simp [hd])]
  dsimp only [Option.getD_none]
  rw [if_pos hne, h, BitVec.ofInt_natCast]

end Program

theorem bytes_append (is js : List Insn) : bytes (is ++ js) = bytes is + bytes js := by
  simp [bytes]

namespace Contiguous

variable {is : List Insn} (h : Contiguous is)

include h

/-- From one instruction on, the addresses follow from the bytes in between. -/
theorem rip_add {m t : Nat} (ht : m + t < is.length) :
    is[m + t].rip.toNat = is[m].rip.toNat + bytes ((is.drop m).take t) := by
  induction t with
  | zero => rfl
  | succ t ih =>
    have hnext := List.isChain_iff_getElem.mp h.next (m + t) ht
    have hone : bytes [is[m + t]] = is[m + t].size.toNat := by simp [bytes]
    have := ih (by omega)
    rw [List.take_add_one, List.getElem?_drop, List.getElem?_eq_getElem
      (by omega : m + t < is.length), bytes_append]
    change is[m + t + 1].rip.toNat =
      is[m].rip.toNat + (bytes ((is.drop m).take t) + bytes [is[m + t]])
    omega

theorem end_le {m t : Nat} (hmt : m < t) (ht : t < is.length) :
    is[m].rip.toNat + is[m].size.toNat ≤ is[t].rip.toNat := by
  induction t with
  | zero => omega
  | succ t ih =>
    have hnext := List.isChain_iff_getElem.mp h.next t ht
    by_cases hm : m = t
    · subst hm
      omega
    · have := ih (by omega) (by omega)
      omega

theorem size_pos {m : Nat} (hm : m < is.length) : 1 ≤ is[m].size.toNat :=
  (h.sizes _ (List.getElem_mem hm)).1

theorem index_eq {m t : Nat} (hm : m < is.length) (ht : t < is.length) (heq : is[m] = is[t]) :
    m = t := by
  have h1 := h.size_pos hm
  have h2 := h.size_pos ht
  by_contra hne
  cases Nat.lt_or_gt_of_ne hne with
  | inl hlt =>
    have := h.end_le hlt ht
    rw [heq] at this
    omega
  | inr hlt =>
    have := h.end_le hlt hm
    rw [heq] at this
    omega

/-- What the test says of an instruction of the table; one that reaches the top of the
address space is never found. -/
theorem covers_iff {m : Nat} (hm : m < is.length) (x : Addr) :
    is[m].covers x = true ↔ is[m].rip.toNat ≤ x.toNat ∧
    x.toNat < is[m].rip.toNat + is[m].size.toNat ∧
      is[m].rip.toNat + is[m].size.toNat < 2 ^ 64 := by
  have hspace := h.space _ (List.getElem_mem hm)
  have hx := x.isLt
  rw [Insn.covers, Bool.and_eq_true, decide_eq_true_eq, decide_eq_true_eq, BitVec.le_def,
    BitVec.lt_def, BitVec.toNat_add]
  by_cases htop : is[m].rip.toNat + is[m].size.toNat < 2 ^ 64
  · rw [Nat.mod_eq_of_lt htop]
    omega
  · have hmod : (is[m].rip.toNat + is[m].size.toNat) % 2 ^ 64 = 0 := by
      rw [show is[m].rip.toNat + is[m].size.toNat = 2 ^ 64 by omega, Nat.mod_self]
    omega

theorem findIdx?_of_covers {m : Nat} (hm : m < is.length) {x : Addr} (hx : is[m].covers x = true) :
    is.findIdx? (·.covers x) = some m := by
  rw [List.findIdx?_eq_some_iff_getElem]
  refine ⟨hm, hx, ?_⟩
  intro j hj hc
  have h1 := (h.covers_iff (by omega) x).mp hc
  have h2 := (h.covers_iff hm x).mp hx
  have := h.end_le hj hm
  omega

end Contiguous

namespace Program

variable {R : Type} {pg : Program R} {start : Addr} {k : Nat}

/-- Once a command has listed nothing, the following ones list nothing. -/
theorem session_frozen (hl : pg.stat ≠ .unloaded)
    (h : (pg.session start k).1 = 0#64 ∨ shown pg.instructions (pg.session start k).1 = [])
    {k' : Nat} (hk : k ≤ k') :
    pg.session start k' = pg.session start k := by
  induction hk with
  | refl => rfl
  | @step k' _ ih =>
    rw [← ih] at h ⊢
    by_cases h0 : (pg.session start k').1 = 0#64
    · have hmain : pg.mainDisasm (pg.session start k').1 none = ((pg.session start k').1,
          .noAddr) := by
        rw [mainDisasm, if_pos ⟨rfl, h0⟩]
      change ((pg.mainDisasm _ none).1, _ ++ (pg.mainDisasm _ none).2.insns) = _
      rw [hmain, Reply.insns, List.append_nil]
    · have hshown := h.resolve_left h0
      change ((pg.mainDisasm _ none).1, _ ++ (pg.mainDisasm _ none).2.insns) = _
      rw [mainDisasm_none hl h0, (disasm_eq hl _).2, hshown, List.append_nil]
      simp [bytes]

theorem session_succ (hl : pg.stat ≠ .unloaded) (h0 : (pg.session start k).1 ≠ 0#64) :
    pg.session start (k + 1) =
      ((pg.session start k).1 + BitVec.ofNat 64
        (bytes (shown pg.instructions (pg.session start k).1)),
        (pg.session start k).2 ++ shown pg.instructions (pg.session start k).1) := by
  change ((pg.mainDisasm _ none).1, _ ++ (pg.mainDisasm _ none).2.insns) = _
  rw [mainDisasm_none hl h0, (disasm_eq hl _).2]

theorem session_zero (hl : pg.stat ≠ .unloaded) (start : Addr) :
    pg.session start 0 =
      (start + BitVec.ofNat 64 (bytes (shown pg.instructions start)),
        shown pg.instructions start) := by
  change ((pg.mainDisasm _ _).1, (pg.mainDisasm _ _).2.insns) = _
  rw [mainDisasm_some hl, (disasm_eq hl _).2]

theorem session_mono (pg : Program R) (start : Addr) {k' : Nat} (hk : k ≤ k') :
    (pg.session start k).2 <+: (pg.session start k').2 := by
  induction hk with
  | refl => exact List.prefix_rfl
  | step _ ih => exact ih.trans (List.prefix_append _ _)

end Program

/-- `disasm_addr` after `t` listings that have not missed anything. -/
def position (is : List Insn) (start : Addr) (m t : Nat) : Addr :=
  start + BitVec.ofNat 64 (bytes ((is.drop m).take (10 * t)))

theorem position_succ (is : List Insn) (start : Addr) (m t : Nat) :
    position is start m (t + 1) =
      position is start m t + BitVec.ofNat 64 (bytes ((is.drop (m + 10 * t)).take 10)) := by
  rw [position, position, show 10 * (t + 1) = 10 * t +
    10 by omega, List.take_add, List.drop_drop, bytes_append,
    BitVec.ofNat_add, BitVec.add_assoc]

/-- The address `d` bytes into the instruction that begins the listing `t` is found in it. -/
def Due (is : List Insn) (d m t : Nat) : Prop :=
  ∀ h : m + 10 * t < is.length, d < is[m + 10 * t].size.toNat ∧
    is[m + 10 * t].rip.toNat + is[m + 10 * t].size.toNat < 2 ^ 64

/-- The instruction `m` of a contiguous table has byte `d` at the address `start`. -/
structure StartsIn (is : List Insn) (start : Addr) (m d : Nat) : Prop extends Contiguous is where
  lt : m < is.length
  addr : start.toNat = is[m].rip.toNat + d
  inside : d < is[m].size.toNat

namespace StartsIn

variable {is : List Insn} {start : Addr} {m d t : Nat} (h : StartsIn is start m d)

include h

theorem position_toNat (ht : m + 10 * t < is.length) :
    (position is start m t).toNat = (is[m + 10 * t].rip.toNat + d) % 2 ^ 64 := by
  have hlt := h.lt
  have hrip := h.rip_add ht
  have haddr := h.addr
  rw [position, BitVec.toNat_add, BitVec.toNat_ofNat, Nat.add_mod_mod, haddr, hrip]
  congr 1
  omega

theorem covers_position (ht : m + 10 * t < is.length) :
    is[m + 10 * t].covers (position is start m t) = true ↔ Due is d m t := by
  have hlt := h.lt
  have hd := h.inside
  have hsize := (h.sizes _ (List.getElem_mem hlt)).2
  have hspace := h.space _ (List.getElem_mem ht)
  have hpos := h.size_pos ht
  rw [h.covers_iff ht, h.position_toNat ht]
  have hdue : Due is d m t ↔ d < is[m + 10 * t].size.toNat ∧
      is[m + 10 * t].rip.toNat + is[m + 10 * t].size.toNat < 2 ^ 64 :=
      ⟨fun hd => hd ht, fun hd _ => hd⟩
  rw [hdue]
  by_cases hwrap : is[m + 10 * t].rip.toNat + d < 2 ^ 64
  · rw [Nat.mod_eq_of_lt hwrap]
    omega
  · omega

theorem shown_position (ht : m + 10 * t < is.length) (hdue : Due is d m t) :
    shown is (position is start m t) = (is.drop (m + 10 * t)).take 10 := by
  rw [shown, h.findIdx?_of_covers ht ((h.covers_position ht).mpr hdue)]

theorem shown_of_not_due (ht : m + 10 * t < is.length) (hdue : ¬ Due is d m t) :
    shown is (position is start m t) = [] ∨
      ∃ j rest, ∃ hj : j < is.length, shown is (position is start m t) = is[j] :: rest ∧
      j ≠ m + 10 * t := by
  rw [shown]
  cases hfind : is.findIdx? (·.covers (position is start m t)) with
  | none => exact .inl rfl
  | some j =>
    right
    obtain ⟨hj, hcov, _⟩ := List.findIdx?_eq_some_iff_getElem.mp hfind
    refine ⟨j, (is.drop (j + 1)).take 9, hj, ?_, ?_⟩
    · change (is.drop j).take 10 = _
      rw [List.drop_eq_getElem_cons hj]
      rfl
    · intro he
      subst he
      exact hdue ((h.covers_position ht).mp hcov)

theorem position_ne_zero (ht : m + 10 * t < is.length) (hpos : 0 < t) (hdue : Due is d m t) :
    position is start m t ≠ 0#64 := by
  intro h0
  have hnat := h.position_toNat ht
  have hsizes := hdue ht
  have hlt := h.lt
  have hprev := h.end_le (show m < m + 10 * t by omega) ht
  have hsize := h.size_pos hlt
  rw [h0, Nat.mod_eq_of_lt (by omega)] at hnat
  have : (0#64).toNat = 0 := rfl
  omega

variable {R : Type} {pg : Program R} (hl : pg.stat ≠ .unloaded) (his : pg.instructions = is)

include hl his in
theorem session_eq (ht : m + 10 * t < is.length) (hdue : ∀ j ≤ t, Due is d m j) :
    pg.session start t = (position is start m (t + 1), (is.drop m).take (10 * (t + 1))) := by
  induction t with
  | zero =>
    have hstart : position is start m 0 = start := by simp [position, bytes]
    have hshown := h.shown_position ht (hdue 0 (le_refl 0))
    rw [hstart] at hshown
    rw [Program.session_zero hl, his, hshown, position_succ, hstart]
    rfl
  | succ t ih =>
    have hprev := ih (by omega) fun j hj => hdue j (by omega)
    have hdue' := hdue (t + 1) (le_refl _)
    have h0 : (pg.session start t).1 ≠ 0#64 := by
      rw [hprev]
      exact h.position_ne_zero ht (by omega) hdue'
    rw [Program.session_succ hl h0, hprev, his, h.shown_position ht hdue',
      position_succ is start m (t + 1),
      show 10 * (t + 1 + 1) = 10 * (t + 1) + 10 by omega, List.take_add, List.drop_drop]

include hl his in
/-- If everything from `m` on gets listed, then no listing has shown anything that was not due. -/
theorem due_of_listed (hlist : ∃ K, ∀ k ≥ K, (pg.session start k).2 = is.drop m) (t : Nat) :
    Due is d m t := by
  induction t using Nat.strong_induction_on with
  | _ t ih =>
    intro ht
    by_contra hno
    have hnot : ¬ Due is d m t := fun hdue => hno (hdue ht)
    obtain ⟨K, hK⟩ := hlist
    have hpre : ∀ k, (pg.session start k).2 <+: is.drop m := fun k => by
      rw [← hK (max k K) (le_max_right k K)]
      exact pg.session_mono start (le_max_left k K)
    -- the list before this listing and what the listing adds to it
    have hstep : ∃ k X, (pg.session start k).2 = (is.drop m).take (10 * t) ++ X ∧
        (X = [] → (pg.session start k).1 = 0#64 ∨ shown is (pg.session start k).1 = []) ∧
        (X = [] ∨ X = shown is (position is start m t)) := by
      cases t with
      | zero =>
        have hstart : position is start m 0 = start := by simp [position, bytes]
        refine ⟨0, shown is start, ?_, ?_, .inr (by rw [hstart])⟩
        · rw [Program.session_zero hl, his]
          rfl
        · intro hX
          right
          rw [Program.session_zero hl, his, hX]
          simpa [bytes] using hX
      | succ t =>
        have hprev := h.session_eq hl his (by omega : m + 10 * t < is.length) fun j hj =>
          ih j (by omega)
        by_cases h0 : position is start m (t + 1) = 0#64
        · refine ⟨t, [], by rw [hprev, List.append_nil], fun _ => .inl ?_, .inl rfl⟩
          rw [hprev]
          exact h0
        · refine ⟨t + 1, shown is (position is start m (t + 1)), ?_, ?_, .inr rfl⟩
          · rw [Program.session_succ hl (by rw [hprev]; exact h0), hprev, his]
          · intro hX
            right
            rw [Program.session_succ hl (by rw [hprev]; exact h0), hprev, his]
            dsimp only
            rw [hX]
            simpa [bytes] using hX
    obtain ⟨k, X, hses, hfrozen, hX⟩ := hstep
    have hlen : ((is.drop m).take (10 * t)).length < (is.drop m).length := by
      rw [List.length_take, List.length_drop]
      omega
    by_cases hnil : X = []
    · have hsame := Program.session_frozen hl (his ▸ hfrozen hnil) (le_max_left k K)
      have hall := hK (max k K) (le_max_right k K)
      rw [hsame, hses, hnil, List.append_nil] at hall
      rw [hall] at hlen
      omega
    · have hXshown := hX.resolve_left hnil
      obtain ⟨j, rest, hj, hshown, hne⟩ :=
        (h.shown_of_not_due ht hnot).resolve_left (hXshown ▸ hnil)
      obtain ⟨tail, htail⟩ := hpre k
      have hget : (is.drop m)[10 * t]? = some is[j] := by
        rw [← htail, hses, hXshown, hshown, List.append_assoc, List.getElem?_append_right]
        · rw [List.length_take, List.length_drop]
          simp [show min (10 * t) (is.length - m) = 10 * t by omega]
        · rw [List.length_take]
          omega
      rw [List.getElem?_drop, List.getElem?_eq_getElem ht] at hget
      exact hne (h.index_eq hj ht (Option.some.inj hget).symm)

end StartsIn

/-- From some command on, what has been printed is each instruction from `m` on, once and
in order, and nothing else. -/
def ListsOnce {R : Type} (pg : Program R) (start : Addr) (m : Nat) : Prop :=
  ∃ K, ∀ k ≥ K, (pg.session start k).2 = pg.instructions.drop m

/-- `disasm start` and then `disasm` again and again list everything from the instruction at
`start` on exactly if byte `d` of every tenth instruction is inside it, where `start` is byte
`d` of the first one. (The other conditions are about tables that reach the end of the
address space, or fill it.) -/
theorem disasm_listsOnce {R : Type} {pg : Program R} (hl : pg.stat ≠ .unloaded) {start : Addr}
    {m d : Nat} (h : StartsIn pg.instructions start m d) :
    ListsOnce pg start m ↔
      (∀ t, ∀ ht : m + 10 * t < pg.instructions.length, d < pg.instructions[m + 10 * t].size.toNat ∧
        pg.instructions[m + 10 * t].rip.toNat + pg.instructions[m + 10 * t].size.toNat < 2 ^ 64) ∧
      (start + BitVec.ofNat 64 (bytes (pg.instructions.drop m)) ≠ 0#64 →
        ∀ i ∈ pg.instructions, i.covers (start + BitVec.ofNat 64 (bytes (pg.instructions.drop m))) =
          false) := by
  have hlt := h.lt
  obtain ⟨T, hT, hT'⟩ : ∃ T, m + 10 * T < pg.instructions.length ∧
      pg.instructions.length ≤ m + 10 * (T + 1) :=
    ⟨(pg.instructions.length - m - 1) / 10, by omega, by omega⟩
  have htake : (pg.instructions.drop m).take (10 * (T + 1)) = pg.instructions.drop m := by
    rw [List.take_of_length_le]
    rw [List.length_drop]
    omega
  have hpos : position pg.instructions start m (T + 1) = start + BitVec.ofNat 64
      (bytes (pg.instructions.drop m)) := by
    rw [position, htake]
  constructor
  · intro hlist
    have hdue : ∀ t, Due pg.instructions d m t := h.due_of_listed hl rfl hlist
    refine ⟨hdue, ?_⟩
    intro h0 i hi
    have hend := h.session_eq hl rfl hT fun j _ => hdue j
    rw [htake, hpos] at hend
    obtain ⟨K, hK⟩ := hlist
    -- one more command lists nothing
    have hnil : shown pg.instructions (start + BitVec.ofNat 64 (bytes (pg.instructions.drop m))) =
        [] := by
      have hne : (pg.session start T).1 ≠ 0#64 := by
        rw [hend]
        exact h0
      have hsucc := Program.session_succ hl hne
      have hpre := pg.session_mono start (le_max_left (T + 1) K)
      rw [hK _ (le_max_right (T + 1) K), hsucc, hend] at hpre
      have hle := hpre.length_le
      rw [List.length_append] at hle
      dsimp only at hle
      exact List.length_eq_zero_iff.mp (by omega)
    rw [shown] at hnil
    cases hfind : pg.instructions.findIdx?
      (·.covers (start + BitVec.ofNat 64 (bytes (pg.instructions.drop m)))) with
    | none => exact List.findIdx?_eq_none_iff.mp hfind i hi
    | some j =>
      rw [hfind] at hnil
      obtain ⟨hj, _⟩ := List.findIdx?_eq_some_iff_getElem.mp hfind
      have := congrArg List.length hnil
      simp at this
      omega
  · intro ⟨hdue, hfin⟩
    have hend := h.session_eq hl rfl hT fun j _ => hdue j
    rw [htake, hpos] at hend
    refine ⟨T, ?_⟩
    intro k hk
    have hfrozen : (pg.session start T).1 = 0#64 ∨
        shown pg.instructions (pg.session start T).1 = [] := by
      rw [hend]
      by_cases h0 : start + BitVec.ofNat 64 (bytes (pg.instructions.drop m)) = 0#64
      · exact .inl h0
      · right
        rw [shown, List.findIdx?_eq_none_iff.mpr (hfin h0)]
    rw [Program.session_frozen hl hfrozen hk, hend]

/-- An instruction of two bytes and eleven of one byte. -/
def twelveInsns : List Insn :=
  ⟨0x1000#64, [0x31#8, 0xc0#8], 2#64, "xor", "eax, eax"⟩ ::
    (List.range 11).map fun k => ⟨0x1002#64 + BitVec.ofNat 64 k, [0x90#8], 1#64, "nop", ""⟩

def listingProgram : Program Unit :=
  { unloadedProgram with stat := .intermediate, instructions := twelveInsns }

theorem twelveInsns_contiguous : Contiguous twelveInsns := by
  constructor
  · decide
  · decide
  · decide

theorem disasm_listsOnce_from_start : ListsOnce listingProgram 0x1000#64 0 := by
  have h : StartsIn listingProgram.instructions 0x1000#64 0 0 :=
    ⟨twelveInsns_contiguous, by decide, by decide, by decide⟩
  apply (disasm_listsOnce (by decide) h).mpr
  refine ⟨?_, by decide⟩
  intro t ht
  have hlen : listingProgram.instructions.length = 12 := rfl
  obtain rfl | rfl : t = 0 ∨ t = 1 := by omega
  · decide +revert
  · decide +revert

/-- From the second byte of the first instruction the first listing ends one byte past the
instruction that is due next, which is never listed. -/
theorem disasm_gap :
    StartsIn listingProgram.instructions 0x1001#64 0 1 ∧
      (listingProgram.session 0x1001#64 3).2 = twelveInsns.eraseIdx 10 ∧
      ¬ ListsOnce listingProgram 0x1001#64 0 := by
  have h : StartsIn listingProgram.instructions 0x1001#64 0 1 :=
    ⟨twelveInsns_contiguous, by decide, by decide, by decide⟩
  refine ⟨h, by decide, ?_⟩
  intro hlist
  have hdue := h.due_of_listed (by decide) rfl hlist 1 (by decide)
  exact absurd hdue.1 (by decide)

end NctuCourses.Sdb
