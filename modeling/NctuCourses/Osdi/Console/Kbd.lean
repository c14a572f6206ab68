import NctuCourses.Osdi.Mem.Layout

namespace NctuCourses.Osdi.Console

abbrev Byte := BitVec 8

namespace Mod

def shift {w : Nat} : BitVec w := 1#w <<< 0
def ctl {w : Nat} : BitVec w := 1#w <<< 1
def alt {w : Nat} : BitVec w := 1#w <<< 2
def capslock {w : Nat} : BitVec w := 1#w <<< 3
def numlock {w : Nat} : BitVec w := 1#w <<< 4
def scrolllock {w : Nat} : BitVec w := 1#w <<< 5

end Mod

def keyHome : Byte := 0xE0
def keyEnd : Byte := 0xE1
def keyUp : Byte := 0xE2
def keyDn : Byte := 0xE3
def keyLf : Byte := 0xE4
def keyRt : Byte := 0xE5
def keyPgup : Byte := 0xE6
def keyPgdn : Byte := 0xE7
def keyIns : Byte := 0xE8
def keyDel : Byte := 0xE9

/-- A table of 256 bytes: the first entries as characters, and the
designated ones. All others are `NO`. -/
def table (first : String) (designated : List (Byte × Byte)) (data : Byte) : Byte :=
  match designated.lookup data with
  | some c => c
  | none => BitVec.ofNat 8 ((first.toList.map Char.toNat).getD data.toNat 0)

def shiftcode : Byte → Byte := table ""
  [(0x1D, Mod.ctl), (0x2A, Mod.shift), (0x36, Mod.shift), (0x38, Mod.alt), (0x9D, Mod.ctl),
      (0xB8, Mod.alt)]

def togglecode : Byte → Byte :=
  table "" [(0x3A, Mod.capslock), (0x45, Mod.numlock), (0x46, Mod.scrolllock)]

def normalmap : Byte → Byte := table
  ("\x00\x1b1234567890-=\x08\t" ++
    "qwertyuiop[]\n\x00as" ++
    "dfghjkl;'`\x00\\zxcv" ++
    "bnm,./\x00*\x00 \x00\x00\x00\x00\x00\x00" ++
    "\x00\x00\x00\x00\x00\x00\x00789-456+1" ++
    "230.\x00\x00\x00\x00")
  [(0xC7, keyHome), (0x9C, 0x0A), (0xB5, 0x2F), (0xC8, keyUp), (0xC9, keyPgup),
    (0xCB, keyLf), (0xCD, keyRt), (0xCF, keyEnd), (0xD0, keyDn), (0xD1, keyPgdn),
    (0xD2, keyIns), (0xD3, keyDel)]

def shiftmap : Byte → Byte := table
  ("\x00\x1b!@#$%^&*()_+\x08\t" ++
    "QWERTYUIOP\x7b\x7d\n\x00AS" ++
    "DFGHJKL:\"~\x00|ZXCV" ++
    "BNM<>?\x00*\x00 \x00\x00\x00\x00\x00\x00" ++
    "\x00\x00\x00\x00\x00\x00\x00789-456+1" ++
    "230.\x00\x00\x00\x00")
  [(0xC7, keyHome), (0x9C, 0x0A), (0xB5, 0x2F), (0xC8, keyUp), (0xC9, keyPgup),
    (0xCB, keyLf), (0xCD, keyRt), (0xCF, keyEnd), (0xD0, keyDn), (0xD1, keyPgdn),
    (0xD2, keyIns), (0xD3, keyDel)]

/-- The entry `C('/')` is `'/' - '@'` as a byte. -/
def ctlmap : Byte → Byte := table
  ("\x00\x00\x00\x00\x00\x00\x00\x00\x00\x00\x00\x00\x00\x00\x00\x00" ++
    "\x11\x17\x05\x12\x14\x19\x15\x09\x0f\x10\x00\x00\r\x00\x01\x13" ++
    "\x04\x06\x07\x08\x0a\x0b\x0c\x00\x00\x00\x00\x1c\x1a\x18\x03\x16" ++
    "\x02\x0e\x0d\x00\x00\xef\x00\x00")
  [(0x97, keyHome), (0xB5, 0xEF), (0xC8, keyUp), (0xC9, keyPgup), (0xCB, keyLf),
    (0xCD, keyRt), (0xCF, keyEnd), (0xD0, keyDn), (0xD1, keyPgdn), (0xD2, keyIns), (0xD3, keyDel)]

/-- The array `charcode`. Its index has the bits `CTL` and `SHIFT` only. -/
def charcode (index : Word) : Byte → Byte :=
  if index = 0#32 then normalmap else if index = 1#32 then shiftmap else ctlmap

def kbsDib : Byte := 0x01

/-- The keyboard controller: the bytes that wait, and the byte read last. -/
structure Port where
  queue : List Byte
  last : Byte

/-- `inb(KBSTATP)`, as far as it is looked at. -/
def Port.inbStatus (p : Port) : Byte := if p.queue = [] then 0 else kbsDib

/-- `inb(KBDATAP)`: the next byte, or the last one again. -/
def Port.inbData (p : Port) : Byte × Port :=
  match p.queue with
  | [] => (p.last, p)
  | data :: queue => (data, ⟨queue, data⟩)

/-- The keyboard and its decoder, with the look-ups in `charcode` and the reboots so far. -/
structure Kbd where
  port : Port
  shift : Word
  lookups : List (Word × Byte)
  reboots : Nat

/-- The bits of `shift` once a key is pressed. -/
def pressShift (data : Byte) (shift : Word) : Word :=
  (shift ||| (shiftcode data).setWidth 32) ^^^ (togglecode data).setWidth 32

/-- The bits of `shift` once a key is released. -/
def releaseShift (data : Byte) (shift : Word) : Word := shift &&& ~~~(shiftcode data).setWidth 32

def charIndex (shift : Word) : Word := shift &&& (Mod.ctl ||| Mod.shift)

/-- The case of a letter changes under `CAPSLOCK`. -/
def swapCase (c : Int) : Int :=
  if 97 ≤ c ∧ c ≤ 122 then c + (65 - 97) else if 65 ≤ c ∧ c ≤ 90 then c + (97 - 65) else c

/-- The part of `kbd_proc_data` for a key that is pressed. -/
def keyPressed (data : Byte) (s : Kbd) : Kbd × Int :=
  let shift := pressShift data s.shift
  let c : Int := (charcode (charIndex shift) data).toNat
  let c := if shift &&& Mod.capslock ≠ 0 then swapCase c else c
  let reboot := ~~~shift &&& (Mod.ctl ||| Mod.alt) = 0#32 ∧ c = keyDel.toNat
  ({ s with
      shift
      lookups := s.lookups ++ [(charIndex shift, data)]
      reboots := if reboot then s.reboots + 1 else s.reboots }, c)

def kbdProcData (s : Kbd) : Kbd × Int :=
  if s.port.inbStatus &&& kbsDib = 0 then (s, -1)
  else
    let (data, port) := s.port.inbData
    if data = 0xE0 then
      let (data, port) := port.inbData
      if data &&& 0x80 ≠ 0 then ({ s with port }, 0)
      else keyPressed (data ||| 0x80) { s with port }
    else if data &&& 0x80 ≠ 0 then
      -- key released
      ({ s with port, shift := releaseShift (data &&& 0x7F) s.shift }, 0)
    else keyPressed data { s with port }

/-- The decoder before the first key. -/
def Kbd.initial (queue : List Byte) : Kbd := ⟨⟨queue, 0⟩, 0, [], 0⟩

theorem Port.inbStatus_nil (last : Byte) : (⟨[], last⟩ : Port).inbStatus &&& kbsDib = 0 := by
  rw [inbStatus, if_pos rfl]
  decide

theorem Port.inbStatus_cons (data : Byte) (queue : List Byte) (last : Byte) :
    (⟨data :: queue, last⟩ : Port).inbStatus &&& kbsDib ≠ 0 := by
  rw [inbStatus, if_neg (List.cons_ne_nil _ _)]
  decide

section Calls

variable (data : Byte) (rest : List Byte) (last : Byte) (shift : Word) (ls : List (Word × Byte))
  (n : Nat)

theorem kbdProcData_extended : kbdProcData ⟨⟨0xE0 :: data :: rest, last⟩, shift, ls, n⟩ =
    if data &&& 0x80 ≠ 0 then (⟨⟨rest, data⟩, shift, ls, n⟩, 0)
    else keyPressed (data ||| 0x80) ⟨⟨rest, data⟩, shift, ls, n⟩ := by
  rw [kbdProcData, if_neg (Port.inbStatus_cons _ _ _)]
  rfl

theorem kbdProcData_plain {data : Byte} (h : data ≠ 0xE0) :
    kbdProcData ⟨⟨data :: rest, last⟩, shift, ls, n⟩ =
    if data &&& 0x80 ≠ 0 then (⟨⟨rest, data⟩, releaseShift (data &&& 0x7F) shift, ls, n⟩, 0)
    else keyPressed data ⟨⟨rest, data⟩, shift, ls, n⟩ := by
  rw [kbdProcData, if_neg (Port.inbStatus_cons _ _ _)]
  exact if_neg h

end Calls

theorem keyPressed_range (data : Byte) (s : Kbd) :
    0 ≤ (keyPressed data s).2 ∧ (keyPressed data s).2 ≤ 255 := by
  have hlt := (charcode (charIndex (pressShift data s.shift)) data).isLt
  simp only [keyPressed, swapCase]
  split_ifs <;> omega

theorem kbdProcData_spec (s : Kbd) : s.port.queue = [] ∧ kbdProcData s = (s, -1) ∨
    (kbdProcData s).1.port.queue.length < s.port.queue.length ∧
      0 ≤ (kbdProcData s).2 ∧ (kbdProcData s).2 ≤ 255 := by
  obtain ⟨⟨queue, last⟩, shift, ls, n⟩ := s
  cases queue with
  | nil => exact .inl ⟨rfl, if_pos (Port.inbStatus_nil last)⟩
  | cons data rest =>
    right
    have h255 : (0 : Int) ≤ 255 := by decide
    by_cases he0 : data = 0xE0
    · subst he0
      cases rest with
      | nil =>
        -- the byte read last is read again
        rw [kbdProcData, if_neg (Port.inbStatus_cons _ _ _)]
        exact ⟨Nat.lt_add_one _, le_refl 0, h255⟩
      | cons data rest =>
        rw [kbdProcData_extended]
        split_ifs
        · exact ⟨by simp only [List.length_cons]; omega, le_refl 0, h255⟩
        · exact ⟨by simp only [keyPressed, List.length_cons]; omega, keyPressed_range _ _⟩
    · rw [kbdProcData_plain _ _ _ _ _ he0]
      split_ifs
      · exact ⟨Nat.lt_add_one _, le_refl 0, h255⟩
      · exact ⟨Nat.lt_add_one _, keyPressed_range _ _⟩

end NctuCourses.Osdi.Console
