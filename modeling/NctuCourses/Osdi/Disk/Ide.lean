import NctuCourses.Osdi.Mem.Layout

namespace NctuCourses.Osdi.Disk

def srBsy : BitVec 8 := 0x80
def srDf : BitVec 8 := 0x20
def srDrq : BitVec 8 := 0x08
def srErr : BitVec 8 := 0x01

def erBbk : BitVec 8 := 0x80
def erUnc : BitVec 8 := 0x40
def erMc : BitVec 8 := 0x20
def erIdnf : BitVec 8 := 0x10
def erMcr : BitVec 8 := 0x08
def erAbrt : BitVec 8 := 0x04
def erTk0nf : BitVec 8 := 0x02
def erAmnf : BitVec 8 := 0x01

def cmdReadPio : BitVec 8 := 0x20
def cmdReadPioExt : BitVec 8 := 0x24
def cmdWritePio : BitVec 8 := 0x30
def cmdWritePioExt : BitVec 8 := 0x34
def cmdCacheFlush : BitVec 8 := 0xE7
def cmdCacheFlushExt : BitVec 8 := 0xEA

/-- The registers that the driver writes. -/
inductive Reg
  | seccount0 | lba0 | lba1 | lba2 | hddevsel | command | seccount1 | lba3 | lba4 | lba5 | control
  deriving DecidableEq

inductive IdeType
  | ata | atapi
  deriving DecidableEq

/-- `struct ide_device`, as far as transfers use it. -/
structure IdeDevice where
  reserved : BitVec 8
  channel : BitVec 8
  drive : BitVec 8
  type : IdeType
  capabilities : BitVec 16
  size : Word

/-- The bytes of a sector. -/
abbrev Sector := Fin 512 → BitVec 8

/-- What the selected drive of a channel is doing: the sectors it has still to transfer. -/
structure Transfer where
  write : Bool
  slave : Bool
  next : Nat
  left : Nat

/-- What a call finds: the table `ide_devices`, the bytes that the status register gives one after
the other, and the error register. -/
structure Env where
  devices : Nat → IdeDevice
  status : Nat → BitVec 8
  error : BitVec 8

/-- Memory, the controller with its drives, and the driver's variable. For the current call,
`reads` counts the reads of the status register, and `polled` is the history of the status that
each sector was polled with. -/
structure Machine where
  mem : Word → BitVec 8
  regs : BitVec 8 → Reg → BitVec 8
  transfer : BitVec 8 → Transfer
  disks : BitVec 8 → Bool → Nat → Sector
  ideStatus : BitVec 8
  reads : Nat
  polled : List (BitVec 8)

/-- The sector that the registers address, with 16 heads and 63 sectors a track without LBA. -/
def sector28 (r : Reg → BitVec 8) : Nat :=
  let head := (r .hddevsel &&& 0x0F#8).toNat
  if r .hddevsel &&& 0x40#8 ≠ 0#8 then
    head * 2 ^ 24 + (r .lba2).toNat * 2 ^ 16 + (r .lba1).toNat * 2 ^ 8 + (r .lba0).toNat
  else (((r .lba2).toNat * 2 ^ 8 + (r .lba1).toNat) * 16 + head) * 63 + (r .lba0).toNat - 1

def sector48 (r : Reg → BitVec 8) : Nat :=
  (r .lba5).toNat * 2 ^ 40 + (r .lba4).toNat * 2 ^ 32 + (r .lba3).toNat * 2 ^ 24 +
    (r .lba2).toNat * 2 ^ 16 + (r .lba1).toNat * 2 ^ 8 + (r .lba0).toNat

/-- Zero stands for the number that does not fit. -/
def count28 (r : Reg → BitVec 8) : Nat :=
  if r .seccount0 = 0#8 then 256 else (r .seccount0).toNat

def count48 (r : Reg → BitVec 8) : Nat :=
  if r .seccount1 = 0#8 ∧ r .seccount0 = 0#8 then 65536
  else (r .seccount1).toNat * 256 + (r .seccount0).toNat

/-- What a drive starts to do when it gets a command. -/
def begun (r : Reg → BitVec 8) (cmd : BitVec 8) : Transfer :=
  let slave : Bool := r .hddevsel &&& 0x10#8 ≠ 0#8
  if cmd = cmdReadPio then ⟨false, slave, sector28 r, count28 r⟩
  else if cmd = cmdWritePio then ⟨true, slave, sector28 r, count28 r⟩
  else if cmd = cmdReadPioExt then ⟨false, slave, sector48 r, count48 r⟩
  else if cmd = cmdWritePioExt then ⟨true, slave, sector48 r, count48 r⟩
  else ⟨false, slave, 0, 0⟩

/-- Memory with a sector at address `a`. -/
def overlay (mem : Word → BitVec 8) (a : Word) (s : Sector) : Word → BitVec 8 := fun x =>
  if h : (x - a).toNat < 512 then s ⟨(x - a).toNat, h⟩ else mem x

/-- The sector in memory at address `a`. -/
def sectorAt (mem : Word → BitVec 8) (a : Word) : Sector := fun j => mem (a + BitVec.ofNat 32 j.val)

namespace Machine

/-- `rep insw` of 256 words. Without a read in progress the port gives ones. -/
def insw (m : Machine) (channel : BitVec 8) (edi : Word) : Machine :=
  let t := m.transfer channel
  if t.write = false ∧ 0 < t.left then
    { m with
      mem := overlay m.mem edi (m.disks channel t.slave t.next)
      transfer := Function.update m.transfer channel
        { t with next := t.next + 1, left := t.left - 1 } }
  else { m with mem := overlay m.mem edi fun _ => 0xFF }

/-- `rep outsw` of 256 words. -/
def outsw (m : Machine) (channel : BitVec 8) (edi : Word) : Machine :=
  let t := m.transfer channel
  if t.write = true ∧ 0 < t.left then
    { m with
      disks := fun c s n =>
        if c = channel ∧ s = t.slave ∧ n = t.next then sectorAt m.mem edi else m.disks c s n
      transfer := Function.update m.transfer channel
        { t with next := t.next + 1, left := t.left - 1 } }
  else m

end Machine

def ideWrite (channel : BitVec 8) (reg : Reg) (data : BitVec 8) (m : Machine) : Machine :=
  let m := { m with regs := Function.update m.regs channel (Function.update
    (m.regs channel) reg data) }
  if reg = .command then
    { m with transfer := Function.update m.transfer channel (begun (m.regs channel) data) }
  else m

/-- The status register of the channel is read. -/
def readStatus (env : Env) (m : Machine) : BitVec 8 × Machine :=
  (env.status m.reads, { m with reads := m.reads + 1 })

/-- `while (ide_read(channel, ATA_REG_STATUS) & ATA_SR_BSY);` -/
def waitBusy (env : Env) : Nat → Machine → Option Machine
  | 0, _ => none
  | fuel + 1, m =>
    let (status, m) := readStatus env m
    if status &&& srBsy ≠ 0#8 then waitBusy env fuel m else some m

/-- The advanced check of `ide_polling`. -/
def pollCode (state : BitVec 8) : BitVec 8 :=
  if state &&& srErr ≠ 0#8 then 2
  else if state &&& srDf ≠ 0#8 then 1
  else if state &&& srDrq = 0#8 then 3
  else 0

/-- The reads of the alternate status only take time. -/
def idePolling (env : Env) (fuel : Nat) (advancedCheck : Bool) (m : Machine) :
    Option (BitVec 8 × Machine) := do
  let m ← waitBusy env fuel m
  if advancedCheck then
    let (state, m) := readStatus env m
    some (pollCode state, m)
  else some (0, m)

/-- The status read last is the one that the sector was polled with. -/
def Machine.record (env : Env) (m : Machine) : Machine :=
  { m with polled := m.polled ++ [env.status (m.reads - 1)] }

/-- PIO read with `n` sectors to go. The operand `edi` of the assembly is
an input and keeps its value. -/
def pioRead (env : Env) (fuel : Nat) (channel : BitVec 8) (edi : Word) :
    Nat → Machine → Option (BitVec 8 × Machine)
  | 0, m => some (0, m)
  | n + 1, m => do
    let (err, m) ← idePolling env fuel true m
    let m := m.record env
    if err ≠ 0#8 then some (err, m) else pioRead env fuel channel edi n (m.insw channel edi)

/-- PIO write; the result of the polling is not looked at. -/
def pioWrite (env : Env) (fuel : Nat) (channel : BitVec 8) (edi : Word) :
    Nat → Machine → Option Machine
  | 0, m => some m
  | n + 1, m => do
    let (_, m) ← idePolling env fuel false m
    pioWrite env fuel channel edi n ((m.record env).outsw channel edi)

inductive LbaMode
  | chs | lba28 | lba48
  deriving DecidableEq

/-- `lba_mode`, `lba_io` and `head`. -/
structure Address where
  mode : LbaMode
  io0 : BitVec 8
  io1 : BitVec 8
  io2 : BitVec 8
  io3 : BitVec 8
  io4 : BitVec 8
  io5 : BitVec 8
  head : BitVec 8

def lba48Address (lba : Word) : Address where
  mode := .lba48
  io0 := (lba &&& 0x000000FF#32).setWidth 8
  io1 := ((lba &&& 0x0000FF00#32) >>> 8).setWidth 8
  io2 := ((lba &&& 0x00FF0000#32) >>> 16).setWidth 8
  io3 := ((lba &&& 0xFF000000#32) >>> 24).setWidth 8
  io4 := 0
  io5 := 0
  head := 0

def lba28Address (lba : Word) : Address where
  mode := .lba28
  io0 := (lba &&& 0x00000FF#32).setWidth 8
  io1 := ((lba &&& 0x000FF00#32) >>> 8).setWidth 8
  io2 := ((lba &&& 0x0FF0000#32) >>> 16).setWidth 8
  io3 := 0
  io4 := 0
  io5 := 0
  head := ((lba &&& 0xF000000#32) >>> 24).setWidth 8

def chsAddress (lba : Word) : Address :=
  let sect : BitVec 8 := (lba % 63 + 1).setWidth 8
  let cyl : BitVec 16 := ((lba + 1 - sect.setWidth 32) / (16 * 63)).setWidth 16
  { mode := .chs
    io0 := sect
    io1 := (cyl &&& 0xFF).setWidth 8
    io2 := ((cyl >>> 8) &&& 0xFF).setWidth 8
    io3 := 0
    io4 := 0
    io5 := 0
    head := ((lba + 1 - sect.setWidth 32) % (16 * 63) / 63).setWidth 8 }

def selectAddress (d : IdeDevice) (lba : Word) : Address :=
  if lba ≥ 0x10000000#32 then lba48Address lba
  else if d.capabilities &&& 0x200#16 ≠ 0#16 then lba28Address lba
  else chsAddress lba

/-- The registers that say which sectors of which drive are meant. -/
def writeParameters (channel slavebit numsects : BitVec 8) (a : Address) (m : Machine) : Machine :=
  let select : BitVec 8 := if a.mode = .chs then 0xA0 else 0xE0
  let m := ideWrite channel .hddevsel (select ||| slavebit <<< 4 ||| a.head) m
  let m :=
    if a.mode = .lba48 then
      let m := ideWrite channel .seccount1 0 m
      let m := ideWrite channel .lba3 a.io3 m
      let m := ideWrite channel .lba4 a.io4 m
      ideWrite channel .lba5 a.io5 m
    else m
  let m := ideWrite channel .seccount0 numsects m
  let m := ideWrite channel .lba0 a.io0 m
  let m := ideWrite channel .lba1 a.io1 m
  ideWrite channel .lba2 a.io2 m

/-- `direction`; there is no DMA. -/
def transferCommand (write : Bool) (mode : LbaMode) : BitVec 8 :=
  match write, mode with
  | false, .lba48 => cmdReadPioExt
  | false, _ => cmdReadPio
  | true, .lba48 => cmdWritePioExt
  | true, _ => cmdWritePio

def flushCommand : LbaMode → BitVec 8
  | .lba48 => cmdCacheFlushExt
  | _ => cmdCacheFlush

def ideAtaAccess (env : Env) (fuel : Nat) (write : Bool) (drive : Nat) (lba : Word)
    (numsects : BitVec 8) (edi : Word) (m : Machine) : Option (BitVec 8 × Machine) := do
  let d := env.devices drive
  let m := ideWrite d.channel .control 0x02 m
  let a := selectAddress d lba
  let m ← waitBusy env fuel m
  let m := writeParameters d.channel d.drive numsects a m
  let m := ideWrite d.channel .command (transferCommand write a.mode) m
  if write then
    let m ← pioWrite env fuel d.channel edi numsects.toNat m
    let m := ideWrite d.channel .command (flushCommand a.mode) m
    let (_, m) ← idePolling env fuel false m
    some (0, m)
  else pioRead env fuel d.channel edi numsects.toNat m

def idePrintError (env : Env) (err : BitVec 8) : BitVec 8 :=
  if err = 0 then err
  else if err = 1 then 19
  else if err = 2 then
    let st := env.error
    let err := if st &&& erAmnf ≠ 0#8 then 7 else err
    let err := if st &&& erTk0nf ≠ 0#8 then 3 else err
    let err := if st &&& erAbrt ≠ 0#8 then 20 else err
    let err := if st &&& erMcr ≠ 0#8 then 3 else err
    let err := if st &&& erIdnf ≠ 0#8 then 21 else err
    let err := if st &&& erMc ≠ 0#8 then 3 else err
    let err := if st &&& erUnc ≠ 0#8 then 22 else err
    if st &&& erBbk ≠ 0#8 then 13 else err
  else if err = 3 then 23
  else if err = 4 then 8
  else err

/-- `ide_read_sectors` and `ide_write_sectors` before they report: the error of the access. `none`
is a panic: there is no ATAPI read. -/
def accessError (env : Env) (fuel : Nat) (write : Bool) (drive : Nat) (numsects : BitVec 8)
    (lba edi : Word) (m : Machine) : Option (BitVec 8 × Machine) :=
  match (env.devices drive).type with
  | .ata => ideAtaAccess env fuel write drive lba numsects edi m
  | .atapi => if write then some (4, m) else none

/-- The two functions differ in the access only. -/
def ideTransferSectors (write : Bool) (env : Env) (fuel : Nat) (drive : Nat) (numsects : BitVec 8)
    (lba edi : Word) (m : Machine) : Option (Int × Machine) := do
  let d := env.devices drive
  let m ←
    if drive > 3 ∨ d.reserved = 0#8 then some { m with ideStatus := 1 }
    else if lba + numsects.setWidth 32 > d.size ∧ d.type = .ata then some { m with ideStatus := 2 }
    else
      let (err, m) ← accessError env fuel write drive numsects lba edi m
      some { m with ideStatus := idePrintError env err }
  some (-m.ideStatus.toNat, m)

def ideReadSectors := ideTransferSectors false

def ideWriteSectors := ideTransferSectors true

/-- `DRESULT`. -/
inductive DResult
  | ok | error | wrprt | notrdy | parerr
  deriving DecidableEq

def diskId : Nat := 1

def Machine.newCall (m : Machine) : Machine := { m with reads := 0, polled := [] }

/-- `count` is passed on as an `unsigned char`, and the result is dropped. -/
def diskRead (env : Env) (fuel : Nat) (buff sector count : Word) (m : Machine) :
    Option (DResult × Machine) := do
  let (_, m) ← ideReadSectors env fuel diskId (count.setWidth 8) sector buff m.newCall
  some (.ok, m)

def diskWrite (env : Env) (fuel : Nat) (buff sector count : Word) (m : Machine) :
    Option (DResult × Machine) := do
  let (_, m) ← ideWriteSectors env fuel diskId (count.setWidth 8) sector buff m.newCall
  some (.ok, m)

end NctuCourses.Osdi.Disk
