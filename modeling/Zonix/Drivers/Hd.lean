import Zonix.Arch.Mmu
import Mathlib.Data.Int.Notation
import Mathlib.Logic.Function.Basic

/-!
# The IDE disks: `kern/drivers/hd.c`

The hardware is a drive model: a command executes on the drive that the device register of
its channel selects, at the LBA28 address that the registers hold, and a sector keeps what
was last written to it. What a read of a status register returns is up to the environment:
`status` says it for each read, so that drives that time out or fail, at any sector, are
all covered. The data register moves the sector at that address whatever command was issued last,
in whichever direction it is used; the commands themselves are on record in `commands`.

A sector is 128 words; a buffer is a function from word offsets.
-/

namespace Zonix

abbrev Byte := BitVec 8
abbrev Port := BitVec 16

/-- `SECTOR_SIZE`, in words. -/
def SECTOR_WORDS : ℕ := 128

def IDE_BSY : Byte := 0x80#8
def IDE_DRDY : Byte := 0x40#8
def IDE_DRQ : Byte := 0x08#8
def IDE_ERR : Byte := 0x01#8

def IDE_CMD_READ : Byte := 0x20#8
def IDE_CMD_WRITE : Byte := 0x30#8

def IDE_DEV_MASTER : Byte := 0xE0#8
def IDE_DEV_SLAVE : Byte := 0xF0#8

/-- The registers of a channel that a command reads. -/
structure TaskFile where
  sectorCount : Byte
  lbaLow : Byte
  lbaMid : Byte
  lbaHigh : Byte
  device : Byte

/-- The LBA28 address in the registers. -/
def TaskFile.lba (r : TaskFile) : ℕ :=
  r.lbaLow.toNat + r.lbaMid.toNat * 2 ^ 8 + r.lbaHigh.toNat * 2 ^ 16 +
    r.device.toNat % 16 * 2 ^ 24

/-- The drive that the device register selects. -/
def TaskFile.slave (r : TaskFile) : Bool := r.device.getLsbD 4

structure Command where
  base : Port
  regs : TaskFile
  code : Byte

/-- `ide_device_t`, as far as the transfers use it. -/
structure IdeDevice where
  drive : Byte
  base : Port
  size : Word
  present : Bool

/-- The disks and the driver's table of them. `sector base slave lba` is the content of a
sector, `commands` all commands issued, the newest first. -/
structure Ide where
  devices : ℕ → IdeDevice
  status : Port → ℕ → Byte
  polls : ℕ
  regs : Port → TaskFile
  commands : List Command
  sector : Port → Bool → ℕ → ℕ → Word

namespace Ide

/-! ## Ports -/

/-- `inb(base + IDE_STATUS)` -/
def inbStatus (s : Ide) (base : Port) : Byte × Ide :=
  (s.status base s.polls, { s with polls := s.polls + 1 })

/-- The bytes written to `IDE_SECTOR_COUNT`, `IDE_LBA_LOW`, `IDE_LBA_MID`, `IDE_LBA_HIGH` and
`IDE_DEVICE` before a command. -/
def taskFile (driveSel : Byte) (lba : Word) : TaskFile where
  sectorCount := 1#8
  lbaLow := (lba &&& 0xFF#32).setWidth 8
  lbaMid := ((lba >>> 8) &&& 0xFF#32).setWidth 8
  lbaHigh := ((lba >>> 16) &&& 0xFF#32).setWidth 8
  device := driveSel ||| ((lba >>> 24) &&& 0x0F#32).setWidth 8

def outbRegs (s : Ide) (base : Port) (driveSel : Byte) (lba : Word) : Ide :=
  { s with regs := Function.update s.regs base (taskFile driveSel lba) }

/-- `outb(base + IDE_COMMAND, code)` -/
def outbCommand (s : Ide) (base : Port) (code : Byte) : Ide :=
  { s with commands := ⟨base, s.regs base, code⟩ :: s.commands }

/-- `insw(base + IDE_DATA, dst, SECTOR_SIZE / 2)` to sector `i` of the buffer. -/
def inswData (s : Ide) (base : Port) (dst : ℕ → Word) (i : ℕ) : ℕ → Word := fun w =>
  if w / SECTOR_WORDS = i then
    s.sector base (s.regs base).slave (s.regs base).lba (w % SECTOR_WORDS)
  else dst w

/-- `outsw(base + IDE_DATA, src, SECTOR_SIZE / 2)` from sector `i` of the buffer. -/
def outswData (s : Ide) (base : Port) (src : ℕ → Word) (i : ℕ) : Ide :=
  { s with sector := fun b slave lba w =>
      if b = base ∧ slave = (s.regs base).slave ∧ lba = (s.regs base).lba ∧ w < SECTOR_WORDS then
        src (i * SECTOR_WORDS + w)
      else s.sector b slave lba w }

/-! ## `hd.c` -/

/-- The loop of `hd_wait_ready_on_base`. -/
def hdWaitReady (base : Port) : ℕ → Ide → ℤ × Ide
  | 0, s => (-1, s)
  | timeout + 1, s =>
    let (status, s) := s.inbStatus base
    if status &&& (IDE_BSY ||| IDE_DRDY) = IDE_DRDY then (0, s)
    else hdWaitReady base timeout s

def hdWaitReadyOnBase (s : Ide) (base : Port) : ℤ × Ide := hdWaitReady base 100000 s

/-- The loop of `hd_wait_data_on_base`. -/
def hdWaitData (base : Port) : ℕ → Ide → ℤ × Ide
  | 0, s => (-1, s)
  | timeout + 1, s =>
    let (status, s) := s.inbStatus base
    if status &&& (IDE_BSY ||| IDE_DRQ) = IDE_DRQ then (0, s)
    -- an error is only looked at while there is no data
    else if status &&& IDE_ERR ≠ 0#8 then (-1, s)
    else hdWaitData base timeout s

def hdWaitDataOnBase (s : Ide) (base : Port) : ℤ × Ide := hdWaitData base 100000 s

/-- `dev->drive ? IDE_DEV_SLAVE : IDE_DEV_MASTER` -/
def driveSel (dev : IdeDevice) : Byte := if dev.drive ≠ 0#8 then IDE_DEV_SLAVE else IDE_DEV_MASTER

/-- The loop of `hd_read_device`: `k` sectors to go, from sector `i` on. -/
def hdReadLoop (dev : IdeDevice) (secno : Word) : ℕ → ℕ → Ide → (ℕ → Word) →
    ℤ × Ide × (ℕ → Word)
  | 0, _, s, dst => (0, s, dst)
  | k + 1, i, s, dst =>
    let lba := secno + BitVec.ofNat 32 i
    let (r, s) := s.hdWaitReadyOnBase dev.base
    if r ≠ 0 then (-1, s, dst)
    else
      let s := s.outbRegs dev.base (driveSel dev) lba
      let s := s.outbCommand dev.base IDE_CMD_READ
      let (r, s) := s.hdWaitDataOnBase dev.base
      if r ≠ 0 then (-1, s, dst)
      else hdReadLoop dev secno k (i + 1) s (s.inswData dev.base dst i)

/-- `hd_read_device(dev_id, secno, dst, nsecs)`, with the buffer it leaves behind. -/
def hdReadDevice (s : Ide) (devId : ℕ) (secno : Word) (dst : ℕ → Word) (nsecs : Word) :
    ℤ × Ide × (ℕ → Word) :=
  let dev := s.devices devId
  if ¬ dev.present then (-1, s, dst)
  else if dev.size < secno + nsecs then (-1, s, dst)
  else hdReadLoop dev secno nsecs.toNat 0 s dst

/-- The loop of `hd_write_device`: `k` sectors to go, from sector `i` on. -/
def hdWriteLoop (dev : IdeDevice) (secno : Word) (src : ℕ → Word) : ℕ → ℕ → Ide → ℤ × Ide
  | 0, _, s => (0, s)
  | k + 1, i, s =>
    let lba := secno + BitVec.ofNat 32 i
    let (r, s) := s.hdWaitReadyOnBase dev.base
    if r ≠ 0 then (-1, s)
    else
      let s := s.outbRegs dev.base (driveSel dev) lba
      let s := s.outbCommand dev.base IDE_CMD_WRITE
      let (r, s) := s.hdWaitDataOnBase dev.base
      if r ≠ 0 then (-1, s)
      else
        let s := s.outswData dev.base src i
        let (r, s) := s.hdWaitReadyOnBase dev.base
        if r ≠ 0 then (-1, s)
        else hdWriteLoop dev secno src k (i + 1) s

def hdWriteDevice (s : Ide) (devId : ℕ) (secno : Word) (src : ℕ → Word) (nsecs : Word) :
    ℤ × Ide :=
  let dev := s.devices devId
  if ¬ dev.present then (-1, s)
  else if dev.size < secno + nsecs then (-1, s)
  else hdWriteLoop dev secno src nsecs.toNat 0 s

end Ide
end Zonix
