import Zonix.Cons.Stdio
import Zonix.Drivers.Blk
import Mathlib.Data.List.FinRange

/-!
# Detecting the disks: `hd_init` and `blk_init`

`identify` is what the drives answer to IDENTIFY. As before, `status` says what each read of a
status register returns, so that every set of positions may answer. The fields of `ide_device_t`
that no transfer uses are in a table of their own. `pic_enable` and the messages are left out.

A name is a string up to its NUL; behind it `hd_detect_device` copies whatever follows in memory.
-/

namespace Zonix
open Lib.Format

def MAX_IDE_DEVICES : ℕ := 4
def MAX_BLK_DEV : ℕ := 4
def BLK_SIZE : Word := 512#32
def BLK_TYPE_SWAP : ℕ := 2

def IDE0_BASE : Port := 0x1F0#16
def IDE1_BASE : Port := 0x170#16
def IRQ_IDE1 : Byte := 14#8
def IRQ_IDE2 : Byte := 15#8
def IDE_CMD_IDENTIFY : Byte := 0xEC#8

/-- A row of `ide_configs`. -/
structure IdeConfig where
  channel : Byte
  drive : Byte
  base : Port
  irq : Byte
  name : CString

/-- `hda` to `hdd` -/
def ideName (c : Char) (hc : ascii c ≠ 0#8) : CString where
  chars := [ascii 'h', ascii 'd', ascii c]
  nonzero b hb := by
    simp only [List.mem_cons, List.not_mem_nil, or_false] at hb
    rcases hb with rfl | rfl | rfl
    · decide
    · decide
    · exact hc
  length_lt := by
    show 3 < 2 ^ 31
    omega

theorem ascii_a_ne : ascii 'a' ≠ 0#8 := by decide

/-- `ide_configs` -/
def ideConfigs (devId : Fin MAX_IDE_DEVICES) : IdeConfig :=
  [⟨0#8, 0#8, IDE0_BASE, IRQ_IDE1, ideName 'a' ascii_a_ne⟩,
    ⟨0#8, 1#8, IDE0_BASE, IRQ_IDE1, ideName 'b' (by decide)⟩,
    ⟨1#8, 0#8, IDE1_BASE, IRQ_IDE2, ideName 'c' (by decide)⟩,
    ⟨1#8, 1#8, IDE1_BASE, IRQ_IDE2, ideName 'd' (by decide)⟩].get devId

/-- The other fields of `ide_device_t`. -/
structure IdeInfo where
  channel : Byte
  irq : Byte
  cylinders : BitVec 16
  heads : BitVec 16
  sectors : BitVec 16
  valid : Bool
  name : CString

/-- The driver; `identify base slave` are the words that a drive identifies itself with. -/
structure Hd extends Ide where
  identify : Port → Bool → ℕ → BitVec 16
  info : ℕ → IdeInfo
  numDevices : ℕ

/-- `outb(base + IDE_DEVICE, sel)` -/
def Ide.outbDevice (s : Ide) (base : Port) (sel : Byte) : Ide :=
  { s with regs := Function.update s.regs base { s.regs base with device := sel } }

/-- `dev->info.size`; the product of three `int`s wraps around. -/
def identifiedSize (buf : ℕ → BitVec 16) : Word :=
  let size := buf 61 ++ buf 60
  if size = 0#32 then (buf 1).setWidth 32 * (buf 3).setWidth 32 * (buf 6).setWidth 32 else size

namespace Hd

def setIde (s : Hd) (ide : Ide) : Hd := { s with toIde := ide }

/-- What `hd_detect_device` writes into the table. -/
def fill (s : Hd) (devId : Fin MAX_IDE_DEVICES) (buf : ℕ → BitVec 16) : Hd :=
  let cfg := ideConfigs devId
  { s with
    devices := Function.update s.devices devId ⟨cfg.drive, cfg.base, identifiedSize buf, true⟩
    info := Function.update s.info devId
      ⟨cfg.channel, cfg.irq, buf 1, buf 3, buf 6, true, cfg.name⟩ }

/-- The commands of `hd_detect_device`, up to the status behind IDENTIFY. -/
def probe (s : Ide) (cfg : IdeConfig) : Byte × Ide :=
  let driveSel := if cfg.drive ≠ 0#8 then IDE_DEV_SLAVE else IDE_DEV_MASTER
  let s := s.outbDevice cfg.base driveSel
  let s := (List.range 4).foldl (fun s _ => (s.inbStatus cfg.base).2) s
  let s := s.outbCommand cfg.base IDE_CMD_IDENTIFY
  s.inbStatus cfg.base

/-- `hd_detect_device(dev_id)` -/
def hdDetectDevice (s : Hd) (devId : Fin MAX_IDE_DEVICES) : ℤ × Hd :=
  let cfg := ideConfigs devId
  let probed := probe s.toIde cfg
  if probed.1 = 0#8 ∨ probed.1 = 0xFF#8 then (-1, s.setIde probed.2)
  else
    let waited := probed.2.hdWaitDataOnBase cfg.base
    if waited.1 ≠ 0 then (-1, s.setIde waited.2)
    else
      (0, (s.setIde waited.2).fill devId (s.identify cfg.base (waited.2.regs cfg.base).slave))

/-- `ide_devices[i].present = 0; ide_devices[i].info.valid = 0;` -/
def clear (s : Hd) (i : Fin MAX_IDE_DEVICES) : Hd :=
  { s with
    devices := Function.update s.devices i { s.devices i with present := false }
    info := Function.update s.info i { s.info i with valid := false } }

/-- One turn of the second loop of `hd_init`. -/
def detectNext (s : Hd) (i : Fin MAX_IDE_DEVICES) : Hd :=
  let detected := s.hdDetectDevice i
  if detected.1 = 0 then { detected.2 with numDevices := detected.2.numDevices + 1 } else detected.2

/-- `hd_init()` -/
def hdInit (s : Hd) : Hd :=
  let s := (List.finRange MAX_IDE_DEVICES).foldl clear s
  let s := { s with numDevices := 0 }
  (List.finRange MAX_IDE_DEVICES).foldl detectNext s

/-- `hd_get_device(dev_id)` -/
def hdGetDevice (s : Hd) (devId : ℕ) : Option ℕ :=
  if ¬ (s.devices devId).present then none else some devId

/-- `hd_get_device_count()` -/
def hdGetDeviceCount (s : Hd) : ℕ := s.numDevices

end Hd

/-! ## The registry -/

/-- `block_device_t` -/
structure BlkDevice extends BlockDevice where
  name : CString

/-- `blk_register(dev)`, with `block_devices` up to `num_devices`. -/
def blkRegister (blockDevices : List BlkDevice) (dev : BlkDevice) : ℤ × List BlkDevice :=
  if MAX_BLK_DEV ≤ blockDevices.length then (-1, blockDevices) else (0, blockDevices ++ [dev])

/-- One turn of the loop of `blk_init` that registers the disks. -/
def registerNext (s : Hd) (blockDevices : List BlkDevice) (i : ℕ) : List BlkDevice :=
  match s.hdGetDevice i with
  | none => blockDevices
  | some ideDev =>
    if (s.devices ideDev).present then
      (blkRegister blockDevices
        { type := BLK_TYPE_DISK
          size := (s.devices ideDev).size
          privateData := i
          name := (s.info ideDev).name }).2
    else blockDevices

/-- `blk_init()` -/
def blkInit (s : Hd) : List BlkDevice × Hd :=
  let s := s.hdInit
  let numHd := s.hdGetDeviceCount
  ((List.range (min numHd MAX_BLK_DEV)).foldl (registerNext s) [], s)

end Zonix
