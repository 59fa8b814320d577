import Zonix.Drivers.Hd

/-!
# Block devices: `kern/drivers/blk.c`

Every device that `blk_init` registers reads and writes through the disk wrappers, so the
two function pointers of `block_device_t` are not fields here.
-/

namespace Zonix

def BLK_TYPE_DISK : ℕ := 1

structure BlockDevice where
  type : ℕ
  size : Word
  privateData : ℕ

/-- `blk_get_device(type)`, from the registered devices. -/
def blkGetDevice (blockDevices : List BlockDevice) (type : ℕ) : Option BlockDevice :=
  blockDevices.find? fun dev => dev.type = type

namespace Ide

/-- `blk_read(dev, blockno, buf, nblocks)`; the wrapper takes the disk's number from
`private_data`. -/
def blkRead (s : Ide) (dev : Option BlockDevice) (blockno : Word) (buf : ℕ → Word)
    (nblocks : Word) : ℤ × Ide × (ℕ → Word) :=
  match dev with
  | none => (-1, s, buf)
  | some dev => s.hdReadDevice dev.privateData blockno buf nblocks

def blkWrite (s : Ide) (dev : Option BlockDevice) (blockno : Word) (buf : ℕ → Word)
    (nblocks : Word) : ℤ × Ide :=
  match dev with
  | none => (-1, s)
  | some dev => s.hdWriteDevice dev.privateData blockno buf nblocks

end Ide
end Zonix
