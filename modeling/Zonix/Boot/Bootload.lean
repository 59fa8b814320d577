import Zonix.Drivers.Hd
import Zonix.Lib.X86
import Zonix.Lib.Loop

/-!
# The boot loader: `boot/bootload.c`

`bootmain` reads the first 4096 bytes of the kernel's ELF image to `KERNEL_HEADER`, then every
segment to where it is linked, sector by sector, and jumps to the entry point. The image starts
in the sector behind the boot sector.

The drive is as in `Drivers.Hd`: a command executes at the address in the registers, and what a
read of the status register returns is up to the environment. The loader's own code and locals are
not part of the memory.
-/

namespace Zonix
open Lib.X86 Lib.Loop

def KERNEL_HEADER : Word := 0x10000#32

def ELF_MAGIC : Word := 0x464C457F#32

def SECT_SIZE : Word := 512#32

/-- The first IDE channel: what each read of the status register returns, and the bytes of both
disks. -/
structure Channel where
  status : ℕ → Byte
  disk : Bool → ℕ → Byte

/-- What the loader works on; `buffer` is the sector that the drive has ready. -/
structure Boot where
  mem : Memory
  regs : TaskFile
  buffer : ℕ → Byte
  polls : ℕ

namespace Boot
variable (hw : Channel)

/-! ## Ports -/

def poll (s : Boot) : Boot := { s with polls := s.polls + 1 }

/-- `outb(0x1F2, 1)` to `outb(0x1F6, ((secno >> 24) & 0xF) | 0xE0)` -/
def outbRegs (s : Boot) (secno : Word) : Boot :=
  { s with regs := Ide.taskFile IDE_DEV_MASTER secno }

/-- `outb(0x1F7, 0x20)` -/
def outbCommand (s : Boot) : Boot :=
  { s with buffer := fun i => hw.disk s.regs.slave (512 * s.regs.lba + i) }

/-- `insl(0x1F0, dst, SECT_SIZE / 4)` -/
def insl (s : Boot) (dst : Word) : Boot :=
  { s with mem := fun x => if (x - dst).toNat < 512 then s.buffer (x - dst).toNat else s.mem x }

/-! ## `bootload.c` -/

/-- `waitdisk`; the last read of the status register is the one that ends the loop. -/
def waitdisk : ℕ → Boot → Option Boot :=
  andThen (loop (fun s => hw.status s.polls &&& 0xC0#8 ≠ 0x40#8) fun _ s => some s.poll)
    fun _ s => some s.poll

/-- `readsect(dst, secno)` -/
def readsect (dst secno : Word) : ℕ → Boot → Option Boot :=
  andThen (waitdisk hw) <|
    andThen (fun _ s => some ((s.outbRegs secno).outbCommand hw)) <|
      andThen (waitdisk hw) fun _ s => some (s.insl dst)

/-- The variables of `readseg`. -/
structure Reading where
  va : Word
  secno : Word
  boot : Boot

def Reading.next (l : Reading) (s : Boot) : Reading := ⟨l.va + SECT_SIZE, l.secno + 1#32, s⟩

/-- The body of the loop of `readseg`, and its `va += SECT_SIZE, secno++`. -/
def readNext (fuel : ℕ) (l : Reading) : Option Reading :=
  (readsect hw l.va l.secno fuel l.boot).map l.next

/-- `readseg(va, count, offset)` -/
def readseg (va count offset : Word) (fuel : ℕ) (s : Boot) : Option Boot :=
  let endVa := va + count
  let va := va - offset % SECT_SIZE
  let secno := offset / SECT_SIZE + 1#32
  (loop (fun l => l.va < endVa) (readNext hw) fuel ⟨va, secno, s⟩).map Reading.boot

/-! The fields of the ELF header at `KERNEL_HEADER`, and of the program header at `ph`. -/

def eMagic (s : Boot) : Word := load s.mem KERNEL_HEADER

def eEntry (s : Boot) : Word := load s.mem (KERNEL_HEADER + 24#32)

def ePhoff (s : Boot) : Word := load s.mem (KERNEL_HEADER + 28#32)

def ePhnum (s : Boot) : BitVec 16 := load16 s.mem (KERNEL_HEADER + 44#32)

def pOffset (s : Boot) (ph : Word) : Word := load s.mem (ph + 4#32)

def pVa (s : Boot) (ph : Word) : Word := load s.mem (ph + 8#32)

def pMemsz (s : Boot) (ph : Word) : Word := load s.mem (ph + 20#32)

/-- The variables of the loop of `bootmain`. -/
structure Headers where
  ph : Word
  boot : Boot

/-- The body of the loop of `bootmain`, and its `ph++`. -/
def loadNext (fuel : ℕ) (l : Headers) : Option Headers :=
  let s := l.boot
  (readseg hw (s.pVa l.ph &&& 0xFFFFFF#32) (s.pMemsz l.ph) (s.pOffset l.ph) fuel s).map
    fun s => ⟨l.ph + 32#32, s⟩

/-- The loop of `bootmain`. -/
def loadSegments (fuel : ℕ) (s : Boot) : Option Boot :=
  let ph := KERNEL_HEADER + s.ePhoff
  let eph := ph + 32#32 * s.ePhnum.setWidth 32
  (loop (fun l => l.ph < eph) (loadNext hw) fuel ⟨ph, s⟩).map Headers.boot

/-- Where `bootmain` goes. -/
inductive Jump
  | bad
  | entry (pc : Word)
deriving DecidableEq

def bootmain (fuel : ℕ) (s : Boot) : Option (Jump × Boot) := do
  let s ← readseg hw KERNEL_HEADER (SECT_SIZE * 8#32) 0#32 fuel s
  if s.eMagic ≠ ELF_MAGIC then some (.bad, s)
  else
    let s ← loadSegments hw fuel s
    some (.entry (s.eEntry &&& 0xFFFFFF#32), s)

end Boot
end Zonix
