import Zonix.Mm.FirstFit
import Zonix.Arch.Mmu

/-!
# The frames that the allocator is given: `page_init` of `kern/mm/pmm.c`

The E820 map is the list of its entries, with 64-bit addresses and sizes. `ROUND_UP` and
`ROUND_DOWN` of `include/math.h` cast what they round to `uint32_t`, also where it is a
64-bit value. `KERNEL_END` is given by the linker, and is a parameter.
-/

namespace Zonix

def E820_RAM : Word := 1#32

/-- The physical memory that `vmm_init` maps at `KERNEL_BASE`. -/
def KERNEL_MEM_SIZE : Word := 0x38000000#32

/-- `sizeof(PageDesc)` -/
def SIZEOF_PAGE_DESC : Word := 20#32

structure E820Entry where
  addr : BitVec 64
  size : BitVec 64
  type : Word

/-! ## `include/math.h` -/

/-- `ROUND_UP(a, PG_SIZE)` of an address. -/
def roundUp (a : Word) : Word := roundDown (a + BitVec.ofNat 32 PG_SIZE - 1#32)

/-- `ROUND_UP(a, PG_SIZE)` of a 64-bit value. -/
def roundUp64 (a : BitVec 64) : BitVec 64 := (roundUp (a.setWidth 32)).setWidth 64

/-- `ROUND_DOWN(a, PG_SIZE)` of a 64-bit value. -/
def roundDown64 (a : BitVec 64) : BitVec 64 := (roundDown (a.setWidth 32)).setWidth 64

/-! ## `pmm.c` -/

/-- `page2kva(page)` -/
def page2kva (page : ℕ) : Word := KERNEL_BASE + page2pa page

/-- `pa2page(pa)` -/
def pa2page (pa : Word) : ℕ := pagNum pa

/-- `kva2page(kva)` -/
def kva2page (kva : Word) : ℕ := pa2page (kva - KERNEL_BASE)

namespace PageInit

/-- The first loop of `page_init`. -/
def maxPa (e820 : List E820Entry) : BitVec 64 :=
  e820.foldl (fun maxPa e =>
    if e.type = E820_RAM ∧ maxPa < e.addr + e.size then e.addr + e.size else maxPa) 0#64

def npage (e820 : List E820Entry) : Word := (maxPa e820 >>> PG_SHIFT).setWidth 32

/-- `P_ADDR(pages + npage)`: the physical address behind the descriptors. -/
def validMem (e820 : List E820Entry) (kernelEnd : Word) : Word :=
  roundUp kernelEnd + npage e820 * SIZEOF_PAGE_DESC - KERNEL_BASE

/-- `if (addr < valid_mem) addr = valid_mem;` -/
def start (validMem : Word) (e : E820Entry) : BitVec 64 :=
  if e.addr < validMem.setWidth 64 then validMem.setWidth 64 else e.addr

def limit (e : E820Entry) : BitVec 64 := e.addr + e.size

/-- The arguments of `init_memmap` for an entry of the map, if it is called. -/
def memmapArgs (validMem : Word) (e : E820Entry) : Option (ℕ × ℕ) :=
  if e.type = E820_RAM ∧ start validMem e < limit e then
    let addr := roundUp64 (start validMem e)
    let limit := roundDown64 (limit e)
    some (pa2page (addr.setWidth 32), (((limit - addr) >>> PG_SHIFT).setWidth 32).toNat)
  else none

/-- The calls of `init_memmap`. -/
def memmaps (e820 : List E820Entry) (kernelEnd : Word) : List (ℕ × ℕ) :=
  e820.filterMap (memmapArgs (validMem e820 kernelEnd))

end PageInit

open PageInit in
/-- `page_init()` -/
def Pmm.pageInit (s : Pmm) (e820 : List E820Entry) (kernelEnd : Word) : Pmm :=
  let s := (List.range (npage e820).toNat).foldl (fun s i => s.setPageReserved i) s
  (memmaps e820 kernelEnd).foldl (fun s m => s.initMemmap m.1 m.2) s

/-- `pmm_init()`, with the first-fit manager. -/
def Pmm.pmmInit (s : Pmm) (e820 : List E820Entry) (kernelEnd : Word) : Pmm :=
  s.init.pageInit e820 kernelEnd

/-- The pages that `page_init` registers. -/
def PageInit.registered (e820 : List E820Entry) (kernelEnd : Word) : List ℕ :=
  (memmaps e820 kernelEnd).flatMap fun m => List.range' m.1 m.2

/-! ## Where the descriptors are -/

namespace PageInit

/-- `pages + p` -/
def pageDesc (kernelEnd : Word) (p : ℕ) : Word :=
  roundUp kernelEnd + BitVec.ofNat 32 p * SIZEOF_PAGE_DESC

/-- The descriptors that `page_init` marks, and those that `init_memmap` clears or makes the base of
a block. -/
def Written (e820 : List E820Entry) (kernelEnd : Word) (p : ℕ) : Prop :=
  p < (npage e820).toNat ∨
    ∃ m ∈ memmaps e820 kernelEnd, p = m.1 ∨ m.1 ≤ p ∧ p < m.1 + m.2

/-! ### `init/head.S` -/

/-- What `__boot_pt1` maps. -/
def BOOT_MEM_SIZE : Word := 0x400000#32

/-- An entry of `__boot_pt1`. -/
def bootPt1 (i : ℕ) : Word := BitVec.ofNat 32 (i * PG_SIZE) + (PTE_P ||| PTE_W)

/-- An entry of `__boot_pgdir` when `kern_init` is called, with `__boot_pt1` in the frame `pt1`. The
entry for the first 4 MB is cleared by then. -/
def bootPgdir (pt1 i : ℕ) : Word :=
  if i = pdx KERNEL_BASE then page2pa pt1 + (PTE_P ||| PTE_U ||| PTE_W) else 0#32

/-- The address is mapped until `vmm_init` runs. -/
def BootMapped (pt1 : ℕ) (la : Word) : Prop :=
  Present (bootPgdir pt1 (pdx la)) ∧ Present (bootPt1 (ptx la))

/-- Every byte of the descriptor is. -/
def DescMapped (pt1 : ℕ) (kernelEnd : Word) (p : ℕ) : Prop :=
  ∀ b < SIZEOF_PAGE_DESC.toNat, BootMapped pt1 (pageDesc kernelEnd p + BitVec.ofNat 32 b)

end PageInit

end Zonix
