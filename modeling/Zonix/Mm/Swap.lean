import Zonix.Mm.Vm

/-!
# Swapping: `kern/mm/swap.c`, `kern/mm/swap_fifo.c` and the page fault of `kern/mm/vmm.c`

The swap manager is the FIFO one, as `swap_init` sets it. The `static` counter of `swap_out`
and the two `static` variables of `swap.c` are fields of the state. One iteration of the
loop of `swap_out` is a function of its own, `swapOutOne`; what it did is an `Outcome`.
-/

namespace Zonix

def SWAP_START_SECTOR : Word := 1000#32

/-- `PG_SIZE / 512` -/
def SECTORS_PER_PAGE : Word := 8#32

namespace Vm

/-! ## `swap_fifo.c` -/

def swapFifoInitMm (s : Vm) (mm : MmStruct) : Vm × MmStruct :=
  (s.setPmm (s.pmm.setLink (listInit s.pmm.link .praListHead)),
    { mm with swapList := .praListHead })

/-- `swap_fifo_map_swappable(mm, addr, page, swap_in)`, which uses neither `addr` nor
`swap_in` and always returns 0. -/
def swapFifoMapSwappable (s : Vm) (mm : MmStruct) (page : ℕ) : Vm :=
  s.setPmm (s.pmm.setLink (listAddBefore s.pmm.link mm.swapList (.pageLink page)))

/-- `swap_fifo_swap_out_victim(mm, &page, in_tick)`: what it returns, and `page`. -/
def swapFifoSwapOutVictim (s : Vm) (mm : MmStruct) : Option (ℤ × Option ℕ × Vm) :=
  let victim := listNext s.pmm.link mm.swapList
  if victim = mm.swapList then some (-1, none, s)
  else do
    let page ← le2page victim
    some (0, some page, s.setPmm (s.pmm.setLink (listDel s.pmm.link victim)))

/-! ## The swap file system -/

def swapfsInit (s : Vm) : Vm :=
  { s with swapDevice := blkGetDevice s.blockDevices BLK_TYPE_DISK }

/-- `swap_init()`; without a disk it dereferences a null device. -/
def swapInit (s : Vm) : Option Vm := do
  let s := s.swapfsInit
  let dev ← s.swapDevice
  let availableSectors := dev.size - SWAP_START_SECTOR
  some { s with maxSwapOffset := availableSectors / SECTORS_PER_PAGE }

/-- `SWAP_START_SECTOR + ((entry >> 8) & 0xFFFFFF) * SECTORS_PER_PAGE` -/
def swapSector (entry : Word) : Word :=
  SWAP_START_SECTOR + ((entry >>> 8) &&& 0xFFFFFF#32) * SECTORS_PER_PAGE

/-- `swapfs_read(entry, page)` -/
def swapfsRead (s : Vm) (entry : Word) (page : ℕ) : ℤ × Vm :=
  let frame := pagNum (page2pa page)
  let (r, ide, buf) := s.ide.blkRead s.swapDevice (swapSector entry) (s.mem frame) SECTORS_PER_PAGE
  let s := (s.setIde ide).setFrame frame buf
  if r ≠ 0 then (-1, s) else (0, s)

/-- `swapfs_write(entry, page)` -/
def swapfsWrite (s : Vm) (entry : Word) (page : ℕ) : ℤ × Vm :=
  let frame := pagNum (page2pa page)
  let (r, ide) := s.ide.blkWrite s.swapDevice (swapSector entry) (s.mem frame) SECTORS_PER_PAGE
  let s := s.setIde ide
  if r ≠ 0 then (-1, s) else (0, s)

/-! ## `swap.c` -/

/-- `swap_in(mm, addr, page_ptr)`: what it returns, and what it stores at `page_ptr`. -/
def swapIn (s : Vm) (mm : MmStruct) (addr : Word) : Option (ℤ × Option ℕ × Vm) := do
  match ← s.allocPages 1 with
  | (none, s) => some (-1, none, s)
  | (some page, s) =>
    match ← s.getPte mm.pgdir addr false with
    | (none, s) =>
      let s ← s.pagesFree page 1
      some (-1, none, s)
    | (some (table, i), s) =>
      let swapEntry := s.mem table i
      let (r, s) := s.swapfsRead swapEntry page
      if r ≠ 0 then
        let s ← s.pagesFree page 1
        some (-1, none, s)
      else
        -- the slot of `swapEntry` is not given back: there is no table of slots
        let (_, s) ← s.pageInsert mm.pgdir page addr (PTE_P ||| PTE_W ||| PTE_U)
        some (0, some page, s.swapFifoMapSwappable mm page)

/-- The inner loop of `find_vaddr_for_page`, over one page table. -/
def findInTable (s : Vm) (pa : Word) (pdeIdx table : ℕ) : Option Word :=
  (List.range PTE_NUM).findSome? fun pteIdx =>
    let pte := s.mem table pteIdx
    if Present pte ∧ pteAddr pte = pa then some (pageAddr pdeIdx pteIdx) else none

/-- `find_vaddr_for_page(mm, page)` -/
def findVaddrForPage (s : Vm) (mm : MmStruct) (page : ℕ) : Word :=
  let pa := page2pa page
  let found := (List.range PDE_NUM).findSome? fun pdeIdx =>
    let pde := s.mem mm.pgdir pdeIdx
    if Present pde then s.findInTable pa pdeIdx (pagNum (pteAddr pde)) else none
  found.getD 0#32

/-- How an iteration of `swap_out` ended: with `break`, with `continue`, or with the page
evicted from the address. -/
inductive Outcome
  | stop
  | skip
  | evicted (victim : ℕ) (addr : Word)
deriving DecidableEq

/-- `swap_offset++; if (swap_offset >= max_swap_offset) swap_offset = 1;` -/
def nextSwapOffset (s : Vm) : Word :=
  let swapOffset := s.swapOffset + 1#32
  if s.maxSwapOffset ≤ swapOffset then 1#32 else swapOffset

/-- The end of an iteration of `swap_out`, after the page was written to its slot. -/
def evict (s : Vm) (mm : MmStruct) (table i : ℕ) (swapEntry : Word) (victim : ℕ)
    (victimAddr : Word) : Option Vm := do
  let s := s.setWord table i swapEntry
  let s := s.tlbInvl mm.pgdir victimAddr
  let s ← s.pagesFree victim 1
  some { s with swapOffset := s.nextSwapOffset }

/-- One iteration of the loop of `swap_out`. -/
def swapOutOne (s : Vm) (mm : MmStruct) : Option (Outcome × Vm) := do
  match ← s.swapFifoSwapOutVictim mm with
  | (_, none, s) => some (.stop, s)
  | (r, some victim, s) =>
    if r ≠ 0 then some (.stop, s)
    else
      -- the victim is off the queue, and stays off it where the iteration ends with `continue`
      let victimAddr := s.findVaddrForPage mm victim
      if victimAddr = 0#32 then some (.skip, s)
      else
        match ← s.getPte mm.pgdir victimAddr false with
        | (none, s) => some (.skip, s)
        | (some (table, i), s) =>
          let swapEntry := s.swapOffset <<< 8
          let (r, s) := s.swapfsWrite swapEntry victim
          if r ≠ 0 then some (.skip, s)
          else do
            let s ← s.evict mm table i swapEntry victim victimAddr
            some (.evicted victim victimAddr, s)

/-- The loop of `swap_out`: `k` iterations to go, `i` done. -/
def swapOutLoop (mm : MmStruct) : ℕ → ℤ → Vm → Option (ℤ × Vm)
  | 0, i, s => some (i, s)
  | k + 1, i, s => do
    match ← s.swapOutOne mm with
    | (.stop, s) => some (i, s)
    -- `continue` counts as an iteration too
    | (_, s) => swapOutLoop mm k (i + 1) s

/-- `swap_out(mm, n, in_tick)`; the FIFO manager does not use `in_tick`. -/
def swapOut (s : Vm) (mm : MmStruct) (n : ℤ) : Option (ℤ × Vm) :=
  swapOutLoop mm n.toNat 0 s

/-! ## `vmm_pg_fault` -/

/-- `*ptep`. A null pointer is the linear address 0 of the directory in use. -/
def loadPte (s : Vm) (ptep : Option (ℕ × ℕ)) : Option Word :=
  match ptep with
  | some (table, i) => some (s.mem table i)
  | none => do
    let pte ← s.walk (pagNum s.cr3) 0#32
    some (s.mem (pagNum pte) 0)

/-- `vmm_pg_fault(mm, error_code, addr)`, which does not use `error_code`. -/
def vmmPgFault (s : Vm) (mm : MmStruct) (addr : Word) : Option (ℤ × Vm) := do
  let perm := PTE_U
  let addr := roundDown addr
  let (ptep, s) ← s.getPte mm.pgdir addr true
  let pte ← s.loadPte ptep
  -- any entry that is not zero counts as a swap entry, also a present one
  if pte = 0#32 then
    let (_, s) ← s.pgdirAllocPage mm.pgdir addr perm
    some (0, s)
  else
    let (_, _, s) ← s.swapIn mm addr
    some (0, s)

end Vm
end Zonix
