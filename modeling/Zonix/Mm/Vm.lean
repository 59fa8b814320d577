import Zonix.Mm.FirstFit
import Zonix.Drivers.Blk

/-!
# Virtual memory: `kern/mm/pmm.c` and `kern/mm/vmm.h`

The state of the kernel as far as paging and swapping use it. Physical memory is words by
frame and offset; the kernel reaches it through the direct map, so `K_ADDR(pa)` is frame
`pagNum pa`, and a `pde_t *` or `pte_t *` is a frame and an index. The descriptors and the
list heads are kernel data outside these frames.

The direct map ends at frame `0x38000`. No frame behind it is ever allocated: its descriptor lies
behind the 4 MB that `head.S` maps, and `page_init`, which writes all descriptors up to that one,
faults before it registers anything (`Mm.Descriptors`). While the direct map is being built there
is less than all of it, and `Mm.VmmInit` goes through the page tables for every access.

The functions return `none` when they do not come back: a walk along links that never
returns to its head, or an access that the MMU refuses.
-/

namespace Zonix

structure Vm where
  pmm : Pmm
  /-- `mem frame i` is word `i` of a frame. -/
  mem : ℕ → ℕ → Word
  cr3 : Word
  /-- The entry that the TLB holds for a page. -/
  tlb : ℕ → Option Word
  ide : Ide
  blockDevices : List BlockDevice
  swapDevice : Option BlockDevice
  maxSwapOffset : Word
  swapOffset : Word

/-- `mm_struct`: the frame of its page directory, and the head of its swap queue. -/
structure MmStruct where
  pgdir : ℕ
  swapList : ListEntry

def PAGE_REF_INIT : ℤ := 1
def INSERT_FAILURE : ℤ := 0
def INSERT_SUCCESS : ℤ := 1

namespace Vm

/-! ## Accesses -/

def setPmm (s : Vm) (pmm : Pmm) : Vm := { s with pmm := pmm }

def setIde (s : Vm) (ide : Ide) : Vm := { s with ide := ide }

/-- Replace the content of a frame. -/
def setFrame (s : Vm) (frame : ℕ) (content : ℕ → Word) : Vm :=
  { s with mem := Function.update s.mem frame content }

/-- `((uintptr_t *)K_ADDR(page2pa(frame)))[i] = v` -/
def setWord (s : Vm) (frame i : ℕ) (v : Word) : Vm :=
  s.setFrame frame (Function.update (s.mem frame) i v)

section Fields
variable (s : Vm) (frame i : ℕ) (v : Word) (content : ℕ → Word) (pmm : Pmm) (ide : Ide)

@[simp] theorem setPmm_pmm : (s.setPmm pmm).pmm = pmm := rfl

@[simp] theorem setPmm_mem : (s.setPmm pmm).mem = s.mem := rfl

@[simp] theorem setIde_ide : (s.setIde ide).ide = ide := rfl

@[simp] theorem setWord_pmm : (s.setWord frame i v).pmm = s.pmm := rfl

theorem setFrame_mem (f j : ℕ) : (s.setFrame frame content).mem f j =
    if f = frame then content j else s.mem f j := by
  rw [setFrame]
  show Function.update s.mem frame content f j = _
  rw [Function.update_apply]
  split_ifs <;> rfl

theorem setWord_mem (f j : ℕ) : (s.setWord frame i v).mem f j =
    if f = frame ∧ j = i then v else s.mem f j := by
  rw [setWord, setFrame_mem, Function.update_apply]
  by_cases hf : f = frame
  · rw [if_pos hf, hf]
    by_cases hj : j = i <;> simp [hj]
  · simp [hf]

end Fields

/-! ## `pmm.c` -/

/-- `alloc_pages(n)`; `none` inside is `NULL`. Interrupts are off while it runs. -/
def allocPages (s : Vm) (n : ℕ) : Option (Option ℕ × Vm) := do
  let (page, pmm) ← s.pmm.alloc n
  some (page, s.setPmm pmm)

def pagesFree (s : Vm) (base n : ℕ) : Option Vm := do
  let pmm ← s.pmm.free base n
  some (s.setPmm pmm)

/-- `get_pte(pgdir, la, create)`: the page table and the index in it. -/
def getPte (s : Vm) (pgdir : ℕ) (la : Word) (create : Bool) : Option (Option (ℕ × ℕ) × Vm) :=
  if Present (s.mem pgdir (pdx la)) then
    some (some (pagNum (pteAddr (s.mem pgdir (pdx la))), ptx la), s)
  else if !create then some (none, s)
  else do
    match ← s.allocPages 1 with
    | (none, s) => some (none, s)
    | (some page, s) =>
      let s := s.setPmm (s.pmm.setRef page PAGE_REF_INIT)
      let pa := page2pa page
      -- all entries are empty before the directory leads to them
      let s := s.setFrame (pagNum pa) fun _ => 0#32
      let s := s.setWord pgdir (pdx la) (pa ||| PTE_USER)
      some (some (pagNum (pteAddr (s.mem pgdir (pdx la))), ptx la), s)

/-- `invlpg(la)`, when `pgdir` is the directory in use. -/
def tlbInvl (s : Vm) (pgdir : ℕ) (la : Word) : Vm :=
  if s.cr3 = page2pa pgdir then { s with tlb := Function.update s.tlb (pagNum la) none } else s

@[simp] theorem tlbInvl_pmm (s : Vm) (pgdir : ℕ) (la : Word) :
    (s.tlbInvl pgdir la).pmm = s.pmm := by
  rw [tlbInvl]
  split_ifs <;> rfl

@[simp] theorem tlbInvl_mem (s : Vm) (pgdir : ℕ) (la : Word) :
    (s.tlbInvl pgdir la).mem = s.mem := by
  rw [tlbInvl]
  split_ifs <;> rfl

@[simp] theorem tlbInvl_cr3 (s : Vm) (pgdir : ℕ) (la : Word) :
    (s.tlbInvl pgdir la).cr3 = s.cr3 := by
  rw [tlbInvl]
  split_ifs <;> rfl

@[simp] theorem tlbInvl_ide (s : Vm) (pgdir : ℕ) (la : Word) :
    (s.tlbInvl pgdir la).ide = s.ide := by
  rw [tlbInvl]
  split_ifs <;> rfl

@[simp] theorem tlbInvl_swapDevice (s : Vm) (pgdir : ℕ) (la : Word) :
    (s.tlbInvl pgdir la).swapDevice = s.swapDevice := by
  rw [tlbInvl]
  split_ifs <;> rfl

def pageInsert (s : Vm) (pgdir page : ℕ) (la perm : Word) : Option (ℤ × Vm) := do
  match ← s.getPte pgdir la true with
  | (none, s) => some (INSERT_FAILURE, s)
  | (some (table, i), s) =>
    -- whatever the entry held is overwritten, and the page it led to keeps its count
    let s := s.setPmm (s.pmm.setRef page ((s.pmm.page page).ref + 1))
    let s := s.setWord table i (page2pa page ||| perm ||| PTE_P)
    some (INSERT_SUCCESS, s.tlbInvl pgdir la)

/-- `pgdir_alloc_page(pgdir, la, perm)`; what `page_insert` returns is not looked at. -/
def pgdirAllocPage (s : Vm) (pgdir : ℕ) (la perm : Word) : Option (Option ℕ × Vm) := do
  match ← s.allocPages 1 with
  | (none, s) => some (none, s)
  | (some page, s) =>
    -- after a failure the page is neither mapped nor freed
    let (_, s) ← s.pageInsert pgdir page la perm
    some (some page, s)

/-! ## What the tables say -/

/-- The page table entry of an address; where there is no page table, the empty entry. -/
def pteAt (s : Vm) (pgdir : ℕ) (la : Word) : Word :=
  if Present (s.mem pgdir (pdx la)) then s.mem (pagNum (s.mem pgdir (pdx la))) (ptx la) else 0#32

/-- What walking the tables for an address yields: the entry that maps its page. -/
def walk (s : Vm) (pgdir : ℕ) (la : Word) : Option Word :=
  if Present (s.pteAt pgdir la) then some (s.pteAt pgdir la) else none

end Vm
end Zonix
