import Zonix.Include.List
import Mathlib.Data.Set.Lattice
import Mathlib.Order.Interval.Set.Basic
import Mathlib.Algebra.GroupWithZero.Nat
import Mathlib.Order.CompletePartialOrder

/-!
# The physical memory manager: `kern/mm/pmm.h` and `kern/mm/pmm_firstfit.c`

A `PageDesc *` is the index of the descriptor in the array `pages`, so `base + n` is
addition of indices; `NULL` is `none`. The descriptors' `page_link` fields and the list
heads of the kernel live in one memory of links, because one `page_link` serves the free
list and the swap queue alike.

`property` and `nr_free` count descriptors, which are 20 bytes each in a 32-bit address
space, so they stay below `2^28` and are kept as natural numbers; `flags` keeps its width.

The loops over the free list are given `nr_free + 1` steps. A well-formed list has at most
`nr_free` entries, so that is enough; a loop that needs more returns `none`.
-/

namespace Zonix
open Lib

/-- `PageDesc`, without its `page_link`. -/
structure PageDesc where
  ref : ℤ
  flags : BitVec 32
  property : ℕ

/-- The list entries of the memory managers: the head of the allocator's free list, the
swap manager's `pra_list_head`, and the `page_link` of each descriptor. -/
inductive ListEntry
  | freeList
  | praListHead
  | pageLink (page : ℕ)
deriving DecidableEq

/-- `le2page(le, page_link)`; a list head is embedded in no descriptor. -/
def le2page : ListEntry → Option ℕ
  | .pageLink page => some page
  | _ => none

def PG_RESERVED : ℕ := 0

/-- The descriptors, the links, and `_free.nr_free`. -/
structure Pmm where
  page : ℕ → PageDesc
  link : Links ListEntry
  nrFree : ℕ

namespace Pmm

/-! ## Field accesses -/

def setPage (s : Pmm) (p : ℕ) (d : PageDesc) : Pmm :=
  { s with page := Function.update s.page p d }

def setRef (s : Pmm) (p : ℕ) (ref : ℤ) : Pmm := s.setPage p { s.page p with ref := ref }

def setFlags (s : Pmm) (p : ℕ) (flags : BitVec 32) : Pmm :=
  s.setPage p { s.page p with flags := flags }

def setProperty (s : Pmm) (p : ℕ) (property : ℕ) : Pmm :=
  s.setPage p { s.page p with property := property }

def setLink (s : Pmm) (link : Links ListEntry) : Pmm := { s with link := link }

def setNrFree (s : Pmm) (n : ℕ) : Pmm := { s with nrFree := n }

/-- `SET_PAGE_RESERVED(page)` -/
def setPageReserved (s : Pmm) (p : ℕ) : Pmm :=
  s.setFlags p ((s.page p).flags ||| (1#32 <<< PG_RESERVED))

/-- `CLEAR_PAGE_RESERVED(page)` -/
def clearPageReserved (s : Pmm) (p : ℕ) : Pmm :=
  s.setFlags p ((s.page p).flags &&& ~~~(1#32 <<< PG_RESERVED))

/-- `PAGE_RESERVED(page)` -/
def pageReserved (s : Pmm) (p : ℕ) : Prop :=
  (s.page p).flags &&& (1#32 <<< PG_RESERVED) ≠ 0#32

instance (s : Pmm) (p : ℕ) : Decidable (s.pageReserved p) :=
  inferInstanceAs (Decidable (_ ≠ _))

section Fields
variable (s : Pmm) (p q : ℕ)

@[simp] theorem setPage_page (d : PageDesc) :
    (s.setPage p d).page q = if q = p then d else s.page q := Function.update_apply ..

@[simp] theorem setPage_link (d : PageDesc) : (s.setPage p d).link = s.link := rfl

@[simp] theorem setPage_nrFree (d : PageDesc) : (s.setPage p d).nrFree = s.nrFree := rfl

@[simp] theorem setLink_page (m : Links ListEntry) : (s.setLink m).page = s.page := rfl

@[simp] theorem setLink_link (m : Links ListEntry) : (s.setLink m).link = m := rfl

@[simp] theorem setLink_nrFree (m : Links ListEntry) : (s.setLink m).nrFree = s.nrFree := rfl

@[simp] theorem setNrFree_page (n : ℕ) : (s.setNrFree n).page = s.page := rfl

@[simp] theorem setNrFree_link (n : ℕ) : (s.setNrFree n).link = s.link := rfl

@[simp] theorem setNrFree_nrFree (n : ℕ) : (s.setNrFree n).nrFree = n := rfl

@[simp] theorem setRef_link (r : ℤ) : (s.setRef p r).link = s.link := rfl

@[simp] theorem setRef_nrFree (r : ℤ) : (s.setRef p r).nrFree = s.nrFree := rfl

@[simp] theorem setFlags_link (f : BitVec 32) : (s.setFlags p f).link = s.link := rfl

@[simp] theorem setFlags_nrFree (f : BitVec 32) : (s.setFlags p f).nrFree = s.nrFree := rfl

@[simp] theorem setProperty_link (n : ℕ) : (s.setProperty p n).link = s.link := rfl

@[simp] theorem setProperty_nrFree (n : ℕ) : (s.setProperty p n).nrFree = s.nrFree := rfl

@[simp] theorem setPageReserved_link : (s.setPageReserved p).link = s.link := rfl

@[simp] theorem setPageReserved_nrFree : (s.setPageReserved p).nrFree = s.nrFree := rfl

@[simp] theorem clearPageReserved_link : (s.clearPageReserved p).link = s.link := rfl

@[simp] theorem clearPageReserved_nrFree : (s.clearPageReserved p).nrFree = s.nrFree := rfl

@[simp] theorem setProperty_property (n : ℕ) : ((s.setProperty p n).page q).property =
    if q = p then n else (s.page q).property := by
  rw [setProperty, setPage_page]
  split_ifs <;> rfl

@[simp] theorem setFlags_property (f : BitVec 32) : ((s.setFlags p f).page q).property =
    (s.page q).property := by
  rw [setFlags, setPage_page]
  split_ifs with h
  · rw [h]
  · rfl

@[simp] theorem setRef_property (r : ℤ) : ((s.setRef p r).page q).property =
    (s.page q).property := by
  rw [setRef, setPage_page]
  split_ifs with h
  · rw [h]
  · rfl

@[simp] theorem setPageReserved_property : ((s.setPageReserved p).page q).property =
    (s.page q).property := setFlags_property ..

@[simp] theorem clearPageReserved_property : ((s.clearPageReserved p).page q).property =
    (s.page q).property := setFlags_property ..

@[simp] theorem setRef_ref (r : ℤ) :
    ((s.setRef p r).page q).ref = if q = p then r else (s.page q).ref := by
  rw [setRef, setPage_page]
  split_ifs <;> rfl

@[simp] theorem setProperty_ref (n : ℕ) : ((s.setProperty p n).page q).ref = (s.page q).ref := by
  rw [setProperty, setPage_page]
  split_ifs with h
  · rw [h]
  · rfl

@[simp] theorem setFlags_ref (f : BitVec 32) :
    ((s.setFlags p f).page q).ref = (s.page q).ref := by
  rw [setFlags, setPage_page]
  split_ifs with h
  · rw [h]
  · rfl

@[simp] theorem setPageReserved_ref : ((s.setPageReserved p).page q).ref = (s.page q).ref :=
  setFlags_ref ..

@[simp] theorem clearPageReserved_ref : ((s.clearPageReserved p).page q).ref = (s.page q).ref :=
  setFlags_ref ..

/-- `PG_RESERVED` is bit 0 of `flags`. -/
theorem pageReserved_iff : s.pageReserved p ↔ (s.page p).flags.getLsbD 0 = true := by
  have hbit : ∀ x : BitVec 32, (x &&& 1#32) ≠ 0#32 ↔ x.getLsbD 0 = true := by
    intro x
    rw [Ne, BitVec.and_one_eq_setWidth_ofBool_getLsbD]
    cases x.getLsbD 0 <;> decide
  exact hbit _

@[simp] theorem pageReserved_setLink (m : Links ListEntry) :
    (s.setLink m).pageReserved p ↔ s.pageReserved p := Iff.rfl

@[simp] theorem pageReserved_setNrFree (n : ℕ) :
    (s.setNrFree n).pageReserved p ↔ s.pageReserved p := Iff.rfl

@[simp] theorem pageReserved_setProperty (n : ℕ) :
    (s.setProperty p n).pageReserved q ↔ s.pageReserved q := by
  rw [pageReserved_iff, pageReserved_iff, setProperty, setPage_page]
  split_ifs with h
  · rw [h]
  · rfl

@[simp] theorem pageReserved_setRef (r : ℤ) :
    (s.setRef p r).pageReserved q ↔ s.pageReserved q := by
  rw [pageReserved_iff, pageReserved_iff, setRef, setPage_page]
  split_ifs with h
  · rw [h]
  · rfl

@[simp] theorem pageReserved_setPageReserved :
    (s.setPageReserved p).pageReserved q ↔ q = p ∨ s.pageReserved q := by
  rw [pageReserved_iff, pageReserved_iff, setPageReserved, setFlags, setPage_page]
  split_ifs with h
  · simp [h, PG_RESERVED]
  · simp [h]

@[simp] theorem pageReserved_clearPageReserved :
    (s.clearPageReserved p).pageReserved q ↔ q ≠ p ∧ s.pageReserved q := by
  rw [pageReserved_iff, pageReserved_iff, clearPageReserved, setFlags, setPage_page]
  split_ifs with h
  · simp [h, PG_RESERVED]
  · simp [h]

@[simp] theorem pageReserved_setFlags_zero :
    (s.setFlags p 0#32).pageReserved q ↔ q ≠ p ∧ s.pageReserved q := by
  rw [pageReserved_iff, pageReserved_iff, setFlags, setPage_page]
  split_ifs with h
  · simp [h]
  · simp [h]

end Fields

/-! ## `pmm_firstfit.c` -/

/-- Memory before the kernel wrote to it: all zero. -/
def blank : Pmm := ⟨fun _ => ⟨0, 0#32, 0⟩, ⟨id, id⟩, 0⟩

def init (s : Pmm) : Pmm :=
  (s.setLink (listInit s.link .freeList)).setNrFree 0

/-- `for (p = base; p != base + n; p++) { p->ref = p->flags = p->property = 0; }` -/
def clearPages (s : Pmm) (base n : ℕ) : Pmm :=
  (List.range' base n).foldl (fun s p => s.setPage p ⟨0, 0#32, 0⟩) s

/-- `for (p = base; p != base + n; p++) { p->flags = 0; }` -/
def clearFlags (s : Pmm) (base n : ℕ) : Pmm :=
  (List.range' base n).foldl (fun s p => s.setFlags p 0#32) s

def initMemmap (s : Pmm) (base n : ℕ) : Pmm :=
  let s := s.clearPages base n
  let s := (s.setProperty base n).setPageReserved base
  let s := s.setNrFree (s.nrFree + n)
  s.setLink (listAddBefore s.link .freeList (.pageLink base))

/-- The search of `alloc`: the first listed block of at least `n` pages, from after `le`. -/
def allocSearch (s : Pmm) (n : ℕ) : ℕ → ListEntry → Option (Option (ListEntry × ℕ))
  | 0, _ => none
  | k + 1, le =>
    let le := listNext s.link le
    if le = .freeList then some none
    else do
      let p ← le2page le
      if n ≤ (s.page p).property then some (some (le, p)) else allocSearch s n k le

/-- What `alloc` does with the block it found. -/
def allocTake (s : Pmm) (n : ℕ) (le : ListEntry) (page : ℕ) : Pmm :=
  let s :=
    if n < (s.page page).property then
      let remaining := page + n
      let s := s.setProperty remaining ((s.page page).property - n)
      let s := s.setPageReserved remaining
      -- the rest is listed right behind the block that `list_del` takes off
      s.setLink (listAdd s.link le (.pageLink remaining))
    else s
  let s := s.setLink (listDel s.link le)
  let s := s.setNrFree (s.nrFree - n)
  s.clearPageReserved page

def alloc (s : Pmm) (n : ℕ) : Option (Option ℕ × Pmm) :=
  if s.nrFree < n then some (none, s)
  else do
    -- no listed block is empty, so the walk is back at the head in time
    match ← allocSearch s n (s.nrFree + 1) .freeList with
    | none => some (none, s)
    | some (le, page) => some (some page, s.allocTake n le page)

/-- The merging loop of `free`, from after `le`: the state, `base` and `prev` when it is back
at the head. -/
def freeMerge : ℕ → Pmm → ℕ → ListEntry → ListEntry → Option (Pmm × ℕ × ListEntry)
  | 0, _, _, _, _ => none
  | k + 1, s, base, le, prev =>
    let le := listNext s.link le
    if le = .freeList then some (s, base, prev)
    else do
      let p ← le2page le
      if base + (s.page base).property = p then
        let s := s.setProperty base ((s.page base).property + (s.page p).property)
        let s := s.clearPageReserved p
        -- `le` is off the list, and its own links still lead on
        freeMerge k (s.setLink (listDel s.link le)) base le prev
      else if p + (s.page p).property = base then
        let s := s.setProperty p ((s.page p).property + (s.page base).property)
        let s := s.clearPageReserved base
        freeMerge k (s.setLink (listDel s.link le)) p le prev
      -- `prev` only moves past blocks that stay
      else freeMerge k s base le le

def free (s : Pmm) (base n : ℕ) : Option Pmm := do
  let s := s.clearFlags base n
  let s := (s.setProperty base n).setPageReserved base
  let (s, base, prev) ← freeMerge (s.nrFree + 1) s base .freeList .freeList
  let s := s.setNrFree (s.nrFree + n)
  some (s.setLink (listAdd s.link prev (.pageLink base)))

def nrFreePages (s : Pmm) : ℕ := s.nrFree

/-! ## What the state says -/

/-- `p` heads a block of the free list. -/
def Listed (s : Pmm) (p : ℕ) : Prop := s.link.OnList .freeList (.pageLink p)

/-- `[p, p + p->property)` -/
def block (s : Pmm) (p : ℕ) : Set ℕ := Set.Ico p (p + (s.page p).property)

/-- The free pages: those of the listed blocks. -/
def freePages (s : Pmm) : Set ℕ := {q | ∃ p, s.Listed p ∧ q ∈ s.block p}

/-- `p` heads the first block, in list order, of at least `n` pages. -/
def FirstFit (s : Pmm) (n p : ℕ) : Prop :=
  ∃ qs rs : List ℕ, s.link.Ring .freeList ((qs ++ p :: rs).map .pageLink) ∧
    n ≤ (s.page p).property ∧ ∀ q ∈ qs, (s.page q).property < n

/-- The representation invariant of the allocator: `ps` are the heads of the listed blocks,
in list order, and `ram` the pages that were ever initialised. -/
structure WellFormed (s : Pmm) (ram : Set ℕ) (ps : List ℕ) : Prop where
  walk : s.link.Ring .freeList (ps.map .pageLink)
  positive : ∀ p ∈ ps, 1 ≤ (s.page p).property
  inRam : ∀ p ∈ ps, s.block p ⊆ ram
  disjoint : ps.Pairwise fun p q => Disjoint (s.block p) (s.block q)
  reserved : ∀ p ∈ ram, s.pageReserved p ↔ p ∈ ps
  nrFree : s.nrFree = (ps.map fun p => (s.page p).property).sum

end Pmm
end Zonix
