import Zonix.Mm.SwapTheorems
import Zonix.Lib.Machine

/-!
# Histories of one address space

`VmOp` are the calls that allocate, map, queue and swap pages of one `mm_struct`. Which calls
a history may make is up to each theorem (`ok`): the callers' obligations are written there.
-/

namespace Zonix
open Lib

inductive VmOp
  | allocPages (n : ℕ)
  | pagesFree (page : ℕ)
  | getPte (la : Word) (create : Bool)
  | pageInsert (page : ℕ) (la perm : Word)
  | pgdirAllocPage (la perm : Word)
  | mapSwappable (addr : Word) (page : ℕ)
  | swapIn (addr : Word)
  | swapOut (n : ℤ)
  | pgFault (addr : Word)

namespace Vm

def exec (mm : MmStruct) (s : Vm) : VmOp → Option Vm
  | .allocPages n => (s.allocPages n).map Prod.snd
  | .pagesFree page => s.pagesFree page 1
  | .getPte la create => (s.getPte mm.pgdir la create).map Prod.snd
  | .pageInsert page la perm => (s.pageInsert mm.pgdir page la perm).map Prod.snd
  | .pgdirAllocPage la perm => (s.pgdirAllocPage mm.pgdir la perm).map Prod.snd
  | .mapSwappable _ page => some (s.swapFifoMapSwappable mm page)
  | .swapIn addr => (s.swapIn mm addr).map fun x => x.2.2
  | .swapOut n => (s.swapOut mm n).map Prod.snd
  | .pgFault addr => (s.vmmPgFault mm addr).map Prod.snd

/-- The page is one of those in use, and not free. -/
def Allocated (s : Vm) (ram : Set ℕ) (page : ℕ) : Prop := page ∈ ram ∧ page ∉ s.pmm.freePages

/-- The page is on the swap queue. -/
def Queued (s : Vm) (mm : MmStruct) (page : ℕ) : Prop :=
  s.pmm.link.OnList mm.swapList (.pageLink page)

section Lists
variable {s s' : Vm} {mm : MmStruct} {ram : Set ℕ} {qs : List ℕ}

theorem queued_iff (h : s.pmm.Lists ram qs) (hmm : mm.swapList = .praListHead) (page : ℕ) :
    s.Queued mm page ↔ page ∈ qs := by
  rw [Queued, hmm, h.queue.onList_iff, List.mem_map]
  simp

/-! ## One link, one list -/

/-- The callers free and queue only pages that are allocated and not queued. -/
def okLink (mm : MmStruct) (ram : Set ℕ) (s : Vm) : VmOp → Prop
  | .allocPages n => n = 1
  | .pagesFree page => s.Allocated ram page ∧ ¬ s.Queued mm page
  | .mapSwappable _ page => s.Allocated ram page ∧ ¬ s.Queued mm page
  | _ => True

theorem vmmPgFault_lists (h : s.pmm.Lists ram qs) (hmm : mm.swapList = .praListHead) {addr : Word}
    {r : ℤ} (heq : s.vmmPgFault mm addr = some (r, s')) : ∃ qs', s'.pmm.Lists ram qs' := by
  obtain ⟨bs, hinv⟩ := h.free
  obtain ⟨ptep, t, hget, hspec⟩ := getPte_spec hinv mm.pgdir (roundDown addr) true
  have ht := hspec.lists h
  obtain ⟨bs', hinv'⟩ := ht.free
  obtain ⟨p, u, hall, hallspec⟩ := pgdirAllocPage_spec hinv' mm.pgdir (roundDown addr) PTE_U
  obtain ⟨r', p', u', hin, -, hu'⟩ := swapIn_spec ht hmm (roundDown addr)
  cases hpte : t.loadPte ptep with
  | none => simp [vmmPgFault, hget, hpte] at heq
  | some pte =>
    by_cases hz : pte = 0#32
    · simp only [vmmPgFault, hget, hpte, hz, hall, Option.bind_eq_bind, Option.bind_some, if_true,
        Option.some.injEq, Prod.mk.injEq] at heq
      exact heq.2 ▸ ⟨qs, hallspec.lists ht⟩
    · simp only [vmmPgFault, hget, hpte, hz, hin, Option.bind_eq_bind, Option.bind_some, if_false,
        Option.some.injEq, Prod.mk.injEq] at heq
      exact heq.2 ▸ ⟨_, hu'⟩

theorem exec_lists (h : s.pmm.Lists ram qs) (hmm : mm.swapList = .praListHead) {op : VmOp}
    (hok : okLink mm ram s op) (heq : exec mm s op = some s') : ∃ qs', s'.pmm.Lists ram qs' := by
  obtain ⟨bs, hinv⟩ := h.free
  cases op with
  | allocPages n =>
    obtain rfl : n = 1 := hok
    rcases hinv.alloc_cases le_rfl with ⟨hall, -⟩ | ⟨page, pmm, hall, ht⟩
    · simp only [exec, allocPages, hall, Option.bind_eq_bind, Option.bind_some, Option.map_some,
        Option.some.injEq] at heq
      exact heq ▸ ⟨qs, h⟩
    · simp only [exec, allocPages, hall, Option.bind_eq_bind, Option.bind_some, Option.map_some,
        Option.some.injEq] at heq
      exact heq ▸ ⟨qs, h.takes ht⟩
  | pagesFree page =>
    obtain ⟨⟨hram, hfree⟩, hq⟩ := hok
    rw [queued_iff h hmm] at hq
    obtain ⟨pmm, hfr, -, hlists⟩ := h.free_one hram hfree hq
    simp only [exec, pagesFree, hfr, Option.bind_eq_bind, Option.bind_some,
      Option.some.injEq] at heq
    exact heq ▸ ⟨qs, hlists⟩
  | getPte la create =>
    obtain ⟨r, t, hget, hspec⟩ := getPte_spec hinv mm.pgdir la create
    simp only [exec, hget, Option.map_some, Option.some.injEq] at heq
    exact heq ▸ ⟨qs, hspec.lists h⟩
  | pageInsert page la perm =>
    obtain ⟨r, t, hins, hspec⟩ := pageInsert_spec hinv mm.pgdir page la perm
    simp only [exec, hins, Option.map_some, Option.some.injEq] at heq
    exact heq ▸ ⟨qs, hspec.lists h⟩
  | pgdirAllocPage la perm =>
    obtain ⟨p, t, hall, hspec⟩ := pgdirAllocPage_spec hinv mm.pgdir la perm
    simp only [exec, hall, Option.map_some, Option.some.injEq] at heq
    exact heq ▸ ⟨qs, hspec.lists h⟩
  | mapSwappable addr page =>
    obtain ⟨⟨hram, hfree⟩, hq⟩ := hok
    rw [queued_iff h hmm] at hq
    simp only [exec, swapFifoMapSwappable, hmm, Option.some.injEq] at heq
    exact heq ▸ ⟨_, (h.enqueue hram hfree hq).1⟩
  | swapIn addr =>
    obtain ⟨r, p, t, hin, -, hlists⟩ := swapIn_spec h hmm addr
    simp only [exec, hin, Option.map_some, Option.some.injEq] at heq
    exact heq ▸ ⟨_, hlists⟩
  | swapOut n =>
    obtain ⟨r, t, hout, hlists⟩ := swapOut_lists h hmm n
    simp only [exec, hout, Option.map_some, Option.some.injEq] at heq
    exact heq ▸ hlists
  | pgFault addr =>
    cases hf : s.vmmPgFault mm addr with
    | none => simp [exec, hf] at heq
    | some x =>
      obtain ⟨r, t⟩ := x
      simp only [exec, hf, Option.map_some, Option.some.injEq] at heq
      exact heq ▸ vmmPgFault_lists h hmm hf

/-- `swap_init_mm` leaves the free list as it was. -/
theorem swapFifoInitMm_inv (mm : MmStruct) {bs : List Extent} (h : s.pmm.Inv ram bs) :
    (s.swapFifoInitMm mm).1.pmm.Inv ram bs := by
  have hsame := listInit_sameOff s.pmm.link .praListHead
  have hring : (listInit s.pmm.link .praListHead).Ring .freeList (entries bs) :=
    h.ring.frame hsame (by simp) (by simp [entries])
  exact ⟨⟨hring, h.property, h.separate, h.nrFree⟩, h.inRam, h.reserved⟩

/-- It makes the queue empty. -/
theorem swapFifoInitMm_lists (mm : MmStruct) {bs : List Extent} (h : s.pmm.Inv ram bs) :
    (s.swapFifoInitMm mm).1.pmm.Lists ram [] :=
  ⟨⟨bs, swapFifoInitMm_inv mm h⟩, listInit_ring s.pmm.link .praListHead, by simp, by simp⟩

/-- From the initialisation of the queue on, whatever the calls, the page tables and the
disks do: both lists are well-formed rings, and no page of the queue heads or lies in a free
block. -/
theorem run_lists_disjoint (mm : MmStruct) {bs : List Extent} (h : s.pmm.Inv ram bs)
    (hrun : Run (exec (s.swapFifoInitMm mm).2) (okLink (s.swapFifoInitMm mm).2 ram)
      (s.swapFifoInitMm mm).1 s') :
    ∃ ps qs : List ℕ, s'.pmm.link.Ring .freeList (ps.map .pageLink) ∧
      s'.pmm.link.Ring .praListHead (qs.map .pageLink) ∧
      ∀ p ∈ qs, p ∉ ps ∧ p ∉ s'.pmm.freePages := by
  have hlists : ∃ qs, s'.pmm.Lists ram qs := by
    refine hrun.invariant (I := fun t => ∃ qs, t.pmm.Lists ram qs)
      ⟨[], swapFifoInitMm_lists mm h⟩ ?_
    rintro t op u ⟨qs, hqs⟩ hok heq
    exact exec_lists hqs rfl hok heq
  obtain ⟨qs, hlists⟩ := hlists
  obtain ⟨bs', hinv⟩ := hlists.free
  refine ⟨bs'.map Extent.base, qs, ?_, hlists.queue, fun p hp => ⟨fun hmem => ?_,
    hlists.notFree p hp⟩⟩
  · rw [List.map_map]
    exact hinv.ring
  · refine hlists.notFree p hp ?_
    rw [hinv.toRep.freePages_eq]
    exact Pmm.base_mem_cover hinv.separate p hmem

end Lists

/-- Page 4 is allocated, queued and mapped; the page table takes page 5. -/
theorem run_lists_sample :
    ∃ s, [VmOp.allocPages 1, .mapSwappable 0x400000#32 4, .pageInsert 4 0x400000#32 PTE_W].foldlM
        (exec ⟨1, .praListHead⟩) ((sample 8 0#32).swapFifoInitMm ⟨1, .freeList⟩).1 = some s ∧
      ∃ ps qs : List ℕ, s.pmm.link.Ring .freeList (ps.map .pageLink) ∧
        s.pmm.link.Ring .praListHead (qs.map .pageLink) ∧
        ∀ p ∈ qs, p ∉ ps ∧ p ∉ s.pmm.freePages := by
  have hinv := sample_inv (n := 8) (by decide) 0#32
  have hlists := swapFifoInitMm_lists ⟨1, .freeList⟩ hinv
  have heq : ∃ s, [VmOp.allocPages 1, .mapSwappable 0x400000#32 4,
      .pageInsert 4 0x400000#32 PTE_W].foldlM (exec ⟨1, .praListHead⟩)
        ((sample 8 0#32).swapFifoInitMm ⟨1, .freeList⟩).1 = some s := ⟨_, rfl⟩
  obtain ⟨s, heq⟩ := heq
  refine ⟨s, heq, run_lists_disjoint ⟨1, .freeList⟩ hinv (Run.of_foldlM ?_ heq)⟩
  refine ⟨rfl, fun t ht => ⟨?_, fun u _ => ⟨trivial, fun u _ => trivial⟩⟩⟩
  obtain rfl := Option.some.inj ht
  obtain ⟨bs, hinv'⟩ := hlists.free
  have htakes := hinv'.takes_of_alloc (le_refl 1) (rfl : Pmm.alloc _ 1 = some (some 4, _))
  refine ⟨⟨by simp, fun hmem => ?_⟩, fun hq => ?_⟩
  · exact ((Set.ext_iff.mp htakes.one.2 4).mp hmem).2 rfl
  · exact absurd ((queued_iff (hlists.takes htakes) rfl 4).mp hq) (by simp)

end Vm
end Zonix
