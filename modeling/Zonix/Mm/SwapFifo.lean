import Zonix.Mm.SwapQueues
import Zonix.Mm.SpaceRun

/-!
# The FIFO manager is a queue: `kern/mm/swap_fifo.c`

The calls of `map_swappable` and `swap_out_victim` on one address space, against a list of pages
that grows at its end and shrinks at its front. What the two share is the shape of the circular
list: it leads from the head through the queued pages, oldest first, and back. The links that an
evicted page keeps are not on it.
-/

namespace Zonix
open Lib

/-- The calls of the FIFO manager on an address space. -/
inductive FifoOp
  | mapSwappable (page : ℕ)
  | swapOutVictim

/-- The page that a call adds. -/
def FifoOp.mapped : FifoOp → Option ℕ
  | .mapSwappable page => some page
  | .swapOutVictim => none

/-- What a queue answers: what the call returns, and the page that it stores. -/
def pageQueue (q : List ℕ) : FifoOp → (ℤ × Option ℕ) × List ℕ
  | .mapSwappable page => ((0, none), q ++ [page])
  | .swapOutVictim =>
    match q with
    | [] => ((-1, none), [])
    | v :: q => ((0, some v), q)

/-- A page joins a queue once. -/
def pageQueueOk (q : List ℕ) (op : FifoOp) : Prop := ∀ page, op.mapped = some page → page ∉ q

namespace Vm

variable {s t : Vm} {mm : MmStruct} {q : List ℕ} {op : FifoOp} {ops : List FifoOp}

/-- A call of the manager: what it returns, the page that it stores, and the state after it. -/
def execFifo (mm : MmStruct) (s : Vm) : FifoOp → Option ((ℤ × Option ℕ) × Vm)
  | .mapSwappable page => some ((0, none), s.swapFifoMapSwappable mm page)
  | .swapOutVictim => do
    let (r, page, s) ← s.swapFifoSwapOutVictim mm
    some ((r, page), s)

/-- What the callers owe: a page that is made swappable is not queued. -/
def okFifo (mm : MmStruct) (s : Vm) (op : FifoOp) : Prop :=
  ∀ page, op.mapped = some page → ¬ s.Queued mm page

/-- The list of the manager leads to the pages of the queue, oldest first. -/
def IsQueue (s : Vm) (mm : MmStruct) (q : List ℕ) : Prop :=
  mm.swapList = .praListHead ∧ s.pmm.link.Ring .praListHead (q.map .pageLink)

theorem IsQueue.queued_iff (h : s.IsQueue mm q) (page : ℕ) : s.Queued mm page ↔ page ∈ q := by
  obtain ⟨hmm, hring⟩ := h
  rw [Queued, hmm, hring.onList_iff]
  simp

/-- One call does what the queue does. -/
theorem IsQueue.execFifo (h : s.IsQueue mm q) (hok : s.okFifo mm op) :
    ∃ t, s.execFifo mm op = some ((pageQueue q op).1, t) ∧ t.IsQueue mm (pageQueue q op).2 := by
  obtain ⟨hmm, hring⟩ := id h
  cases op with
  | mapSwappable page =>
    have hpage : page ∉ q := fun hmem => hok page rfl ((h.queued_iff page).mpr hmem)
    exact ⟨_, rfl, hmm, Queues.mapSwappable_ring hmm hring hpage⟩
  | swapOutVictim =>
    cases q with
    | nil =>
      refine ⟨s, ?_, h⟩
      rw [Vm.execFifo, Queues.swapFifoSwapOutVictim_nil hmm hring]
      rfl
    | cons v q =>
      refine ⟨s.dequeued v, ?_, hmm, Queues.dequeued_ring hring⟩
      rw [Vm.execFifo, Queues.swapFifoSwapOutVictim_cons hmm hring]
      rfl

/-- The list is empty after `swap_fifo_init_mm`, whatever it led to before. -/
theorem swapFifoInitMm_isQueue (s : Vm) (mm : MmStruct) :
    (s.swapFifoInitMm mm).1.IsQueue (s.swapFifoInitMm mm).2 [] :=
  ⟨rfl, listInit_ring s.pmm.link .praListHead⟩

/-- What goes into a queue comes out of it in the same order, or is still in it. -/
theorem pageQueue_conserves (ops : List FifoOp) (q : List ℕ) :
    q ++ ops.filterMap FifoOp.mapped =
      (answers pageQueue ops q).1.filterMap Prod.snd ++ (answers pageQueue ops q).2 := by
  induction ops generalizing q with
  | nil => exact List.append_nil q
  | cons op ops ih =>
    have hrest := ih (pageQueue q op).2
    cases op with
    | mapSwappable page =>
      calc q ++ page :: ops.filterMap FifoOp.mapped
          = (q ++ [page]) ++ ops.filterMap FifoOp.mapped := by rw [List.append_cons]
        _ = _ := hrest
    | swapOutVictim =>
      cases q with
      | nil => exact hrest
      | cons v q => exact congrArg (v :: ·) hrest

/-- On an address space that was initialised, the calls answer as a queue does that was empty at
first: the pages that were handed out are, in order, the first ones that were made swappable, and
the others are still queued. -/
theorem fifo_is_queue
    (hok : Allowed (states (execFifo (s.swapFifoInitMm mm).2)) (okFifo (s.swapFifoInitMm mm).2) ops
      (s.swapFifoInitMm mm).1) :
    ∃ t, outputs (execFifo (s.swapFifoInitMm mm).2) ops (s.swapFifoInitMm mm).1 =
        some ((answers pageQueue ops []).1, t) ∧
      t.IsQueue (s.swapFifoInitMm mm).2 (answers pageQueue ops []).2 ∧
      ops.filterMap FifoOp.mapped =
        (answers pageQueue ops []).1.filterMap Prod.snd ++ (answers pageQueue ops []).2 := by
  obtain ⟨t, houts, ht⟩ := outputs_simulates (R := fun s q => s.IsQueue (s.swapFifoInitMm mm).2 q)
    (fun s q op h hok => h.execFifo hok) (s.swapFifoInitMm_isQueue mm) hok
  exact ⟨t, houts, ht, pageQueue_conserves ops []⟩

/-- Pages go in and out; one of them is queued again, and the queue is empty in between. -/
def interleavedOps : List FifoOp :=
  [.mapSwappable 4, .mapSwappable 5, .mapSwappable 6, .swapOutVictim, .mapSwappable 4,
    .swapOutVictim, .swapOutVictim, .swapOutVictim, .swapOutVictim, .mapSwappable 5]

theorem interleavedOps_allowed (s : Vm) (mm : MmStruct) :
    Allowed (states (execFifo (s.swapFifoInitMm mm).2)) (okFifo (s.swapFifoInitMm mm).2)
      interleavedOps (s.swapFifoInitMm mm).1 := by
  refine allowed_of_simulates (R := fun s q => s.IsQueue (s.swapFifoInitMm mm).2 q)
    (P := pageQueueOk) (fun s q op h hok => h.execFifo hok)
    (fun s q op h hok page hpage hq => hok page hpage ((h.queued_iff page).mp hq))
    (s.swapFifoInitMm_isQueue mm) ?_
  simp [interleavedOps, Allowed, pageQueue, pageQueueOk, FifoOp.mapped]

theorem fifo_is_queue_interleaved :
    ∃ t, outputs (execFifo ((sample 8 1024#32).swapFifoInitMm initMm).2) interleavedOps
        ((sample 8 1024#32).swapFifoInitMm initMm).1 =
          some ((answers pageQueue interleavedOps []).1, t) ∧
      t.IsQueue ((sample 8 1024#32).swapFifoInitMm initMm).2
        (answers pageQueue interleavedOps []).2 ∧
      interleavedOps.filterMap FifoOp.mapped =
        (answers pageQueue interleavedOps []).1.filterMap Prod.snd ++
          (answers pageQueue interleavedOps []).2 :=
  fifo_is_queue (interleavedOps_allowed (sample 8 1024#32) initMm)

example : answers pageQueue interleavedOps [] =
    ([(0, none), (0, none), (0, none), (0, some 4), (0, none), (0, some 5), (0, some 6),
      (0, some 4), (-1, none), (0, none)], [5]) := by decide

end Vm
end Zonix
