import Zonix.Mm.SwapFifo

/-!
# The archived clock manager: `kern/mm/archived/swap_clock.c`

The hand of the simplified clock gives no page a second chance. It stands on the head or on the
first page of the list, whatever was added at the other end, and so the pages leave in the order of
the FIFO manager.
-/

namespace Zonix
open Lib

/-- The machine with `swap_clock.c` in the place of `swap_fifo.c`. Its `pra_list_head` is a variable
of its own, which the entry of that name stands for here. A null `clock_ptr` is `none`. -/
structure ClockVm where
  vm : Vm
  clockPtr : Option ListEntry

namespace ClockVm

def swapClockInitMm (s : ClockVm) (mm : MmStruct) : ClockVm × MmStruct :=
  (⟨s.vm.setPmm (s.vm.pmm.setLink (listInit s.vm.pmm.link .praListHead)), some .praListHead⟩,
    { mm with swapList := .praListHead })

/-- `swap_clock_map_swappable(mm, addr, page, swap_in)`, which uses neither `addr` nor `swap_in` and
always returns 0. -/
def swapClockMapSwappable (s : ClockVm) (mm : MmStruct) (page : ℕ) : ClockVm :=
  { s with
    vm := s.vm.setPmm
      (s.vm.pmm.setLink (listAddBefore s.vm.pmm.link mm.swapList (.pageLink page))) }

/-- The end of the loop's body: the hand moves on, and the entry that it stood on leaves. -/
def takeVictim (s : ClockVm) (victim : ListEntry) : Option (ℤ × Option ℕ × ClockVm) := do
  let page ← le2page victim
  some (0, some page, ⟨s.vm.setPmm (s.vm.pmm.setLink (listDel s.vm.pmm.link victim)),
    some (listNext s.vm.pmm.link victim)⟩)

/-- The hand after the first test: `clock_ptr == NULL || clock_ptr == head` -/
def startHand (s : ClockVm) (mm : MmStruct) : ListEntry :=
  match s.clockPtr with
  | none => listNext s.vm.pmm.link mm.swapList
  | some ptr => if ptr = mm.swapList then listNext s.vm.pmm.link mm.swapList else ptr

/-- `swap_clock_swap_out_victim(mm, &page, in_tick)`: what it returns, and `page`. The body of
`while (1)` returns when it is run for the first time. -/
def swapClockSwapOutVictim (s : ClockVm) (mm : MmStruct) : Option (ℤ × Option ℕ × ClockVm) :=
  let hand := s.startHand mm
  if hand = mm.swapList then
    let hand := listNext s.vm.pmm.link hand
    if hand = mm.swapList then some (-1, none, { s with clockPtr := some hand })
    else s.takeVictim hand
  else s.takeVictim hand

variable {s : ClockVm} {mm mm' : MmStruct} {q : List ℕ} {op : FifoOp} {ops : List FifoOp}

/-- A call of the manager: what it returns, the page that it stores, and the state after it. -/
def execClock (mm : MmStruct) (s : ClockVm) : FifoOp → Option ((ℤ × Option ℕ) × ClockVm)
  | .mapSwappable page => some ((0, none), s.swapClockMapSwappable mm page)
  | .swapOutVictim => do
    let (r, page, s) ← s.swapClockSwapOutVictim mm
    some ((r, page), s)

/-- What the callers owe: a page that is made swappable is not queued. -/
def okClock (mm : MmStruct) (s : ClockVm) (op : FifoOp) : Prop := s.vm.okFifo mm op

/-- The hand is the head, or a page of the list. -/
def HandOk (s : ClockVm) (mm : MmStruct) : Prop :=
  s.clockPtr = some mm.swapList ∨
    ∃ page, s.clockPtr = some (.pageLink page) ∧ s.vm.Queued mm page

/-- The list leads to the pages of the queue, and the hand is the head or the first of them. -/
structure IsClock (s : ClockVm) (mm : MmStruct) (q : List ℕ) : Prop where
  queue : s.vm.IsQueue mm q
  hand : s.clockPtr = some .praListHead ∨ ∃ v ∈ q.head?, s.clockPtr = some (.pageLink v)

theorem IsClock.handOk (h : s.IsClock mm q) : s.HandOk mm := by
  rcases h.hand with hhead | ⟨v, hv, hptr⟩
  · left
    rw [hhead, h.queue.1]
  · right
    exact ⟨v, hptr, (h.queue.queued_iff v).mpr (List.mem_of_head? hv)⟩

/-- The first test brings the hand to the first entry, if it is not there. -/
theorem IsClock.startHand_eq (h : s.IsClock mm q) :
    s.startHand mm = listNext s.vm.pmm.link .praListHead := by
  obtain ⟨⟨hmm, hring⟩, hhand⟩ := h
  rcases hhand with hhead | ⟨v, hv, hptr⟩
  · simp only [startHand, hhead, hmm, if_pos]
  · obtain ⟨qs, rfl⟩ : ∃ qs, q = v :: qs := List.head?_eq_some_iff.mp hv
    have hnext : listNext s.vm.pmm.link .praListHead = .pageLink v := hring.next_head rfl
    simp [startHand, hptr, hmm, hnext]

theorem swapClockSwapOutVictim_nil (h : s.IsClock mm []) :
    s.swapClockSwapOutVictim mm = some (-1, none, { s with clockPtr := some .praListHead }) := by
  have hnext : listNext s.vm.pmm.link .praListHead = .praListHead := h.queue.2.next_head rfl
  unfold swapClockSwapOutVictim
  rw [h.startHand_eq, h.queue.1, hnext, if_pos rfl, hnext, if_pos rfl]

theorem swapClockSwapOutVictim_cons {v : ℕ} (h : s.IsClock mm (v :: q)) :
    s.swapClockSwapOutVictim mm =
      some (0, some v, ⟨s.vm.dequeued v, some (listNext s.vm.pmm.link (.pageLink v))⟩) := by
  have hnext : listNext s.vm.pmm.link .praListHead = .pageLink v := h.queue.2.next_head rfl
  unfold swapClockSwapOutVictim
  rw [h.startHand_eq, h.queue.1, hnext, if_neg (by simp)]
  rfl

/-- The hand stands on the page after the victim, or on the head where there is none. -/
theorem hand_after {v : ℕ} (h : s.IsClock mm (v :: q)) :
    listNext s.vm.pmm.link (.pageLink v) = .praListHead ∨
      ∃ w ∈ q.head?, listNext s.vm.pmm.link (.pageLink v) = .pageLink w := by
  have hring : s.vm.pmm.link.Ring .praListHead ([] ++ .pageLink v :: q.map .pageLink) := h.queue.2
  cases q with
  | nil => exact Or.inl (hring.next_entry rfl)
  | cons w q => exact Or.inr ⟨w, rfl, hring.next_entry rfl⟩

/-- One call does what the queue does, and keeps the hand at the front. -/
theorem IsClock.execClock (h : s.IsClock mm q) (hok : s.okClock mm op) :
    ∃ t, s.execClock mm op = some ((pageQueue q op).1, t) ∧ t.IsClock mm (pageQueue q op).2 := by
  cases op with
  | mapSwappable page =>
    have hpage : page ∉ q := fun hmem => hok page rfl ((h.queue.queued_iff page).mpr hmem)
    refine ⟨_, rfl, ⟨h.queue.1, Queues.mapSwappable_ring h.queue.1 h.queue.2 hpage⟩, ?_⟩
    rcases h.hand with hhead | ⟨v, hv, hptr⟩
    · exact Or.inl hhead
    · obtain ⟨qs, rfl⟩ : ∃ qs, q = v :: qs := List.head?_eq_some_iff.mp hv
      exact Or.inr ⟨v, rfl, hptr⟩
  | swapOutVictim =>
    cases q with
    | nil =>
      refine ⟨{ s with clockPtr := some .praListHead }, ?_, h.queue, Or.inl rfl⟩
      rw [ClockVm.execClock, swapClockSwapOutVictim_nil h]
      rfl
    | cons v q =>
      refine ⟨⟨s.vm.dequeued v, some (listNext s.vm.pmm.link (.pageLink v))⟩, ?_,
        ⟨h.queue.1, Queues.dequeued_ring h.queue.2⟩, ?_⟩
      · rw [ClockVm.execClock, swapClockSwapOutVictim_cons h]
        rfl
      · rcases hand_after h with hhead | ⟨w, hw, hptr⟩
        · exact Or.inl (congrArg some hhead)
        · exact Or.inr ⟨w, hw, congrArg some hptr⟩

theorem swapClockInitMm_isClock (s : ClockVm) (mm : MmStruct) :
    (s.swapClockInitMm mm).1.IsClock (s.swapClockInitMm mm).2 [] :=
  ⟨⟨rfl, listInit_ring s.vm.pmm.link .praListHead⟩, Or.inl rfl⟩

/-- Two managers whose lists lead to the same pages answer alike. -/
theorem IsClock.outputs_eq {u : Vm} (h : s.IsClock mm q) (hu : u.IsQueue mm' q)
    (hok : Allowed (states (ClockVm.execClock mm)) (okClock mm) ops s) :
    ∃ rs t u', outputs (ClockVm.execClock mm) ops s = some (rs, t) ∧
      outputs (Vm.execFifo mm') ops u = some (rs, u') ∧ t.HandOk mm := by
  have hclock : ∀ (s : ClockVm) q op, s.IsClock mm q → s.okClock mm op →
      ∃ t, s.execClock mm op = some ((pageQueue q op).1, t) ∧ t.IsClock mm (pageQueue q op).2 :=
    fun _ _ _ h hok => h.execClock hok
  have hfifo : ∀ (u : Vm) q op, u.IsQueue mm' q → u.okFifo mm' op →
      ∃ t, u.execFifo mm' op = some ((pageQueue q op).1, t) ∧ t.IsQueue mm' (pageQueue q op).2 :=
    fun _ _ _ h hok => h.execFifo hok
  -- a page that is on neither list is not in the queue that both lists lead to
  have hspec : Allowed (fun q op => some (pageQueue q op).2) pageQueueOk ops q :=
    spec_allowed_of_simulates hclock
      (fun _ _ _ h hok page hpage hmem => hok page hpage ((h.queue.queued_iff page).mpr hmem)) h hok
  have hallowed : Allowed (states (Vm.execFifo mm')) (Vm.okFifo mm') ops u :=
    allowed_of_simulates hfifo
      (fun _ _ _ h hok page hpage hq => hok page hpage ((h.queued_iff page).mp hq)) hu hspec
  obtain ⟨t, hanswers, ht⟩ := outputs_simulates hclock h hok
  obtain ⟨u', hanswers', -⟩ := outputs_simulates hfifo hu hallowed
  exact ⟨_, t, u', hanswers, hanswers', ht.handOk⟩

/-- On address spaces that were initialised, the two managers give the same answers to the same
calls, and then the hand of the clock is the head or a page that is queued. -/
theorem clock_is_fifo (v : Vm) (mm' : MmStruct)
    (hok : Allowed (states (execClock (s.swapClockInitMm mm).2))
      (okClock (s.swapClockInitMm mm).2) ops (s.swapClockInitMm mm).1) :
    ∃ rs t u, outputs (execClock (s.swapClockInitMm mm).2) ops (s.swapClockInitMm mm).1 =
        some (rs, t) ∧
      outputs (Vm.execFifo (v.swapFifoInitMm mm').2) ops (v.swapFifoInitMm mm').1 =
        some (rs, u) ∧
      t.HandOk (s.swapClockInitMm mm).2 :=
  (s.swapClockInitMm_isClock mm).outputs_eq (v.swapFifoInitMm_isQueue mm') hok

/-- The small machine, before the manager was initialised. -/
def sampleClock : ClockVm := ⟨Vm.sample 8 1024#32, none⟩

theorem interleavedOps_allowed :
    Allowed (states (execClock (sampleClock.swapClockInitMm Vm.initMm).2))
      (okClock (sampleClock.swapClockInitMm Vm.initMm).2) Vm.interleavedOps
      (sampleClock.swapClockInitMm Vm.initMm).1 := by
  refine allowed_of_simulates
    (R := fun s q => s.IsClock (sampleClock.swapClockInitMm Vm.initMm).2 q) (P := pageQueueOk)
    (fun s q op h hok => h.execClock hok)
    (fun s q op h hok page hpage hq => hok page hpage ((h.queue.queued_iff page).mp hq))
    (sampleClock.swapClockInitMm_isClock Vm.initMm) ?_
  simp [Vm.interleavedOps, Allowed, pageQueue, pageQueueOk, FifoOp.mapped]

theorem clock_is_fifo_interleaved :
    ∃ rs t u, outputs (execClock (sampleClock.swapClockInitMm Vm.initMm).2) Vm.interleavedOps
        (sampleClock.swapClockInitMm Vm.initMm).1 = some (rs, t) ∧
      outputs (Vm.execFifo ((Vm.sample 8 1024#32).swapFifoInitMm Vm.initMm).2) Vm.interleavedOps
        ((Vm.sample 8 1024#32).swapFifoInitMm Vm.initMm).1 = some (rs, u) ∧
      t.HandOk (sampleClock.swapClockInitMm Vm.initMm).2 :=
  clock_is_fifo (Vm.sample 8 1024#32) Vm.initMm interleavedOps_allowed

end ClockVm
end Zonix
