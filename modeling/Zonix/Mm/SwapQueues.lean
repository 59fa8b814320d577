import Zonix.Mm.SwapTheorems
import Zonix.Lib.Machine

/-!
# The swap queues of several address spaces

Every `mm_struct` points to its swap queue, but `swap_fifo_init_mm` makes all of them point to the
one list head `pra_list_head`, and empties that list. So the queues are kept apart exactly as long
as the calls on an address space find no other one initialised, or nothing in the list.
-/

namespace Zonix
open Lib

/-- Any number of address spaces, and the calls made on them so far: which were initialised, which
pages were made swappable on each, and what the last `swap_out_victim` stored. -/
structure Queues (ι : Type*) where
  vm : Vm
  mms : ι → MmStruct
  inited : ι → Bool
  mapped : ι → List ℕ
  victim : Option ℕ

inductive QueueOp (ι : Type*)
  | initMm (i : ι)
  | mapSwappable (i : ι) (page : ℕ)
  | swapOutVictim (i : ι)

/-- The address space that is operated on. -/
def QueueOp.mm {ι : Type*} : QueueOp ι → ι
  | .initMm i => i
  | .mapSwappable i _ => i
  | .swapOutVictim i => i

namespace Queues

variable {ι : Type*} [DecidableEq ι] {s t : Queues ι} {op : QueueOp ι} {i j : ι} {page : ℕ}
  {qs : List ℕ}

def exec (s : Queues ι) : QueueOp ι → Option (Queues ι)
  | .initMm i =>
    let (vm, mm) := s.vm.swapFifoInitMm (s.mms i)
    some { s with
      vm := vm, mms := Function.update s.mms i mm, inited := Function.update s.inited i true }
  | .mapSwappable i page =>
    some { s with
      vm := s.vm.swapFifoMapSwappable (s.mms i) page
      mapped := Function.update s.mapped i (page :: s.mapped i) }
  | .swapOutVictim i =>
    (s.vm.swapFifoSwapOutVictim (s.mms i)).map fun (_, page, vm) =>
      { s with vm := vm, victim := page }

/-- The pages that the list of an address space leads to, in order. -/
def Queue (s : Queues ι) (i : ι) (qs : List ℕ) : Prop :=
  s.vm.pmm.link.Ring (s.mms i).swapList (qs.map .pageLink)

def Queued (s : Queues ι) (i : ι) (page : ℕ) : Prop :=
  s.vm.pmm.link.OnList (s.mms i).swapList (.pageLink page)

/-- What the callers owe: the address space is initialised, and a page that is made swappable is on
no queue. -/
def ok (s : Queues ι) : QueueOp ι → Prop
  | .initMm _ => True
  | .mapSwappable i page => s.inited i ∧ ∀ j, s.inited j → ¬ s.Queued j page
  | .swapOutVictim i => s.inited i

/-- A victim was made swappable on the address space that it is taken from, and the queues of the
others are as before. -/
def Isolated (s : Queues ι) (op : QueueOp ι) : Prop :=
  ∀ t, s.exec op = some t →
    (∀ i page, op = .swapOutVictim i → t.victim = some page → page ∈ s.mapped i) ∧
    ∀ j, j ≠ op.mm → s.inited j → ∀ qs, s.Queue j qs → t.Queue j qs

/-- No other address space is initialised; or the list is empty, and no page is added. -/
def Alone (s : Queues ι) (op : QueueOp ι) : Prop :=
  (∀ j, s.inited j → j = op.mm) ∨
    listNext s.vm.pmm.link .praListHead = .praListHead ∧ ∀ i page, op ≠ .mapSwappable i page

/-- All initialised address spaces share the one list, and each of its pages was made swappable on
all of them. -/
structure Shared (s : Queues ι) : Prop where
  head : ∀ i, s.inited i → (s.mms i).swapList = .praListHead
  queue : ∀ i, s.inited i → ∃ qs : List ℕ, s.vm.pmm.link.Ring .praListHead (qs.map .pageLink) ∧
    ∀ p ∈ qs, ∀ j, s.inited j → p ∈ s.mapped j

/-! ## One call -/

section List
variable {link : Links ListEntry} {qs' : List ℕ}

/-- A list leads to the same pages, however it is described. -/
theorem mem_iff_of_ring (h : link.Ring .praListHead (qs.map .pageLink))
    (h' : link.Ring .praListHead (qs'.map .pageLink)) (page : ℕ) : page ∈ qs ↔ page ∈ qs' := by
  have hmem := h.onList_iff (e := .pageLink page)
  rw [h'.onList_iff] at hmem
  simpa using hmem.symm

theorem next_eq_head_iff (h : link.Ring .praListHead (qs.map .pageLink)) :
    listNext link .praListHead = .praListHead ↔ qs = [] :=
  h.next_eq_head_iff.trans List.map_eq_nil_iff

end List

theorem swapFifoSwapOutVictim_nil {s : Vm} {mm : MmStruct} (hmm : mm.swapList = .praListHead)
    (h : s.pmm.link.Ring .praListHead (([] : List ℕ).map .pageLink)) :
    s.swapFifoSwapOutVictim mm = some (-1, none, s) := by
  have hnext : listNext s.pmm.link .praListHead = .praListHead := h.next_head rfl
  unfold Vm.swapFifoSwapOutVictim
  rw [hmm, hnext, if_pos rfl]

theorem swapFifoSwapOutVictim_cons {s : Vm} {mm : MmStruct} {v : ℕ}
    (hmm : mm.swapList = .praListHead)
    (h : s.pmm.link.Ring .praListHead ((v :: qs).map .pageLink)) :
    s.swapFifoSwapOutVictim mm = some (0, some v, s.dequeued v) := by
  have hnext : listNext s.pmm.link .praListHead = .pageLink v := h.next_head rfl
  unfold Vm.swapFifoSwapOutVictim
  rw [hmm, hnext, if_neg (by simp)]
  rfl

theorem mapSwappable_ring {s : Vm} {mm : MmStruct} (hmm : mm.swapList = .praListHead)
    (h : s.pmm.link.Ring .praListHead (qs.map .pageLink)) (hpage : page ∉ qs) :
    (s.swapFifoMapSwappable mm page).pmm.link.Ring .praListHead ((qs ++ [page]).map .pageLink) := by
  have hnew : ListEntry.pageLink page ∉ .praListHead :: qs.map .pageLink := by
    simpa using hpage
  have hafter := listAddBefore_back h hnew
  rw [Vm.swapFifoMapSwappable, hmm, List.map_append]
  exact hafter

theorem dequeued_ring {s : Vm} {v : ℕ}
    (h : s.pmm.link.Ring .praListHead ((v :: qs).map .pageLink)) :
    (s.dequeued v).pmm.link.Ring .praListHead (qs.map .pageLink) := by
  have hring : s.pmm.link.Ring .praListHead ([] ++ .pageLink v :: qs.map .pageLink) := h
  exact listDel_ring hring

omit [DecidableEq ι] in
theorem Shared.queue_iff (h : s.Shared) (hj : s.inited j) :
    s.Queue j qs ↔ s.vm.pmm.link.Ring .praListHead (qs.map .pageLink) := by
  rw [Queue, h.head j hj]

omit [DecidableEq ι] in
theorem Shared.notMem (h : s.Shared) (hj : s.inited j)
    (hring : s.vm.pmm.link.Ring .praListHead (qs.map .pageLink)) (hno : ¬ s.Queued j page) :
    page ∉ qs := by
  intro hmem
  rw [Queued, h.head j hj, hring.onList_iff] at hno
  exact hno (List.mem_map_of_mem hmem)

/-- When the call is not alone, another address space sees its queue change. -/
theorem Shared.not_isolated (h : s.Shared) (heq : s.exec op = some t) (hj : s.inited j)
    (hne : j ≠ op.mm) (hmm : t.mms j = s.mms j)
    (hring : s.vm.pmm.link.Ring .praListHead (qs.map .pageLink)) {qs' : List ℕ}
    (hring' : t.vm.pmm.link.Ring .praListHead (qs'.map .pageLink))
    (hpage : ∃ page, ¬ (page ∈ qs ↔ page ∈ qs')) : ¬ s.Isolated op := by
  intro hiso
  obtain ⟨page, hpage⟩ := hpage
  have hafter := (hiso t heq).2 j hne hj qs ((h.queue_iff hj).mpr hring)
  rw [Queue, hmm, h.head j hj] at hafter
  exact hpage (mem_iff_of_ring hafter hring' page)

/-- With nobody else initialised, no other queue can change. -/
theorem isolated_of_only (honly : ∀ j, s.inited j → j = op.mm)
    (hvictim : ∀ t, s.exec op = some t → ∀ i page, op = .swapOutVictim i →
      t.victim = some page → page ∈ s.mapped i) : s.Isolated op :=
  fun t heq => ⟨hvictim t heq, fun j hne hj => absurd (honly j hj) hne⟩

/-- Initialising an address space empties the list. -/
theorem isolated_initMm_iff (h : s.Shared) :
    s.Isolated (.initMm i) ↔ s.Alone (.initMm i) := by
  have hring' : (s.vm.swapFifoInitMm (s.mms i)).1.pmm.link.Ring .praListHead
      (([] : List ℕ).map .pageLink) := listInit_ring s.vm.pmm.link .praListHead
  constructor
  · intro hiso
    by_contra hno
    obtain ⟨hother, hfull⟩ := not_or.mp hno
    push Not at hother
    obtain ⟨j, hj, hne⟩ := hother
    obtain ⟨qs, hring, -⟩ := h.queue j hj
    -- the other's queue is emptied
    cases qs with
    | nil => exact hfull ⟨(next_eq_head_iff hring).mpr rfl, by simp⟩
    | cons v qs =>
      refine h.not_isolated rfl hj hne (Function.update_of_ne hne _ _) hring hring' ?_ hiso
      exact ⟨v, fun hiff => absurd (hiff.mp List.mem_cons_self) (by simp)⟩
  · rintro (honly | ⟨hempty, -⟩)
    · exact isolated_of_only honly fun t _ j page hop => absurd hop (by simp)
    · intro t heq
      obtain rfl := Option.some.inj heq
      refine ⟨fun j page hop => absurd hop (by simp), fun j hne hj qs hqueue => ?_⟩
      rw [h.queue_iff hj] at hqueue
      obtain rfl := (next_eq_head_iff hqueue).mp hempty
      have hmm : Function.update s.mms i (s.vm.swapFifoInitMm (s.mms i)).2 j = s.mms j :=
        Function.update_of_ne hne _ _
      show Links.Ring _ (Function.update s.mms i (s.vm.swapFifoInitMm (s.mms i)).2 j).swapList _
      rw [hmm, h.head j hj]
      exact hring'

/-- A page that is made swappable joins the one list. -/
theorem isolated_mapSwappable_iff (h : s.Shared) (hok : s.ok (.mapSwappable i page)) :
    s.Isolated (.mapSwappable i page) ↔ s.Alone (.mapSwappable i page) := by
  obtain ⟨hi, hpage⟩ := hok
  constructor
  · intro hiso
    left
    intro j hj
    by_contra hne
    obtain ⟨qs, hring, -⟩ := h.queue j hj
    have hout := h.notMem hj hring (hpage j hj)
    have heq : s.exec (.mapSwappable i page) = some { s with
        vm := s.vm.swapFifoMapSwappable (s.mms i) page
        mapped := Function.update s.mapped i (page :: s.mapped i) } := rfl
    refine h.not_isolated heq hj hne rfl hring (mapSwappable_ring (h.head i hi) hring hout) ?_ hiso
    exact ⟨page, fun hiff => hout (hiff.mpr (by simp))⟩
  · rintro (honly | ⟨-, hno⟩)
    · exact isolated_of_only honly fun t _ j page hop => absurd hop (by simp)
    · exact absurd rfl (hno i page)

/-- The victim leaves the one list. -/
theorem isolated_swapOutVictim_iff (h : s.Shared) (hi : s.inited i) :
    s.Isolated (.swapOutVictim i) ↔ s.Alone (.swapOutVictim i) := by
  obtain ⟨qs, hring, hmapped⟩ := h.queue i hi
  cases qs with
  | nil =>
    have heq : s.exec (.swapOutVictim i) = some { s with victim := none } := by
      rw [exec, swapFifoSwapOutVictim_nil (h.head i hi) hring]
      rfl
    refine iff_of_true (fun t ht => ?_) (Or.inr ⟨(next_eq_head_iff hring).mpr rfl, by simp⟩)
    obtain rfl := Option.some.inj (heq.symm.trans ht)
    exact ⟨fun j page _ hv => absurd hv (by simp), fun j _ _ qs hqueue => hqueue⟩
  | cons v qs =>
    have heq : s.exec (.swapOutVictim i) =
        some { s with vm := s.vm.dequeued v, victim := some v } := by
      rw [exec, swapFifoSwapOutVictim_cons (h.head i hi) hring]
      rfl
    constructor
    · intro hiso
      left
      intro j hj
      by_contra hne
      have hnodup : v ∉ qs := by
        have hnd : (v :: qs).Nodup := List.Nodup.of_map _ hring.nodup_entries
        exact (List.nodup_cons.mp hnd).1
      refine h.not_isolated heq hj hne rfl hring (dequeued_ring hring) ?_ hiso
      exact ⟨v, fun hiff => hnodup (hiff.mp List.mem_cons_self)⟩
    · rintro (honly | ⟨hempty, -⟩)
      · refine isolated_of_only honly fun t ht j page hop hv => ?_
        obtain rfl := Option.some.inj (heq.symm.trans ht)
        obtain rfl := QueueOp.swapOutVictim.inj hop
        obtain rfl := Option.some.inj hv
        exact hmapped v List.mem_cons_self i hi
      · -- an empty list has no victim
        exact absurd ((next_eq_head_iff hring).mp hempty) (by simp)

theorem isolated_iff (h : s.Shared) (hok : s.ok op) : s.Isolated op ↔ s.Alone op := by
  cases op with
  | initMm i => exact isolated_initMm_iff h
  | mapSwappable i page => exact isolated_mapSwappable_iff h hok
  | swapOutVictim i => exact isolated_swapOutVictim_iff h hok

/-! ## Interleavings -/

/-- An address space that is initialised shares an empty list with the others. -/
theorem Shared.initMm (h : s.Shared) (heq : s.exec (.initMm i) = some t) : t.Shared := by
  obtain rfl := Option.some.inj heq
  refine ⟨fun j hj => ?_, fun j hj => ⟨[], listInit_ring s.vm.pmm.link .praListHead, by simp⟩⟩
  by_cases hji : j = i
  · subst hji
    show (Function.update s.mms j _ j).swapList = _
    rw [Function.update_self]
  · have hj' : Function.update s.inited i true j = true := hj
    rw [Function.update_of_ne hji] at hj'
    show (Function.update s.mms i _ j).swapList = _
    rw [Function.update_of_ne hji]
    exact h.head j hj'

/-- Nobody else is there who would miss the page among those that were made swappable. -/
theorem Shared.mapSwappable (h : s.Shared) (hi : s.inited i) (hpage : ¬ s.Queued i page)
    (honly : ∀ j, s.inited j → j = i) (heq : s.exec (.mapSwappable i page) = some t) :
    t.Shared := by
  obtain rfl := Option.some.inj heq
  obtain ⟨qs, hring, hmapped⟩ := h.queue i hi
  have hout := h.notMem hi hring hpage
  refine ⟨h.head, fun j _ => ⟨qs ++ [page], mapSwappable_ring (h.head i hi) hring hout,
    fun p hp k hk => ?_⟩⟩
  obtain rfl := honly k hk
  show p ∈ Function.update s.mapped k (page :: s.mapped k) k
  rw [Function.update_self, List.mem_cons]
  rcases List.mem_append.mp hp with hp | hp
  · exact Or.inr (hmapped p hp k hk)
  · exact Or.inl (List.mem_singleton.mp hp)

theorem Shared.swapOutVictim (h : s.Shared) (hi : s.inited i)
    (heq : s.exec (.swapOutVictim i) = some t) : t.Shared := by
  obtain ⟨qs, hring, hmapped⟩ := h.queue i hi
  cases qs with
  | nil =>
    rw [Queues.exec, swapFifoSwapOutVictim_nil (h.head i hi) hring] at heq
    obtain rfl := Option.some.inj heq
    exact ⟨h.head, h.queue⟩
  | cons v qs =>
    rw [Queues.exec, swapFifoSwapOutVictim_cons (h.head i hi) hring] at heq
    obtain rfl := Option.some.inj heq
    exact ⟨h.head, fun _ _ => ⟨qs, dequeued_ring hring, fun p hp =>
      hmapped p (List.mem_cons_of_mem v hp)⟩⟩

/-- As long as the calls are alone, the one list holds pages of every address space. -/
theorem Shared.exec (h : s.Shared) (hok : s.ok op) (halone : s.Alone op)
    (heq : s.exec op = some t) : t.Shared := by
  cases op with
  | initMm i => exact h.initMm heq
  | mapSwappable i page =>
    have honly : ∀ j, s.inited j → j = i :=
      halone.elim id fun hh => absurd rfl (hh.2 i page)
    exact h.mapSwappable hok.1 (hok.2 i hok.1) honly heq
  | swapOutVictim i => exact h.swapOutVictim hok heq

/-- From the start, where no address space is initialised: every call of an interleaving leaves the
others' queues alone, and takes its victim from its own, exactly when every call is alone. -/
theorem run_isolated_iff (hs : ∀ i, s.inited i = false) {ops : List (QueueOp ι)}
    (hok : Allowed exec ok ops s) : Allowed exec Isolated ops s ↔ Allowed exec Alone ops s := by
  have hstart : s.Shared :=
    ⟨fun i hi => absurd hi (by simp [hs i]), fun i hi => absurd hi (by simp [hs i])⟩
  exact allowed_iff (I := Shared) (fun _ _ h => isolated_iff h)
    (fun _ _ _ h hok halone heq => h.exec hok halone heq) hstart hok

/-! ## Two address spaces -/

/-- The small machine with two address spaces, none of them initialised. -/
def sampleQueues : Queues Bool where
  vm := Vm.sample 8 1024#32
  mms := fun b => ⟨if b then 2 else 1, .freeList⟩
  inited := fun _ => false
  mapped := fun _ => []
  victim := none

/-- A page that was made swappable on the first is the victim of the second. -/
def mixedOps : List (QueueOp Bool) :=
  [.initMm false, .initMm true, .mapSwappable false 4, .swapOutVictim true]

theorem mixedOps_allowed : Allowed exec ok mixedOps sampleQueues := by
  refine ⟨trivial, fun t ht => ⟨trivial, fun u hu => ⟨⟨?_, fun j _ hq => ?_⟩,
    fun v hv => ⟨?_, fun _ _ => trivial⟩⟩⟩⟩
  · obtain rfl := Option.some.inj ht
    obtain rfl := Option.some.inj hu
    rfl
  · obtain rfl := Option.some.inj ht
    obtain rfl := Option.some.inj hu
    have hempty : Links.Ring _ ListEntry.praListHead [] := listInit_ring
      (sampleQueues.vm.swapFifoInitMm (sampleQueues.mms false)).1.pmm.link ListEntry.praListHead
    cases j with
    | false => exact absurd (hempty.onList_iff.mp hq) (by simp)
    | true => exact absurd (hempty.onList_iff.mp hq) (by simp)
  · obtain rfl := Option.some.inj ht
    obtain rfl := Option.some.inj hu
    obtain rfl := Option.some.inj hv
    rfl

theorem mixedOps_steals_victim : (∀ i, sampleQueues.inited i = false) ∧
    Allowed exec ok mixedOps sampleQueues ∧
    (∃ t, mixedOps.foldlM exec sampleQueues = some t ∧ t.victim = some 4 ∧ t.mapped true = []) ∧
    ¬ Allowed exec Isolated mixedOps sampleQueues := by
  have heq : (mixedOps.foldlM exec sampleQueues).map (fun t => (t.victim, t.mapped true)) =
      some (some 4, []) := by decide +kernel
  obtain ⟨t, ht, heq⟩ := Option.map_eq_some_iff.mp heq
  obtain ⟨hvictim, hmapped⟩ := Prod.mk.inj heq
  refine ⟨fun i => rfl, mixedOps_allowed, ⟨t, ht, hvictim, hmapped⟩, fun hiso => ?_⟩
  have hlast := (((hiso.2 _ rfl).2 _ rfl).2 _ rfl).1
  have hmem := (hlast _ rfl).1 true 4 rfl rfl
  exact absurd hmem (by simp [sampleQueues])

/-- One after the other, with an empty list in between. -/
def separateOps : List (QueueOp Bool) :=
  [.initMm false, .mapSwappable false 4, .swapOutVictim false, .initMm true]

theorem run_isolated_separate : Allowed exec Isolated separateOps sampleQueues ↔
    Allowed exec Alone separateOps sampleQueues := by
  refine run_isolated_iff (fun i => rfl) ⟨trivial, fun t ht => ⟨⟨?_, fun j hj hq => ?_⟩,
    fun u hu => ⟨?_, fun _ _ => ⟨trivial, fun _ _ => trivial⟩⟩⟩⟩
  · obtain rfl := Option.some.inj ht
    rfl
  · obtain rfl := Option.some.inj ht
    have hempty : Links.Ring _ ListEntry.praListHead [] :=
      listInit_ring sampleQueues.vm.pmm.link ListEntry.praListHead
    cases j with
    | false => exact absurd (hempty.onList_iff.mp hq) (by simp)
    | true => exact absurd hj (by decide)
  · obtain rfl := Option.some.inj ht
    obtain rfl := Option.some.inj hu
    rfl

end Queues
end Zonix
