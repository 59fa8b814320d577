import Zonix.Mm.Space

/-!
# What swapping does to an address space

`Loaded` and `Evicted` say everything that a `swap_in` and an iteration of `swap_out` change
when they succeed, `Same` that nothing changed but the content of free frames. A property of
whole histories needs these, not the calls themselves.
-/

namespace Zonix
open Lib

namespace Vm

/-- No entry, no reference count and no free page changed. -/
structure Same (s t : Vm) : Prop where
  mem : ∀ f, f ∉ s.pmm.freePages → ∀ j, t.mem f j = s.mem f j
  free : t.pmm.freePages = s.pmm.freePages
  ref : ∀ p, (t.pmm.page p).ref = (s.pmm.page p).ref

/-- `swap_in` loaded the page `q` and mapped it at `addr`. -/
structure Loaded (s : Vm) (mm : MmStruct) (addr : Word) (q : ℕ) (t : Vm) : Prop where
  wasFree : q ∈ s.pmm.freePages
  free : t.pmm.freePages = s.pmm.freePages \ {q}
  nrFree : t.pmm.nrFree = s.pmm.nrFree - 1
  ref : ∀ p, (t.pmm.page p).ref = if p = q then (s.pmm.page p).ref + 1 else (s.pmm.page p).ref
  pteAt : ∀ la, t.pteAt mm.pgdir la = if pagNum la = pagNum addr
    then page2pa q ||| (PTE_P ||| PTE_W ||| PTE_U) ||| PTE_P else s.pteAt mm.pgdir la
  dir : ∀ j, t.mem mm.pgdir j = s.mem mm.pgdir j

/-- An iteration of `swap_out` evicted the page `v` from `addr`. -/
structure Evicted (s : Vm) (mm : MmStruct) (v : ℕ) (addr : Word) (t : Vm) : Prop where
  next : listNext s.pmm.link mm.swapList = .pageLink v
  addr_eq : addr = s.findVaddrForPage mm v
  addr_ne : addr ≠ 0#32
  maps : s.Maps mm.pgdir addr v
  written : ((s.dequeued v).swapfsWrite (s.swapOffset <<< 8) v).1 = 0
  free : t.pmm.freePages = s.pmm.freePages ∪ {v}
  nrFree : t.pmm.nrFree = s.pmm.nrFree + 1
  ref : ∀ p, (t.pmm.page p).ref = (s.pmm.page p).ref
  pteAt : ∀ la, t.pteAt mm.pgdir la = if pagNum la = pagNum addr
    then s.swapOffset <<< 8 else s.pteAt mm.pgdir la
  offset : t.swapOffset = s.nextSwapOffset
  dir : ∀ j, t.mem mm.pgdir j = s.mem mm.pgdir j
  mem : ∀ f, f ∉ s.paging mm.pgdir → ∀ j, t.mem f j = s.mem f j

section Effects
variable {s t : Vm} {mm : MmStruct} {ram : Set ℕ} {qs : List ℕ}

/-- The entries are the same as well. -/
theorem Same.pteAt (h : s.Space mm ram qs) (hs : s.Same t) (la : Word) :
    t.pteAt mm.pgdir la = s.pteAt mm.pgdir la :=
  h.pteAt_congr (fun f hf => hs.mem f (h.pgdir.notFree f hf)) la

/-- The space does not depend on the content of free frames. -/
theorem Same.space (h : s.Space mm ram qs) (hs : s.Same t) {qs' : List ℕ}
    (hlists : t.pmm.Lists ram qs') (hqs : ∀ p ∈ qs', p ∈ qs) : t.Space mm ram qs' := by
  refine h.congr hlists (hs.mem _ (h.pgdir.notFree _ (Or.inl rfl))) (fun f hf => ?_)
    fun p hp => h.data p (hqs p hp)
  rw [hs.free]
  exact h.pgdir.notFree f hf

/-! ## `swap_in` -/

/-- A page that was taken and given back. -/
theorem takes_gives {n page : ℕ} {pmm pmm' : Pmm} (ht : s.pmm.Takes n page pmm)
    (hg : pmm.Gives page n pmm') : pmm'.freePages = s.pmm.freePages := by
  rw [hg.freePages, ht.freePages]
  exact Set.sdiff_union_of_subset ht.wasFree

/-- A page that was taken is filled from its slot; the other frames are as before. -/
theorem read_into {page : ℕ} (hlow : page < 2 ^ 20) {pmm : Pmm} {entry : Word} {r : ℤ}
    (hread : (s.setPmm pmm).swapfsRead entry page = (r, t)) :
    t.pmm = pmm ∧ ∀ f, f ≠ page → ∀ j, t.mem f j = s.mem f j := by
  have hpmm := (s.setPmm pmm).swapfsRead_pmm entry page
  rw [hread] at hpmm
  refine ⟨hpmm, fun f hf j => ?_⟩
  rw [← pagNum_page2pa hlow] at hf
  have hmem := (s.setPmm pmm).swapfsRead_mem entry page hf j
  rw [hread] at hmem
  exact hmem

/-- `swap_in` on an error path: the frame that was read into is free again. -/
theorem SwapIn.same_of_low (hlow : ∀ p ∈ s.pmm.freePages, p < 2 ^ 20) {addr : Word} {r : ℤ}
    {p : Option ℕ} (hin : SwapIn s mm addr r p t) (hp : p = none) : r = -1 ∧ s.Same t := by
  cases hin with
  | exhausted => exact ⟨rfl, fun f _ j => rfl, rfl, fun p => rfl⟩
  | noTable ht hno hg =>
    refine ⟨rfl, fun f _ j => rfl, takes_gives ht hg, fun p => ?_⟩
    rw [setPmm_pmm, hg.ref, ht.ref]
  | @readFailed page pmm pmm' r u ht hpres hread hr hg =>
    have hfree := ht.one.1
    have hmem := (read_into (hlow page hfree) hread).2
    refine ⟨rfl, fun f hf => hmem f ?_, takes_gives ht hg, fun p => ?_⟩
    · rintro rfl
      exact hf hfree
    · rw [setPmm_pmm, hg.ref, ht.ref]
  | loaded => exact absurd hp (by simp)

theorem SwapIn.same (h : s.Space mm ram qs) {addr : Word} {r : ℤ} {p : Option ℕ}
    (hin : SwapIn s mm addr r p t) (hp : p = none) : r = -1 ∧ s.Same t :=
  hin.same_of_low h.freeLow hp

/-- What the successful `swap_in` is made of: the page was filled from the swap slot, and
then only the entry was written. -/
theorem SwapIn.filled (h : s.Space mm ram qs) {addr : Word} {r : ℤ} {q : ℕ}
    (hin : SwapIn s mm addr r (some q) t) (hv : pdx addr ≠ pdx VPT) :
    ∃ pmm u table, s.pmm.Takes 1 q pmm ∧
      (s.setPmm pmm).swapfsRead (s.pteAt mm.pgdir addr) q = (0, u) ∧ u.pmm = pmm ∧
      (s.setPmm pmm).IsTable mm.pgdir (pdx addr) table ∧
      (∀ f, f ≠ q → ∀ j, u.mem f j = s.mem f j) ∧
      t = (u.mapPage mm.pgdir q addr (PTE_P ||| PTE_W ||| PTE_U) table
        (ptx addr)).swapFifoMapSwappable mm q := by
  generalize hpq : some q = p at hin
  cases hin with
  | exhausted | noTable | readFailed => exact absurd hpq (by simp)
  | @loaded page pmm res u w ht hp hread hins =>
    obtain rfl := Option.some.inj hpq
    have hfree := ht.one.1
    have htable : (s.setPmm pmm).IsTable mm.pgdir (pdx addr) _ := isTable_pdx hp hv
    obtain ⟨hupmm, hmem⟩ := read_into (h.freeLow q hfree) hread
    have hdir : mm.pgdir ≠ q := by
      rintro heq
      exact h.pgdir.notFree _ (Or.inl rfl) (heq ▸ hfree)
    have hp' : Present (u.mem mm.pgdir (pdx addr)) := by
      rw [hmem _ hdir]
      exact hp
    refine ⟨pmm, u, _, ht, hread, hupmm, htable, hmem, ?_⟩
    -- the page table is there, so `page_insert` creates none
    cases hins with
    | failure hno => exact absurd hp' hno
    | success hget =>
      cases hget with
      | table =>
        rw [hmem _ hdir]
        rfl
      | created _ _ hno => exact absurd hp' hno

theorem SwapIn.loaded_space (h : s.Space mm ram qs) {addr : Word} {r : ℤ} {q : ℕ}
    (hin : SwapIn s mm addr r (some q) t) (hv : pdx addr ≠ pdx VPT) :
    Loaded s mm addr q t ∧ t.Space mm ram (qs ++ [q]) := by
  obtain ⟨pmm, u, table, ht, -, hupmm, htable, hmem, rfl⟩ := hin.filled h hv
  obtain ⟨hfree, htaken⟩ := ht.one
  have hout : q ∉ pmm.freePages := by
    rw [htaken]
    exact fun hh => hh.2 rfl
  have hpaging : ∀ f ∈ s.paging mm.pgdir, f ≠ q := by
    rintro f hf rfl
    exact h.pgdir.notFree f hf hfree
  have hqs : q ∉ qs := fun hq => h.lists.notFree q hq hfree
  have hdata : q ∉ s.paging mm.pgdir := fun hq => hpaging q hq rfl
  -- the page was filled
  have hu : u.Space mm ram qs :=
    h.fill hfree (hupmm ▸ h.lists.takes ht) (hupmm ▸ ht.freePages_subset) hmem
  have hudir : ∀ j, u.mem mm.pgdir j = s.mem mm.pgdir j := hmem _ (hpaging _ (Or.inl rfl))
  have hutable : u.IsTable mm.pgdir (pdx addr) table := (isTable_congr hudir _ _).mpr htable
  have hupte : ∀ la, u.pteAt mm.pgdir la = s.pteAt mm.pgdir la :=
    h.pteAt_congr fun f hf => hmem f (hpaging f hf)
  -- and entered
  let w := u.mapPage mm.pgdir q addr (PTE_P ||| PTE_W ||| PTE_U) table (ptx addr)
  have hwrites := mapPage_writesEntry u mm.pgdir q addr (PTE_P ||| PTE_W ||| PTE_U) table
    (ptx addr)
  have hwpmm : w.pmm = pmm.setRef q ((pmm.page q).ref + 1) := by
    rw [← hupmm]
    exact mapPage_pmm ..
  have hwdir : ∀ j, w.mem mm.pgdir j = u.mem mm.pgdir j := hwrites.directory hu.pgdir hutable
  have hw : w.Space mm ram qs := hu.mapPage q _ hutable
  have hwout : q ∉ w.pmm.freePages := by
    rw [hwpmm, Pmm.setRef_freePages]
    exact hout
  have hwdata : q ∉ w.paging mm.pgdir := by
    rw [paging_congr hwdir, paging_congr hudir]
    exact hdata
  obtain ⟨-, hsame⟩ := hw.lists.enqueue (h.inRam hfree) hwout hqs
  refine ⟨⟨hfree, ?_, ?_, fun p => ?_, fun la => ?_, fun j => (hwdir j).trans (hudir j)⟩,
    hw.mapSwappable (h.inRam hfree) hwout hqs hwdata⟩
  · rw [swapFifoMapSwappable, h.head, setPmm_pmm, hsame, hwpmm, Pmm.setRef_freePages, htaken]
  · show w.pmm.nrFree = _
    rw [hwpmm, Pmm.setRef_nrFree, ht.nrFree]
  · show (w.pmm.page p).ref = _
    rw [hwpmm, Pmm.setRef_ref, ht.ref, ht.ref]
    by_cases hp : p = q <;> simp [hp]
  · show w.pteAt mm.pgdir la = _
    rw [hu.pteAt_write hwrites hutable, hupte]
    simp only [pagNum_inj]

theorem Space.swapIn (h : s.Space mm ram qs) {addr : Word} {r : ℤ} {p : Option ℕ}
    (hin : SwapIn s mm addr r p t) (hlists : t.pmm.Lists ram (qs ++ p.toList))
    (hv : pdx addr ≠ pdx VPT) : t.Space mm ram (qs ++ p.toList) := by
  cases p with
  | none =>
    rw [Option.toList_none, List.append_nil] at hlists ⊢
    exact (hin.same h rfl).2.space h hlists fun p hp => hp
  | some q => exact (hin.loaded_space h hv).2

/-! ## An iteration of `swap_out` -/

/-- The page at the head of the queue. -/
theorem Space.eq_cons (h : s.Space mm ram qs) {v : ℕ}
    (hn : listNext s.pmm.link mm.swapList = .pageLink v) : qs = v :: qs.tail :=
  h.lists.eq_cons_of_next (h.head ▸ hn)

theorem Space.dequeued_lists (h : s.Space mm ram qs) {v : ℕ}
    (hn : listNext s.pmm.link mm.swapList = .pageLink v) :
    (s.dequeued v).pmm.Lists ram qs.tail ∧ (s.dequeued v).pmm.freePages = s.pmm.freePages := by
  have hlists := h.lists
  rw [h.eq_cons hn] at hlists
  exact hlists.dequeue

/-- An iteration that evicted nothing. -/
theorem SwapOutOne.same (h : s.Space mm ram qs) {o : Outcome} (ho : SwapOutOne s mm o t)
    (hno : ∀ v addr, o ≠ .evicted v addr) : s.Same t := by
  cases ho with
  | stop => exact ⟨fun f _ j => rfl, rfl, fun p => rfl⟩
  | notFound hn hfind => exact ⟨fun f _ j => rfl, (h.dequeued_lists hn).2, fun p => rfl⟩
  | @writeFailed v r u hn hfind hp hw hr =>
    have hpmm := (s.dequeued v).swapfsWrite_pmm (s.swapOffset <<< 8) v
    have hmem := (s.dequeued v).swapfsWrite_mem (s.swapOffset <<< 8) v
    rw [hw] at hpmm hmem
    refine ⟨fun f _ j => ?_, ?_, fun p => ?_⟩
    · rw [hmem]
      rfl
    · rw [hpmm, (h.dequeued_lists hn).2]
    · rw [hpmm]
      rfl
  | evicted => exact absurd rfl (hno _ _)

/-- What is found for a page of the queue is outside the self-mapping slot. -/
theorem Space.found_ne_vpt (h : s.Space mm ram qs) {v : ℕ} (hv : v ∈ qs)
    (hfind : s.findVaddrForPage mm v ≠ 0#32) : pdx (s.findVaddrForPage mm v) ≠ pdx VPT :=
  h.pdx_ne_of_maps (h.data v hv) (findVaddrForPage_maps (h.low v (h.lists.inRam v hv)) hfind)

theorem SwapOutOne.evicted_space (h : s.Space mm ram qs) {v : ℕ} {addr : Word}
    (ho : SwapOutOne s mm (.evicted v addr) t) (hlists : t.pmm.Lists ram qs.tail) :
    Evicted s mm v addr t ∧ t.Space mm ram qs.tail := by
  generalize heq : Outcome.evicted v addr = o at ho
  cases ho with
  | stop | notFound | writeFailed => exact absurd heq (by simp)
  | @evicted v' u pmm hn hfind hp hw hg =>
    obtain ⟨hv, haddr⟩ := Outcome.evicted.inj heq
    subst hv
    rw [haddr]
    have hqs : v ∈ qs := by
      rw [h.eq_cons hn]
      exact List.mem_cons_self
    have hne := h.found_ne_vpt hqs hfind
    have htable : s.IsTable mm.pgdir (pdx (s.findVaddrForPage mm v)) _ := isTable_pdx hp hne
    -- writing the slot changes the disks only
    have hpmm := (s.dequeued v).swapfsWrite_pmm (s.swapOffset <<< 8) v
    have hmem := (s.dequeued v).swapfsWrite_mem (s.swapOffset <<< 8) v
    have hnext := (s.dequeued v).swapfsWrite_nextSwapOffset (s.swapOffset <<< 8) v
    rw [hw] at hpmm hmem hnext
    dsimp only at hpmm hmem hnext
    let table := pagNum (s.mem mm.pgdir (pdx (s.findVaddrForPage mm v)))
    let w := u.evictState mm table (ptx (s.findVaddrForPage mm v)) (s.swapOffset <<< 8)
      (s.findVaddrForPage mm v) pmm
    have hwrites : WritesEntry s w table (ptx (s.findVaddrForPage mm v)) (s.swapOffset <<< 8) := by
      intro f j
      show ((u.setWord _ _ _).tlbInvl _ _).mem f j = _
      rw [tlbInvl_mem, setWord_mem, hmem]
      rfl
    have hfree : w.pmm.freePages = s.pmm.freePages ∪ {v} := by
      show pmm.freePages = _
      rw [hg.one, hpmm, (h.dequeued_lists hn).2]
    have hdata := h.data v hqs
    refine ⟨⟨hn, rfl, hfind, findVaddrForPage_maps (h.low v (h.lists.inRam v hqs)) hfind, ?_,
      hfree, ?_, fun p => ?_, fun la => ?_, ?_, hwrites.directory h.pgdir htable,
      fun f hf j => ?_⟩, ?_⟩
    · rw [hw]
    · show pmm.nrFree = _
      rw [hg.nrFree, hpmm]
      rfl
    · show (pmm.page p).ref = _
      rw [hg.ref, hpmm]
      rfl
    · rw [h.pteAt_write hwrites htable]
      simp only [pagNum_inj]
    · rw [evictState_swapOffset, hnext]
      rfl
    · rw [hwrites, if_neg]
      rintro ⟨rfl, -⟩
      exact hf (Or.inr ⟨_, htable⟩)
    · refine h.writesEntry hwrites htable hlists (fun f hf => ?_)
        fun p hp => List.mem_of_mem_tail hp
      rw [hfree]
      rintro (hf' | rfl)
      · exact h.pgdir.notFree f hf hf'
      · exact hdata hf

theorem Space.swapOutOne (h : s.Space mm ram qs) {o : Outcome} (ho : SwapOutOne s mm o t)
    (hlists : t.pmm.Lists ram qs.tail) : t.Space mm ram qs.tail := by
  cases o with
  | evicted v addr => exact (ho.evicted_space h hlists).2
  | stop | skip =>
    exact (ho.same h (by simp)).space h hlists fun p hp => List.mem_of_mem_tail hp

end Effects
end Vm
end Zonix
