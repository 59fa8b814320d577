import Zonix.Mm.Swap
import Zonix.Mm.VmTheorems

/-!
# What `swap_in` and `swap_out` do

The reverse lookup returns the lowest address that maps a page. `SwapIn` and `SwapOutOne`
list what one call of `swap_in` and one iteration of `swap_out` can do, with every error
path; both keep the free list and the swap queue well formed, whatever the page tables and
the disks hold.
-/

namespace Zonix
open Lib

namespace Vm

/-! ## `find_vaddr_for_page` -/

theorem findSome?_range_eq_some {β : Type*} {n : ℕ} {f : ℕ → Option β} {b : β} :
    (List.range n).findSome? f = some b ↔ ∃ i < n, f i = some b ∧ ∀ j < i, f j = none := by
  induction n with
  | zero => simp
  | succ n ih =>
    rw [List.range_succ, List.findSome?_append]
    cases hfind : (List.range n).findSome? f with
    | some c =>
      rw [hfind] at ih
      rw [Option.some_or, ih]
      constructor
      · rintro ⟨i, hi, hfi, hbefore⟩
        exact ⟨i, by omega, hfi, hbefore⟩
      · rintro ⟨i, hi, hfi, hbefore⟩
        refine ⟨i, ?_, hfi, hbefore⟩
        -- index `n` is not reached: an earlier one is defined
        by_contra hin
        obtain ⟨x, hx, hfx⟩ := List.exists_of_findSome?_eq_some hfind
        rw [hbefore x (by rw [List.mem_range] at hx; omega)] at hfx
        exact absurd hfx (by simp)
    | none =>
      rw [List.findSome?_eq_none_iff] at hfind
      simp only [List.mem_range] at hfind
      rw [Option.none_or, List.findSome?_singleton]
      constructor
      · intro hfn
        exact ⟨n, by omega, hfn, hfind⟩
      · rintro ⟨i, hi, hfi, -⟩
        obtain rfl : i = n := by
          by_contra hne
          rw [hfind i (by omega)] at hfi
          exact absurd hfi (by simp)
        exact hfi

/-- The tables map the page of `la` to frame `p`. -/
def Maps (s : Vm) (pgdir : ℕ) (la : Word) (p : ℕ) : Prop :=
  Present (s.pteAt pgdir la) ∧ pagNum (s.pteAt pgdir la) = p

instance (s : Vm) (pgdir : ℕ) (la : Word) (p : ℕ) : Decidable (s.Maps pgdir la p) :=
  inferInstanceAs (Decidable (_ ∧ _))

theorem maps_iff_of_present {s : Vm} {pgdir p : ℕ} {la : Word}
    (hp : Present (s.mem pgdir (pdx la))) : s.Maps pgdir la p ↔
      Present (s.mem (pagNum (s.mem pgdir (pdx la))) (ptx la)) ∧
        pagNum (s.mem (pagNum (s.mem pgdir (pdx la))) (ptx la)) = p := by
  rw [Maps, pteAt, if_pos hp]

/-- The entry that `page_insert` writes maps the page. -/
theorem maps_of_entry {s : Vm} {pgdir p : ℕ} {la perm : Word}
    (h : s.pteAt pgdir la = page2pa p ||| perm ||| PTE_P) (hp : p < 2 ^ 20)
    (hperm : perm < 0x1000#32) : s.Maps pgdir la p := by
  rw [Maps, h]
  exact ⟨present_entry _, pagNum_entry hp hperm⟩

theorem Maps.present {s : Vm} {pgdir p : ℕ} {la : Word} (h : s.Maps pgdir la p) :
    Present (s.mem pgdir (pdx la)) := by
  by_contra hp
  rw [Maps, pteAt_of_not_present hp] at h
  exact not_present_zero h.1

/-- The entry of an address depends on its page only. -/
theorem pteAt_page (s : Vm) (pgdir : ℕ) {la la' : Word} (h : pagNum la = pagNum la') :
    s.pteAt pgdir la = s.pteAt pgdir la' := by
  rw [pagNum_inj] at h
  rw [pteAt, pteAt, h.1, h.2]

/-- Whether an address is mapped does too. -/
theorem maps_congr {s : Vm} {pgdir p : ℕ} {la la' : Word} (h : pagNum la = pagNum la') :
    s.Maps pgdir la p ↔ s.Maps pgdir la' p := by
  rw [Maps, Maps, pteAt_page s pgdir h]

theorem pagNum_pageAddr {d t : ℕ} (hd : d < 1024) (ht : t < 1024) :
    pagNum (pageAddr d t) = d * 1024 + t := by
  rw [pagNum_eq_index, pdx_pageAddr hd ht, ptx_pageAddr hd ht]

theorem findInTable_eq_some {s : Vm} {pa : Word} {d table : ℕ} {a : Word} :
    s.findInTable pa d table = some a ↔ ∃ t < 1024,
      (Present (s.mem table t) ∧ pteAddr (s.mem table t) = pa) ∧ pageAddr d t = a ∧
      ∀ t' < t, ¬ (Present (s.mem table t') ∧ pteAddr (s.mem table t') = pa) := by
  rw [findInTable, findSome?_range_eq_some, PTE_NUM]
  refine exists_congr fun t => and_congr_right fun _ => ?_
  simp only [ite_eq_right_iff, reduceCtorEq, imp_false]
  by_cases hm : Present (s.mem table t) ∧ pteAddr (s.mem table t) = pa
  · simp [hm]
  · rw [if_neg hm]
    simp [hm]

theorem findInTable_eq_none {s : Vm} {pa : Word} {d table : ℕ} :
    s.findInTable pa d table = none ↔
      ∀ t < 1024, ¬ (Present (s.mem table t) ∧ pteAddr (s.mem table t) = pa) := by
  rw [findInTable, List.findSome?_eq_none_iff, PTE_NUM]
  simp

section Find
variable {s : Vm} {mm : MmStruct} {p : ℕ}

/-- Whether an address maps the frame, as the reverse lookup asks it of an entry of the table. -/
theorem maps_iff_entry {la : Word} (hp : p < 2 ^ 20) (hpres : Present (s.mem mm.pgdir (pdx la))) :
    s.Maps mm.pgdir la p ↔
      Present (s.mem (pagNum (pteAddr (s.mem mm.pgdir (pdx la)))) (ptx la)) ∧
        pteAddr (s.mem (pagNum (pteAddr (s.mem mm.pgdir (pdx la)))) (ptx la)) = page2pa p := by
  rw [maps_iff_of_present hpres, pagNum_pteAddr, pteAddr_eq_page2pa hp]

/-- The search is in the order of the directory entries, and in each table in that of its own. -/
theorem pagNum_pageAddr_le {d t : ℕ} {la : Word} (hd : d < 1024) (ht : t < 1024)
    (hdx : d ≤ pdx la) (htx : pdx la = d → t ≤ ptx la) : pagNum (pageAddr d t) ≤ pagNum la := by
  rw [pagNum_pageAddr hd ht, pagNum_eq_index]
  rcases Nat.lt_or_eq_of_le hdx with hlt | heq
  · omega
  · have := htx heq.symm
    omega

/-- The reverse lookup finds the lowest page that maps the frame, if any does. -/
theorem findVaddrForPage_cases (s : Vm) (mm : MmStruct) (hp : p < 2 ^ 20) :
    (∃ d t, d < 1024 ∧ t < 1024 ∧ s.findVaddrForPage mm p = pageAddr d t ∧
      s.Maps mm.pgdir (pageAddr d t) p ∧
      ∀ la, s.Maps mm.pgdir la p → pagNum (pageAddr d t) ≤ pagNum la) ∨
    (s.findVaddrForPage mm p = 0#32 ∧ ∀ la, ¬ s.Maps mm.pgdir la p) := by
  rw [findVaddrForPage]
  cases hfind : (List.range PDE_NUM).findSome? fun d =>
      if Present (s.mem mm.pgdir d) then
        s.findInTable (page2pa p) d (pagNum (pteAddr (s.mem mm.pgdir d)))
      else none with
  | some a =>
    left
    obtain ⟨d, hd, hsome, hbefore⟩ := findSome?_range_eq_some.mp hfind
    have hpres : Present (s.mem mm.pgdir d) := by
      by_contra hno
      rw [if_neg hno] at hsome
      exact absurd hsome (by simp)
    rw [if_pos hpres, findInTable_eq_some] at hsome
    obtain ⟨t, ht, hm, rfl, hmin⟩ := hsome
    refine ⟨d, t, hd, ht, rfl, ?_, fun la hla => ?_⟩
    · rw [maps_iff_entry hp, pdx_pageAddr hd ht, ptx_pageAddr hd ht]
      · exact hm
      · rwa [pdx_pageAddr hd ht]
    · have hpres' := hla.present
      have hm' := (maps_iff_entry hp hpres').mp hla
      apply pagNum_pageAddr_le hd ht
      · by_contra hlt
        have hnone := hbefore (pdx la) (by omega)
        rw [if_pos hpres', findInTable_eq_none] at hnone
        exact hnone (ptx la) (ptx_lt la) hm'
      · intro heq
        by_contra hlt
        rw [heq] at hm'
        exact hmin (ptx la) (by omega) hm'
  | none =>
    right
    refine ⟨rfl, fun la hla => ?_⟩
    rw [List.findSome?_eq_none_iff] at hfind
    have hnone := hfind (pdx la) (List.mem_range.mpr (pdx_lt la))
    rw [if_pos hla.present, findInTable_eq_none] at hnone
    exact hnone (ptx la) (ptx_lt la) ((maps_iff_entry hp hla.present).mp hla)

/-- What is found maps the frame. -/
theorem findVaddrForPage_maps (hp : p < 2 ^ 20) (h : s.findVaddrForPage mm p ≠ 0#32) :
    s.Maps mm.pgdir (s.findVaddrForPage mm p) p := by
  rcases findVaddrForPage_cases s mm hp with ⟨d, t, -, -, heq, hm, -⟩ | ⟨heq, -⟩
  · rw [heq]
    exact hm
  · exact absurd heq h

/-- What maps the frame is found, or something lower is. -/
theorem findVaddrForPage_le (hp : p < 2 ^ 20) {la : Word} (h : s.Maps mm.pgdir la p) :
    s.Maps mm.pgdir (s.findVaddrForPage mm p) p ∧
      pagNum (s.findVaddrForPage mm p) ≤ pagNum la := by
  rcases findVaddrForPage_cases s mm hp with ⟨d, t, -, -, heq, hm, hmin⟩ | ⟨-, hno⟩
  · rw [heq]
    exact ⟨hm, hmin la h⟩
  · exact absurd h (hno la)

end Find

/-! ## The swap file system -/

section Swapfs
variable (s : Vm) (entry : Word) (page : ℕ)

/-- What `blk_read` does for `swapfs_read`. -/
def slotRead : ℤ × Ide × (ℕ → Word) :=
  s.ide.blkRead s.swapDevice (swapSector entry) (s.mem (pagNum (page2pa page))) SECTORS_PER_PAGE

/-- What `blk_write` does for `swapfs_write`. -/
def slotWrite : ℤ × Ide :=
  s.ide.blkWrite s.swapDevice (swapSector entry) (s.mem (pagNum (page2pa page))) SECTORS_PER_PAGE

theorem swapfsRead_eq : s.swapfsRead entry page = (if (s.slotRead entry page).1 ≠ 0 then -1 else 0,
    (s.setIde (s.slotRead entry page).2.1).setFrame (pagNum (page2pa page))
      (s.slotRead entry page).2.2) := by
  show (if (s.slotRead entry page).1 ≠ 0 then (-1, _) else (0, _)) = _
  split_ifs <;> rfl

theorem swapfsWrite_eq : s.swapfsWrite entry page =
    (if (s.slotWrite entry page).1 ≠ 0 then -1 else 0, s.setIde (s.slotWrite entry page).2) := by
  show (if (s.slotWrite entry page).1 ≠ 0 then (-1, _) else (0, _)) = _
  split_ifs <;> rfl

@[simp] theorem swapfsRead_pmm : (s.swapfsRead entry page).2.pmm = s.pmm := by
  rw [swapfsRead_eq]
  rfl

theorem swapfsRead_mem {f : ℕ} (hf : f ≠ pagNum (page2pa page)) (j : ℕ) :
    (s.swapfsRead entry page).2.mem f j = s.mem f j := by
  rw [swapfsRead_eq, setFrame_mem, if_neg hf]
  rfl

@[simp] theorem swapfsRead_cr3 : (s.swapfsRead entry page).2.cr3 = s.cr3 := by
  rw [swapfsRead_eq]
  rfl

@[simp] theorem swapfsWrite_cr3 : (s.swapfsWrite entry page).2.cr3 = s.cr3 := by
  rw [swapfsWrite_eq]
  rfl

@[simp] theorem swapfsWrite_pmm : (s.swapfsWrite entry page).2.pmm = s.pmm := by
  rw [swapfsWrite_eq]
  rfl

@[simp] theorem swapfsWrite_mem : (s.swapfsWrite entry page).2.mem = s.mem := by
  rw [swapfsWrite_eq]
  rfl

@[simp] theorem swapfsWrite_nextSwapOffset :
    (s.swapfsWrite entry page).2.nextSwapOffset = s.nextSwapOffset := by
  rw [swapfsWrite_eq]
  rfl

end Swapfs

/-! ## `swap_in` -/

/-- What `swap_in(mm, addr, page_ptr)` returns, stores at `page_ptr` and leaves behind. -/
inductive SwapIn (s : Vm) (mm : MmStruct) (addr : Word) : ℤ → Option ℕ → Vm → Prop
  | exhausted (hfree : s.pmm.freePages = ∅) : SwapIn s mm addr (-1) none s
  | noTable {page : ℕ} {pmm pmm' : Pmm} (ht : s.pmm.Takes 1 page pmm)
      (hp : ¬ Present (s.mem mm.pgdir (pdx addr))) (hg : pmm.Gives page 1 pmm') :
      SwapIn s mm addr (-1) none (s.setPmm pmm')
  | readFailed {page : ℕ} {pmm pmm' : Pmm} {r : ℤ} {t : Vm} (ht : s.pmm.Takes 1 page pmm)
      (hp : Present (s.mem mm.pgdir (pdx addr)))
      (hread : (s.setPmm pmm).swapfsRead (s.pteAt mm.pgdir addr) page = (r, t)) (hr : r ≠ 0)
      (hg : pmm.Gives page 1 pmm') : SwapIn s mm addr (-1) none (t.setPmm pmm')
  | loaded {page : ℕ} {pmm : Pmm} {res : ℤ} {t u : Vm} (ht : s.pmm.Takes 1 page pmm)
      (hp : Present (s.mem mm.pgdir (pdx addr)))
      (hread : (s.setPmm pmm).swapfsRead (s.pteAt mm.pgdir addr) page = (0, t))
      (hins : PageInsert t mm.pgdir page addr (PTE_P ||| PTE_W ||| PTE_U) res u) :
      SwapIn s mm addr 0 (some page) (u.swapFifoMapSwappable mm page)

section SwapIn
variable {s : Vm} {mm : MmStruct} {ram : Set ℕ} {qs : List ℕ}

theorem swapIn_spec (h : s.pmm.Lists ram qs) (hmm : mm.swapList = .praListHead) (addr : Word) :
    ∃ r p s', s.swapIn mm addr = some (r, p, s') ∧ SwapIn s mm addr r p s' ∧
      s'.pmm.Lists ram (qs ++ p.toList) := by
  obtain ⟨bs, hinv⟩ := h.free
  rcases hinv.alloc_cases le_rfl with ⟨heq, hfree⟩ | ⟨page, pmm, heq, ht⟩
  · refine ⟨-1, none, s, ?_, .exhausted (hfree rfl), ?_⟩
    · simp [swapIn, allocPages, heq, setPmm]
    · rw [Option.toList_none, List.append_nil]
      exact h
  -- the page that was allocated is on neither list
  obtain ⟨hpage, hpmm⟩ := ht.one
  have hlists := h.takes ht
  have hram : page ∈ ram := by
    rw [hinv.toRep.freePages_eq] at hpage
    exact hinv.inRam hpage
  have hout : page ∉ pmm.freePages := by
    rw [hpmm]
    exact fun hh => hh.2 rfl
  have hqs : page ∉ qs := fun hq => h.notFree page hq hpage
  obtain ⟨pmm', heq', hg, hlists'⟩ := hlists.free_one hram hout hqs
  have hnil : qs ++ (none : Option ℕ).toList = qs := List.append_nil qs
  by_cases hp : Present (s.mem mm.pgdir (pdx addr))
  · have hpte : s.mem (pagNum (s.mem mm.pgdir (pdx addr))) (ptx addr) = s.pteAt mm.pgdir addr :=
      (if_pos hp).symm
    cases hread : (s.setPmm pmm).swapfsRead (s.pteAt mm.pgdir addr) page with
    | mk r t =>
      have htpmm : t.pmm = pmm := by
        have := (s.setPmm pmm).swapfsRead_pmm (s.pteAt mm.pgdir addr) page
        rwa [hread] at this
      by_cases hr : r = 0
      · subst hr
        obtain ⟨bs', hinv'⟩ := hlists.free
        obtain ⟨res, u, hequ, hins⟩ := pageInsert_spec (htpmm ▸ hinv') mm.pgdir page addr
          (PTE_P ||| PTE_W ||| PTE_U)
        refine ⟨0, some page, _, ?_, .loaded ht hp hread hins, ?_⟩
        · simp [swapIn, allocPages, heq, getPte, hp, pagNum_pteAddr, hpte, hread, hequ]
        · have hu := hins.lists (htpmm ▸ hlists)
          have hout' : page ∉ u.pmm.freePages := fun hh =>
            hout (htpmm ▸ hins.freePages_subset hh)
          rw [swapFifoMapSwappable, hmm]
          exact (hu.enqueue hram hout' hqs).1
      · refine ⟨-1, none, _, ?_, .readFailed ht hp hread hr hg, hnil.symm ▸ hlists'⟩
        simp [swapIn, allocPages, heq, getPte, hp, pagNum_pteAddr, hpte, hread, hr, pagesFree,
          heq']
  · refine ⟨-1, none, _, ?_, .noTable ht hp hg, hnil.symm ▸ hlists'⟩
    simp [swapIn, allocPages, heq, getPte, hp, pagesFree, heq', setPmm]

end SwapIn

/-! ## `swap_out` -/

/-- The victim was taken off the queue. -/
def dequeued (s : Vm) (victim : ℕ) : Vm :=
  s.setPmm (s.pmm.setLink (listDel s.pmm.link (.pageLink victim)))

/-- The entry of the victim was replaced, and the victim freed. -/
def evictState (s : Vm) (mm : MmStruct) (table i : ℕ) (swapEntry : Word) (victimAddr : Word)
    (pmm : Pmm) : Vm :=
  let s := ((s.setWord table i swapEntry).tlbInvl mm.pgdir victimAddr).setPmm pmm
  { s with swapOffset := s.nextSwapOffset }

theorem evictState_swapOffset (s : Vm) (mm : MmStruct) (table i : ℕ) (swapEntry : Word)
    (victimAddr : Word) (pmm : Pmm) :
    (s.evictState mm table i swapEntry victimAddr pmm).swapOffset = s.nextSwapOffset := by
  show ((s.setWord table i swapEntry).tlbInvl mm.pgdir victimAddr).nextSwapOffset = _
  rw [tlbInvl]
  split_ifs <;> rfl

theorem evictState_ide (s : Vm) (mm : MmStruct) (table i : ℕ) (swapEntry : Word)
    (victimAddr : Word) (pmm : Pmm) :
    (s.evictState mm table i swapEntry victimAddr pmm).ide = s.ide :=
  tlbInvl_ide ..

/-- What an iteration of `swap_out` does and leaves behind. -/
inductive SwapOutOne (s : Vm) (mm : MmStruct) : Outcome → Vm → Prop
  | stop (hn : listNext s.pmm.link mm.swapList = mm.swapList) : SwapOutOne s mm .stop s
  | notFound {v : ℕ} (hn : listNext s.pmm.link mm.swapList = .pageLink v)
      (hfind : s.findVaddrForPage mm v = 0#32 ∨
        ¬ Present (s.mem mm.pgdir (pdx (s.findVaddrForPage mm v)))) :
      SwapOutOne s mm .skip (s.dequeued v)
  | writeFailed {v : ℕ} {r : ℤ} {t : Vm} (hn : listNext s.pmm.link mm.swapList = .pageLink v)
      (hfind : s.findVaddrForPage mm v ≠ 0#32)
      (hp : Present (s.mem mm.pgdir (pdx (s.findVaddrForPage mm v))))
      (hw : (s.dequeued v).swapfsWrite (s.swapOffset <<< 8) v = (r, t)) (hr : r ≠ 0) :
      SwapOutOne s mm .skip t
  | evicted {v : ℕ} {t : Vm} {pmm : Pmm} (hn : listNext s.pmm.link mm.swapList = .pageLink v)
      (hfind : s.findVaddrForPage mm v ≠ 0#32)
      (hp : Present (s.mem mm.pgdir (pdx (s.findVaddrForPage mm v))))
      (hw : (s.dequeued v).swapfsWrite (s.swapOffset <<< 8) v = (0, t))
      (hg : t.pmm.Gives v 1 pmm) :
      SwapOutOne s mm (.evicted v (s.findVaddrForPage mm v))
        (t.evictState mm (pagNum (s.mem mm.pgdir (pdx (s.findVaddrForPage mm v))))
          (ptx (s.findVaddrForPage mm v)) (s.swapOffset <<< 8) (s.findVaddrForPage mm v) pmm)

section SwapOut
variable {s : Vm} {mm : MmStruct} {ram : Set ℕ} {qs : List ℕ}

theorem swapOutOne_spec (h : s.pmm.Lists ram qs) (hmm : mm.swapList = .praListHead) :
    ∃ o s', s.swapOutOne mm = some (o, s') ∧ SwapOutOne s mm o s' ∧
      s'.pmm.Lists ram qs.tail ∧ (o = .stop ↔ qs = []) := by
  cases qs with
  | nil =>
    have hn := h.next_nil
    refine ⟨.stop, s, ?_, .stop (hmm ▸ hn), h, by simp⟩
    simp [swapOutOne, swapFifoSwapOutVictim, hmm, hn]
  | cons v qs =>
    have hn := h.next_cons
    have hn' : listNext s.pmm.link mm.swapList = .pageLink v := hmm ▸ hn
    obtain ⟨hdeq, hfree⟩ := h.dequeue
    have hvictim : s.swapFifoSwapOutVictim mm = some (0, some v, s.dequeued v) := by
      simp [swapFifoSwapOutVictim, hmm, hn, le2page, dequeued]
    have hfind : (s.dequeued v).findVaddrForPage mm v = s.findVaddrForPage mm v := rfl
    have hmem : (s.dequeued v).mem = s.mem := rfl
    have hoff : (s.dequeued v).swapOffset = s.swapOffset := rfl
    rw [List.tail_cons]
    -- from here on the victim is off the queue, whichever way the iteration ends
    by_cases hz : s.findVaddrForPage mm v = 0#32
    · refine ⟨.skip, s.dequeued v, ?_, .notFound hn' (Or.inl hz), hdeq, by simp⟩
      simp [swapOutOne, hvictim, hfind, hz]
    by_cases hp : Present (s.mem mm.pgdir (pdx (s.findVaddrForPage mm v)))
    · have hget : (s.dequeued v).getPte mm.pgdir (s.findVaddrForPage mm v) false =
          some (some (pagNum (s.mem mm.pgdir (pdx (s.findVaddrForPage mm v))),
            ptx (s.findVaddrForPage mm v)), s.dequeued v) := by
        rw [getPte, hmem, if_pos hp, pagNum_pteAddr]
      cases hw : (s.dequeued v).swapfsWrite (s.swapOffset <<< 8) v with
      | mk r t =>
        have ht : t.pmm = (s.dequeued v).pmm := by
          have := (s.dequeued v).swapfsWrite_pmm (s.swapOffset <<< 8) v
          rwa [hw] at this
        by_cases hr : r = 0
        · subst hr
          have hnd := h.queue_nodup
          rw [List.nodup_cons] at hnd
          have hram := h.inRam v (by simp)
          have hout : v ∉ (s.dequeued v).pmm.freePages := by
            rw [show (s.dequeued v).pmm.freePages = s.pmm.freePages from hfree]
            exact h.notFree v (by simp)
          obtain ⟨pmm, heq, hg, hlists⟩ := Pmm.Lists.free_one hdeq hram hout hnd.1
          refine ⟨_, _, ?_, .evicted hn' hz hp hw (ht ▸ hg), hlists, by simp⟩
          have heq' : (s.dequeued v).pmm.free v 1 = some pmm := heq
          simp [swapOutOne, hvictim, hfind, hz, hget, hoff, hw, evict, evictState, pagesFree, heq']
        · refine ⟨.skip, t, ?_, .writeFailed hn' hz hp hw hr, ht ▸ hdeq, by simp⟩
          simp [swapOutOne, hvictim, hfind, hz, hget, hoff, hw, hr]
    · have hget : (s.dequeued v).getPte mm.pgdir (s.findVaddrForPage mm v) false =
          some (none, s.dequeued v) := by
        rw [getPte, hmem, if_neg hp]
        rfl
      refine ⟨.skip, s.dequeued v, ?_, .notFound hn' (Or.inr hp), hdeq, by simp⟩
      simp [swapOutOne, hvictim, hfind, hz, hget]

/-- The head of the queue is evicted, when it is found and the disk takes it. -/
theorem SwapOutOne.eq_evicted {o : Outcome} {t : Vm} {v : ℕ} (ho : SwapOutOne s mm o t)
    (hmm : mm.swapList = .praListHead) (hlow : v < 2 ^ 20)
    (hv : listNext s.pmm.link mm.swapList = .pageLink v) (hfind : s.findVaddrForPage mm v ≠ 0#32)
    (hw : ((s.dequeued v).swapfsWrite (s.swapOffset <<< 8) v).1 = 0) :
    o = .evicted v (s.findVaddrForPage mm v) := by
  have hhead : ∀ {v'}, listNext s.pmm.link mm.swapList = .pageLink v' → v' = v := fun hn =>
    ListEntry.pageLink.inj (hn.symm.trans hv)
  cases ho with
  | stop hn =>
    rw [hv, hmm] at hn
    exact absurd hn (by simp)
  | notFound hn hno =>
    obtain rfl := hhead hn
    have hpres := (findVaddrForPage_maps hlow hfind).present
    exact (hno.elim hfind fun hh => hh hpres).elim
  | writeFailed hn hf hp hw' hr =>
    obtain rfl := hhead hn
    rw [hw'] at hw
    exact absurd hw hr
  | evicted hn =>
    obtain rfl := hhead hn
    rfl

/-- `break` -/
theorem swapOutLoop_stop {t : Vm} (heq : s.swapOutOne mm = some (.stop, t)) (k : ℕ) (i : ℤ) :
    swapOutLoop mm (k + 1) i s = some (i, t) := by
  simp only [swapOutLoop, heq, Option.bind_eq_bind, Option.bind_some]

/-- `continue`, or the end of the loop's body. -/
theorem swapOutLoop_next {o : Outcome} {t : Vm} (heq : s.swapOutOne mm = some (o, t))
    (ho : o ≠ .stop) (k : ℕ) (i : ℤ) :
    swapOutLoop mm (k + 1) i s = swapOutLoop mm k (i + 1) t := by
  cases o with
  | stop => exact absurd rfl ho
  | skip | evicted => simp only [swapOutLoop, heq, Option.bind_eq_bind, Option.bind_some]

/-- What every iteration keeps, `swap_out` keeps; and it returns. -/
theorem swapOutLoop_spec {I : Vm → Prop}
    (hstep : ∀ s, I s → ∃ o s', s.swapOutOne mm = some (o, s') ∧ I s') (k : ℕ) (i : ℤ) (s : Vm)
    (hs : I s) : ∃ r s', swapOutLoop mm k i s = some (r, s') ∧ I s' := by
  induction k generalizing i s with
  | zero => exact ⟨i, s, rfl, hs⟩
  | succ k ih =>
    obtain ⟨o, t, heq, ht⟩ := hstep s hs
    by_cases ho : o = .stop
    · subst ho
      exact ⟨i, t, swapOutLoop_stop heq k i, ht⟩
    · rw [swapOutLoop_next heq ho]
      exact ih (i + 1) t ht

theorem swapOut_lists (h : s.pmm.Lists ram qs) (hmm : mm.swapList = .praListHead) (n : ℤ) :
    ∃ r s', s.swapOut mm n = some (r, s') ∧ ∃ qs', s'.pmm.Lists ram qs' := by
  refine swapOutLoop_spec (fun t ht => ?_) n.toNat 0 s ⟨qs, h⟩
  obtain ⟨qs', h'⟩ := ht
  obtain ⟨o, t', heq, -, hlists, -⟩ := swapOutOne_spec h' hmm
  exact ⟨o, t', heq, qs'.tail, hlists⟩

end SwapOut

end Vm
end Zonix
