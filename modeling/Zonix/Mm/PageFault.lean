import Zonix.Mm.SpaceRun

/-!
# `vmm_pg_fault`

The handler asks only whether the entry is zero. An entry that is present is not, so it is taken
for a swap entry: the fault does no damage exactly when `swap_in` fails. And what the two calls
return is not looked at, so the handler reports success whether the fault was repaired or not.
-/

namespace Zonix
open Lib

namespace Vm

/-- The bit of the error code that says that the access was a write. -/
def FAULT_WRITE : Word := 0x2#32

/-- The disk read of the slot that an entry names succeeds. It does not depend on the buffer. -/
def SlotReads (s : Vm) (entry : Word) : Prop :=
  (s.ide.blkRead s.swapDevice (swapSector entry) (fun _ => 0#32) SECTORS_PER_PAGE).1 = 0

instance (s : Vm) (entry : Word) : Decidable (s.SlotReads entry) :=
  inferInstanceAs (Decidable (_ = _))

section Handler
variable {s t : Vm} {mm : MmStruct} {ram : Set ℕ} {qs : List ℕ} {addr : Word}

theorem slotRead_iff (s : Vm) (entry : Word) (page : ℕ) :
    (s.slotRead entry page).1 = 0 ↔ s.SlotReads entry := by
  unfold slotRead SlotReads
  rw [Ide.blkRead_buf]

theorem swapfsRead_iff (s : Vm) (entry : Word) (page : ℕ) :
    (s.swapfsRead entry page).1 = 0 ↔ s.SlotReads entry := by
  rw [swapfsRead_eq, ← s.slotRead_iff entry page]
  by_cases hr : (s.slotRead entry page).1 = 0 <;> simp [hr]

theorem pdx_roundDown (addr : Word) : pdx (roundDown addr) = pdx addr :=
  (pagNum_inj.mp (pagNum_roundDown addr)).1

theorem ptx_roundDown (addr : Word) : ptx (roundDown addr) = ptx addr :=
  (pagNum_inj.mp (pagNum_roundDown addr)).2

theorem pteAt_roundDown (s : Vm) (pgdir : ℕ) (addr : Word) :
    s.pteAt pgdir (roundDown addr) = s.pteAt pgdir addr :=
  s.pteAt_page pgdir (pagNum_roundDown addr)

/-- Where there is a page table, the entry of the address decides. -/
theorem vmmPgFault_table (hp : Present (s.mem mm.pgdir (pdx addr))) :
    s.vmmPgFault mm addr =
      if s.pteAt mm.pgdir addr = 0#32 then
        (s.pgdirAllocPage mm.pgdir (roundDown addr) PTE_U).map fun x => (0, x.2)
      else (s.swapIn mm (roundDown addr)).map fun x => (0, x.2.2) := by
  have hget : s.getPte mm.pgdir (roundDown addr) true =
      some (some (pagNum (s.mem mm.pgdir (pdx addr)), ptx addr), s) := by
    rw [Vm.getPte, pdx_roundDown, ptx_roundDown, if_pos hp, pagNum_pteAddr]
  have hpte : s.loadPte (some (pagNum (s.mem mm.pgdir (pdx addr)), ptx addr)) =
      some (s.pteAt mm.pgdir addr) := by
    rw [pteAt, if_pos hp]
    rfl
  unfold vmmPgFault
  simp only [hget, hpte, Option.bind_eq_bind, Option.bind_some]
  split_ifs
  · cases s.pgdirAllocPage mm.pgdir (roundDown addr) PTE_U <;> rfl
  · cases s.swapIn mm (roundDown addr) <;> rfl

/-- Without a page table, one is made first, and the entry is empty. -/
theorem vmmPgFault_newTable {page : ℕ} {pmm : Pmm} (h : s.Space mm ram qs)
    (heq : s.getPte mm.pgdir (roundDown addr) true =
      some (some (pagNum (page2pa page ||| PTE_USER), ptx addr),
        s.newTable mm.pgdir (roundDown addr) page pmm)) (ht : s.pmm.Takes 1 page pmm) :
    s.vmmPgFault mm addr = ((s.newTable mm.pgdir (roundDown addr) page pmm).pgdirAllocPage
      mm.pgdir (roundDown addr) PTE_U).map fun x => (0, x.2) := by
  have hfree := ht.one.1
  have hlt := h.freeLow page hfree
  have hne : page ≠ mm.pgdir := by
    rintro rfl
    exact h.pgdir.notFree _ (Or.inl rfl) hfree
  have hpte : (s.newTable mm.pgdir (roundDown addr) page pmm).loadPte
      (some (pagNum (page2pa page ||| PTE_USER), ptx addr)) = some 0#32 := by
    rw [pagNum_or (by decide), loadPte, newTable_mem, pagNum_page2pa hlt,
      if_neg fun hh => hne hh.1, if_pos rfl]
  unfold vmmPgFault
  simp only [heq, hpte, Option.bind_eq_bind, Option.bind_some, if_true]
  cases (s.newTable mm.pgdir (roundDown addr) page pmm).pgdirAllocPage mm.pgdir (roundDown addr)
    PTE_U <;> rfl

/-! ## Swapping in -/

/-- Without a free page `swap_in` does nothing. -/
theorem swapIn_exhausted (h : s.Space mm ram qs) (hfree : s.pmm.nrFree = 0) (addr : Word) :
    s.swapIn mm addr = some (-1, none, s) := by
  obtain ⟨bs, hinv⟩ := h.lists.free
  obtain ⟨r, p, t, heq, hspec, -⟩ := swapIn_spec h.lists h.head addr
  have hempty := hinv.nrFree_eq_zero_iff.mp hfree
  cases hspec with
  | exhausted => exact heq
  | noTable ht | readFailed ht | loaded ht =>
    have hmem := ht.one.1
    rw [hempty] at hmem
    exact hmem.elim

/-- The slot is read: a page is taken, and mapped. -/
theorem swapIn_loaded (h : s.Space mm ram qs) (hfree : s.pmm.nrFree ≠ 0)
    (hp : Present (s.mem mm.pgdir (pdx addr))) (hread : s.SlotReads (s.pteAt mm.pgdir addr)) :
    ∃ q t, s.swapIn mm addr = some (0, some q, t) ∧ SwapIn s mm addr 0 (some q) t := by
  obtain ⟨bs, hinv⟩ := h.lists.free
  obtain ⟨r, p, t, heq, hspec, -⟩ := swapIn_spec h.lists h.head addr
  cases hspec with
  | exhausted hempty => exact absurd (hinv.nrFree_eq_zero_iff.mpr hempty) hfree
  | noTable ht hno => exact absurd hp hno
  | @readFailed page pmm pmm' r u ht hp' hu hr =>
    have hok := ((s.setPmm pmm).swapfsRead_iff (s.pteAt mm.pgdir addr) page).mpr hread
    rw [hu] at hok
    exact absurd hok hr
  | loaded ht hp' hu hins => exact ⟨_, _, heq, .loaded ht hp' hu hins⟩

theorem PageInsert.nrFree_le {pgdir page : ℕ} {perm : Word} {res : ℤ}
    (hins : PageInsert s pgdir page addr perm res t) : t.pmm.nrFree ≤ s.pmm.nrFree := by
  cases hins with
  | failure => exact le_rfl
  | success hget =>
    rw [mapPage_pmm, Pmm.setRef_nrFree]
    cases hget with
    | table => exact le_rfl
    | created p pmm hno hc ht =>
      rw [newTable_pmm, Pmm.setRef_nrFree, ht.nrFree]
      exact Nat.sub_le _ _

/-- The page that was loaded is not free any more. -/
theorem SwapIn.nrFree_lt {q : ℕ} {r : ℤ} (hin : SwapIn s mm addr r (some q) t)
    (hfree : s.pmm.nrFree ≠ 0) : t.pmm.nrFree < s.pmm.nrFree := by
  generalize hpq : some q = p at hin
  cases hin with
  | exhausted | noTable | readFailed => exact absurd hpq (by simp)
  | @loaded page pmm res u w ht hp hread hins =>
    have hupmm := (s.setPmm pmm).swapfsRead_pmm (s.pteAt mm.pgdir addr) page
    rw [hread] at hupmm
    have htaken := ht.nrFree
    have hle := hins.nrFree_le
    rw [hupmm, setPmm_pmm] at hle
    show w.pmm.nrFree < _
    omega

/-- The page taken for it is the first on the free list, and holds the sectors that were read. -/
theorem swapIn_readFailed (h : s.Space mm ram qs) (hfree : s.pmm.nrFree ≠ 0)
    (hp : Present (s.mem mm.pgdir (pdx addr))) (hread : ¬ s.SlotReads (s.pteAt mm.pgdir addr)) :
    ∃ q t, listNext s.pmm.link .freeList = .pageLink q ∧ s.swapIn mm addr = some (-1, none, t) ∧
      SwapIn s mm addr (-1) none t ∧ t.pmm.Lists ram qs ∧ t.pmm.nrFree = s.pmm.nrFree ∧
      ∀ f w, t.mem f w = if f = q then (s.slotRead (s.pteAt mm.pgdir addr) q).2.2 w
        else s.mem f w := by
  obtain ⟨bs, hinv⟩ := h.lists.free
  rcases hinv.alloc_cases le_rfl with ⟨-, hempty⟩ | ⟨q, pmm, halloc, ht⟩
  · exact absurd (hinv.nrFree_eq_zero_iff.mpr (hempty rfl)) hfree
  obtain ⟨hq, htaken⟩ := ht.one
  have hout : q ∉ pmm.freePages := by
    rw [htaken]
    exact fun hh => hh.2 rfl
  have hqs : q ∉ qs := fun hmem => h.lists.notFree q hmem hq
  obtain ⟨pmm', hgive, hg, hlists⟩ := (h.lists.takes ht).free_one (h.inRam hq) hout hqs
  have hpte : s.mem (pagNum (s.mem mm.pgdir (pdx addr))) (ptx addr) = s.pteAt mm.pgdir addr :=
    (if_pos hp).symm
  cases hu : (s.setPmm pmm).swapfsRead (s.pteAt mm.pgdir addr) q with
  | mk r u =>
    have hr : r ≠ 0 := by
      rintro rfl
      exact hread (((s.setPmm pmm).swapfsRead_iff (s.pteAt mm.pgdir addr) q).mp (by rw [hu]))
    refine ⟨q, u.setPmm pmm', hinv.next_of_alloc halloc, ?_, .readFailed ht hp hu hr hg, hlists,
      ?_, ?_⟩
    · simp [swapIn, allocPages, halloc, Vm.getPte, hp, pagNum_pteAddr, hpte, hu, hr, pagesFree,
        hgive]
    · rw [setPmm_pmm, hg.nrFree, ht.nrFree]
      omega
    · intro f w
      have hmem := (s.setPmm pmm).swapfsRead_eq (s.pteAt mm.pgdir addr) q
      rw [hu] at hmem
      rw [setPmm_mem, (Prod.mk.inj hmem).2, setFrame_mem, pagNum_page2pa (h.freeLow q hq)]
      rfl

/-! ## Faults on present pages -/

/-- The address is mapped to the same frame, which holds what it held; the queue is `qs`, and as
many pages are free. -/
structure Undamaged (s t : Vm) (mm : MmStruct) (qs : List ℕ) (addr : Word) : Prop where
  maps : t.Maps mm.pgdir addr (pagNum (s.pteAt mm.pgdir addr))
  content : ∀ w, w < 1024 →
    t.mem (pagNum (t.pteAt mm.pgdir addr)) w = s.mem (pagNum (s.pteAt mm.pgdir addr)) w
  queue : t.pmm.link.Ring .praListHead (qs.map .pageLink)
  nrFree : t.pmm.nrFree = s.pmm.nrFree

/-- `swap_in` fails: no page is free, or the disk read fails. A read that fails may have filled
the first free page in part, which the address may be an alias of. -/
def Refused (s : Vm) (entry : Word) (frame : ℕ) : Prop :=
  s.pmm.nrFree = 0 ∨ ¬ s.SlotReads entry ∧
    (listNext s.pmm.link .freeList = .pageLink frame →
      ∀ w, w < 1024 → (s.slotRead entry frame).2.2 w = s.mem frame w)

/-- A read that fails leaves the entry, the queue and the number of free pages alone; what may
change is the first free page. -/
theorem undamaged_iff_of_readFailed {q : ℕ} (hp : Present (s.pteAt mm.pgdir addr))
    (hq : listNext s.pmm.link .freeList = .pageLink q) (hlists : t.pmm.Lists ram qs)
    (hnr : t.pmm.nrFree = s.pmm.nrFree) (hpte : t.pteAt mm.pgdir addr = s.pteAt mm.pgdir addr)
    (hmem : ∀ f w, t.mem f w = if f = q then (s.slotRead (s.pteAt mm.pgdir addr) q).2.2 w
      else s.mem f w) :
    Undamaged s t mm qs addr ↔
      (listNext s.pmm.link .freeList = .pageLink (pagNum (s.pteAt mm.pgdir addr)) →
        ∀ w, w < 1024 → (s.slotRead (s.pteAt mm.pgdir addr)
          (pagNum (s.pteAt mm.pgdir addr))).2.2 w =
            s.mem (pagNum (s.pteAt mm.pgdir addr)) w) := by
  constructor
  · intro hok hn w hw
    have hcontent := hok.content w hw
    rw [hpte, hmem, if_pos (ListEntry.pageLink.inj (hn.symm.trans hq))] at hcontent
    rw [ListEntry.pageLink.inj (hn.symm.trans hq)] at hcontent ⊢
    exact hcontent
  · intro hkeep
    refine ⟨?_, fun w hw => ?_, hlists.queue, hnr⟩
    · rw [Maps, hpte]
      exact ⟨hp, rfl⟩
    · rw [hpte, hmem]
      split_ifs with hpage
      · rw [← hpage]
        exact hkeep (hpage ▸ hq) w hw
      · rfl

/-- For every error code, a fault on a present page does no damage exactly when its entry, taken
for a swap entry, is refused. -/
theorem vmmPgFault_undamaged_iff (h : s.Space mm ram qs)
    (hp : Present (s.pteAt mm.pgdir addr)) :
    ∃ r t, s.vmmPgFault mm addr = some (r, t) ∧
      (Undamaged s t mm qs addr ↔
        s.Refused (s.pteAt mm.pgdir addr) (pagNum (s.pteAt mm.pgdir addr))) := by
  have hpde : Present (s.mem mm.pgdir (pdx addr)) := Maps.present ⟨hp, rfl⟩
  have hpde' : Present (s.mem mm.pgdir (pdx (roundDown addr))) := by
    rw [pdx_roundDown]
    exact hpde
  have hne : s.pteAt mm.pgdir addr ≠ 0#32 := fun hz => not_present_zero (hz ▸ hp)
  rw [vmmPgFault_table hpde, if_neg hne]
  by_cases hfree : s.pmm.nrFree = 0
  · rw [swapIn_exhausted h hfree]
    refine ⟨0, s, rfl, iff_of_true ?_ (Or.inl hfree)⟩
    exact ⟨⟨hp, rfl⟩, fun w _ => rfl, h.lists.queue, rfl⟩
  unfold Refused
  rw [or_iff_right hfree]
  by_cases hread : s.SlotReads (s.pteAt mm.pgdir addr)
  · -- a page is taken from the free list
    have hread' : s.SlotReads (s.pteAt mm.pgdir (roundDown addr)) := by
      rw [pteAt_roundDown]
      exact hread
    obtain ⟨q, t, heq, hin⟩ := swapIn_loaded h hfree hpde' hread'
    rw [heq]
    refine ⟨0, t, rfl, iff_of_false (fun hok => ?_) fun hr => hr.1 hread⟩
    exact (Nat.ne_of_lt (hin.nrFree_lt hfree)) hok.nrFree
  · -- the page is taken, and given back
    have hread' : ¬ s.SlotReads (s.pteAt mm.pgdir (roundDown addr)) := by
      rw [pteAt_roundDown]
      exact hread
    obtain ⟨q, t, hq, heq, hin, hlists, hnr, hmem⟩ := swapIn_readFailed h hfree hpde' hread'
    have hpte := (hin.same h rfl).2.pteAt h addr
    rw [heq]
    rw [pteAt_roundDown] at hmem
    refine ⟨0, t, rfl, ?_⟩
    rw [and_iff_right hread]
    exact undamaged_iff_of_readFailed hp hq hlists hnr hpte hmem

/-! ## Faults on pages that are not present -/

/-- The page is present, the user may access it, and write to it if the access was a write. -/
structure Repaired (t : Vm) (pgdir : ℕ) (errorCode addr : Word) : Prop where
  present : Present (t.pteAt pgdir addr)
  user : t.pteAt pgdir addr &&& PTE_U ≠ 0#32
  writable : errorCode &&& FAULT_WRITE ≠ 0#32 → t.pteAt pgdir addr &&& PTE_W ≠ 0#32

/-- `get_pte` returns no null pointer, and the handler returns 0 only if the fault is repaired. -/
def Honest (s : Vm) (mm : MmStruct) (errorCode addr : Word) : Prop :=
  (∃ ptep t, s.getPte mm.pgdir (roundDown addr) true = some (some ptep, t)) ∧
    ∃ r t, s.vmmPgFault mm addr = some (r, t) ∧ (r = 0 → t.Repaired mm.pgdir errorCode addr)

/-- A page that was never mapped is read, and there are pages for it and for its page table, if
that is missing; a page that was swapped out can be read into a free page. -/
def Repairable (s : Vm) (mm : MmStruct) (errorCode addr : Word) : Prop :=
  if s.pteAt mm.pgdir addr = 0#32 then
    errorCode &&& FAULT_WRITE = 0#32 ∧
      (if Present (s.mem mm.pgdir (pdx addr)) then 1 else 2) ≤ s.pmm.nrFree
  else s.pmm.nrFree ≠ 0 ∧ s.SlotReads (s.pteAt mm.pgdir addr)

/-- The flags of an entry are those that it was made of. -/
theorem entry_and (page : ℕ) {flags mask : Word} (hf : flags < 0x1000#32)
    (hm : 0xFFF#32 &&& mask = mask) : (page2pa page ||| flags) &&& mask = flags &&& mask := by
  calc (page2pa page ||| flags) &&& mask
      = pteFlags (page2pa page ||| flags) &&& mask := by
        rw [pteFlags, BitVec.and_assoc, hm]
    _ = flags &&& mask := by rw [pteFlags_entry page hf]

/-- An entry that is made with `PTE_U` alone. -/
theorem repaired_userEntry_iff {pgdir page : ℕ} {errorCode : Word}
    (hpte : t.pteAt pgdir addr = page2pa page ||| PTE_U ||| PTE_P) :
    t.Repaired pgdir errorCode addr ↔ errorCode &&& FAULT_WRITE = 0#32 := by
  have hU : (page2pa page ||| (PTE_U ||| PTE_P)) &&& PTE_U = PTE_U :=
    entry_and page (by decide) (by decide)
  have hW : (page2pa page ||| (PTE_U ||| PTE_P)) &&& PTE_W = 0#32 :=
    entry_and page (by decide) (by decide)
  constructor
  · intro hr
    by_contra hwrite
    have hentry := hr.writable hwrite
    rw [hpte, BitVec.or_assoc, hW] at hentry
    exact hentry rfl
  · intro hno
    refine ⟨hpte ▸ present_entry _, ?_, fun hwrite => absurd hno hwrite⟩
    rw [hpte, BitVec.or_assoc, hU]
    decide

/-- An entry that `swap_in` makes. -/
theorem repaired_loadedEntry {pgdir page : ℕ} (errorCode : Word)
    (hpte : t.pteAt pgdir addr = page2pa page ||| (PTE_P ||| PTE_W ||| PTE_U) ||| PTE_P) :
    t.Repaired pgdir errorCode addr := by
  have hmask : ∀ mask, 0xFFF#32 &&& mask = mask →
      (page2pa page ||| (PTE_P ||| PTE_W ||| PTE_U ||| PTE_P)) &&& mask =
        (PTE_P ||| PTE_W ||| PTE_U ||| PTE_P) &&& mask :=
    fun mask hm => entry_and page (by decide) hm
  refine ⟨hpte ▸ present_entry _, ?_, fun _ => ?_⟩
  · rw [hpte, BitVec.or_assoc, hmask PTE_U (by decide)]
    decide
  · rw [hpte, BitVec.or_assoc, hmask PTE_W (by decide)]
    decide

theorem not_repaired_of_not_present {pgdir : ℕ} {errorCode : Word}
    (hp : ¬ Present (t.pteAt pgdir addr)) : ¬ t.Repaired pgdir errorCode addr :=
  fun hr => hp hr.present

/-- Demand allocation, where the page table is there. -/
theorem pgdirAllocPage_repaired_iff (h : s.Space mm ram qs) (hla : addr < KERNEL_BASE)
    (hp : Present (s.mem mm.pgdir (pdx addr))) (hno : ¬ Present (s.pteAt mm.pgdir addr))
    (errorCode : Word) :
    ∃ p t, s.pgdirAllocPage mm.pgdir (roundDown addr) PTE_U = some (p, t) ∧
      (t.Repaired mm.pgdir errorCode addr ↔
        errorCode &&& FAULT_WRITE = 0#32 ∧ s.pmm.nrFree ≠ 0) := by
  obtain ⟨bs, hinv⟩ := h.lists.free
  have hv := pdx_ne_vpt hla
  have hv' : pdx (roundDown addr) ≠ pdx VPT := by
    rw [pdx_roundDown]
    exact hv
  obtain ⟨p, t, heq, hspec⟩ := pgdirAllocPage_spec hinv mm.pgdir (roundDown addr) PTE_U
  refine ⟨p, t, heq, ?_⟩
  cases hspec with
  | exhausted hempty =>
    refine iff_of_false (not_repaired_of_not_present hno) fun hh => ?_
    exact hh.2 (hinv.nrFree_eq_zero_iff.mpr hempty)
  | @allocated page pmm res t ht hins =>
    have hu := h.takes ht
    have hfree : s.pmm.nrFree ≠ 0 := by
      intro hz
      have hmem := ht.one.1
      rw [hinv.nrFree_eq_zero_iff.mp hz] at hmem
      exact hmem
    have hres : res = INSERT_SUCCESS := by
      cases hins with
      | failure hno' =>
        rw [pdx_roundDown] at hno'
        exact absurd hp hno'
      | success => rfl
    have hpte := hins.pteAt hu.pgdir hu.freeLow hv' hv
    rw [if_pos ⟨hres, (pagNum_roundDown addr).symm⟩] at hpte
    rw [repaired_userEntry_iff hpte]
    exact (and_iff_left hfree).symm

theorem honest_iff {ptep : ℕ × ℕ} {u : Vm} {errorCode : Word}
    (hget : s.getPte mm.pgdir (roundDown addr) true = some (some ptep, u))
    (heq : s.vmmPgFault mm addr = some (0, t)) :
    Honest s mm errorCode addr ↔ t.Repaired mm.pgdir errorCode addr := by
  constructor
  · rintro ⟨-, r, t', heq', hr⟩
    obtain ⟨rfl, rfl⟩ := Prod.mk.inj (Option.some.inj (heq.symm.trans heq'))
    exact hr rfl
  · intro hr
    exact ⟨⟨ptep, u, hget⟩, 0, t, heq, fun _ => hr⟩

/-- A page that was swapped out. -/
theorem honest_swapped_iff (h : s.Space mm ram qs) (hla : addr < KERNEL_BASE)
    (hp : Present (s.mem mm.pgdir (pdx addr))) (hno : ¬ Present (s.pteAt mm.pgdir addr))
    (hz : s.pteAt mm.pgdir addr ≠ 0#32) (errorCode : Word) :
    Honest s mm errorCode addr ↔ s.pmm.nrFree ≠ 0 ∧ s.SlotReads (s.pteAt mm.pgdir addr) := by
  have hp' : Present (s.mem mm.pgdir (pdx (roundDown addr))) := by
    rw [pdx_roundDown]
    exact hp
  have hv' : pdx (roundDown addr) ≠ pdx VPT := by
    rw [pdx_roundDown]
    exact pdx_ne_vpt hla
  have hget : s.getPte mm.pgdir (roundDown addr) true = some (some _, s) := if_pos hp'
  have hfault : ∀ {r p t}, s.swapIn mm (roundDown addr) = some (r, p, t) →
      s.vmmPgFault mm addr = some (0, t) := by
    intro r p t hin
    rw [vmmPgFault_table hp, if_neg hz, hin]
    rfl
  by_cases hfree : s.pmm.nrFree = 0
  · rw [honest_iff hget (hfault (swapIn_exhausted h hfree _))]
    exact iff_of_false (not_repaired_of_not_present hno) fun hh => hh.1 hfree
  rw [and_iff_right hfree, ← pteAt_roundDown]
  by_cases hread : s.SlotReads (s.pteAt mm.pgdir (roundDown addr))
  · obtain ⟨q, t, heq, hin⟩ := swapIn_loaded h hfree hp' hread
    have hpte := (hin.loaded_space h hv').1.pteAt addr
    rw [if_pos (pagNum_roundDown addr).symm] at hpte
    rw [honest_iff hget (hfault heq)]
    exact iff_of_true (repaired_loadedEntry errorCode hpte) hread
  · obtain ⟨q, t, -, heq, hin, -⟩ := swapIn_readFailed h hfree hp' hread
    have hpte := (hin.same h rfl).2.pteAt h addr
    rw [honest_iff hget (hfault heq)]
    refine iff_of_false (not_repaired_of_not_present ?_) hread
    rw [hpte]
    exact hno

/-- A page that was never mapped, with its page table. -/
theorem honest_table_iff (h : s.Space mm ram qs) (hla : addr < KERNEL_BASE)
    (hp : Present (s.mem mm.pgdir (pdx addr))) (hz : s.pteAt mm.pgdir addr = 0#32)
    (errorCode : Word) :
    Honest s mm errorCode addr ↔ errorCode &&& FAULT_WRITE = 0#32 ∧ 1 ≤ s.pmm.nrFree := by
  have hno : ¬ Present (s.pteAt mm.pgdir addr) := by
    rw [hz]
    exact not_present_zero
  have hp' : Present (s.mem mm.pgdir (pdx (roundDown addr))) := by
    rw [pdx_roundDown]
    exact hp
  have hget : s.getPte mm.pgdir (roundDown addr) true = some (some _, s) := if_pos hp'
  obtain ⟨p, t, heq, hiff⟩ := pgdirAllocPage_repaired_iff h hla hp hno errorCode
  have hfault : s.vmmPgFault mm addr = some (0, t) := by
    rw [vmmPgFault_table hp, if_pos hz, heq]
    rfl
  rw [honest_iff hget hfault, hiff, Nat.one_le_iff_ne_zero]

/-- A page that was never mapped, and its page table is missing. -/
theorem honest_newTable_iff (h : s.Space mm ram qs) (hla : addr < KERNEL_BASE)
    (hp : ¬ Present (s.mem mm.pgdir (pdx addr))) (errorCode : Word) :
    Honest s mm errorCode addr ↔ errorCode &&& FAULT_WRITE = 0#32 ∧ 2 ≤ s.pmm.nrFree := by
  obtain ⟨bs, hinv⟩ := h.lists.free
  have hv := pdx_ne_vpt hla
  have hv' : pdx (roundDown addr) ≠ pdx VPT := by
    rw [pdx_roundDown]
    exact hv
  obtain ⟨ptep, u, hget, hspec⟩ := getPte_spec hinv mm.pgdir (roundDown addr) true
  have hu := h.getPte hspec hv'
  have hpte := hspec.pteAt h.pgdir h.freeLow hv' hv
  cases hspec with
  | table hp' =>
    rw [pdx_roundDown] at hp'
    exact absurd hp' hp
  | absent hp' hc => exact absurd hc (by decide)
  | exhausted hp' hc hempty =>
    have hfree := hinv.nrFree_eq_zero_iff.mpr hempty
    refine iff_of_false ?_ (by omega)
    rintro ⟨⟨ptep, t, hget'⟩, -⟩
    exact absurd (hget.symm.trans hget') (by simp)
  | created page pmm hp' hc ht =>
    have hfree := h.freeLow page ht.one.1
    have hpde : Present ((s.newTable mm.pgdir (roundDown addr) page pmm).mem mm.pgdir
        (pdx addr)) := by
      rw [newTable_directory _ pmm h.pgdir ht.one.1 hfree, if_pos (pdx_roundDown addr).symm]
      exact (present_or _ _).mpr (Or.inr present_PTE_USER)
    have hno : ¬ Present ((s.newTable mm.pgdir (roundDown addr) page pmm).pteAt mm.pgdir addr) := by
      rw [hpte, pteAt_of_not_present hp]
      exact not_present_zero
    obtain ⟨p, t, heq, hiff⟩ := pgdirAllocPage_repaired_iff hu hla hpde hno errorCode
    have hfault : s.vmmPgFault mm addr = some (0, t) := by
      rw [ptx_roundDown] at hget
      rw [vmmPgFault_newTable h hget ht, heq]
      rfl
    have hnr : (s.newTable mm.pgdir (roundDown addr) page pmm).pmm.nrFree = s.pmm.nrFree - 1 := by
      rw [newTable_pmm, Pmm.setRef_nrFree, ht.nrFree]
    rw [honest_iff hget hfault, hiff, hnr]
    refine and_congr_right fun _ => ?_
    omega

/-- For every error code and every user address whose page is not present. -/
theorem vmmPgFault_honest_iff (h : s.Space mm ram qs) (hla : addr < KERNEL_BASE)
    (hno : ¬ Present (s.pteAt mm.pgdir addr)) (errorCode : Word) :
    Honest s mm errorCode addr ↔ Repairable s mm errorCode addr := by
  unfold Repairable
  by_cases hp : Present (s.mem mm.pgdir (pdx addr))
  · by_cases hz : s.pteAt mm.pgdir addr = 0#32
    · rw [if_pos hz, if_pos hp]
      exact honest_table_iff h hla hp hz errorCode
    · rw [if_neg hz]
      exact honest_swapped_iff h hla hp hno hz errorCode
  · rw [if_pos (pteAt_of_not_present hp), if_neg hp]
    exact honest_newTable_iff h hla hp errorCode

end Handler

/-! ## On the small machine -/

/-- Frame 4 is mapped at 4 MB. -/
def presentOps : List VmOp := [.allocPages 1, .pageInsert 4 0x400000#32 PTE_U]

theorem presentOps_space {u : Vm}
    (heq : presentOps.foldlM (exec initMm) (booted 8 4096#32) = some u) :
    ∃ qs, u.Space initMm (Set.Ico 4 (4 + 8)) qs := by
  have hv : pdx 0x400000#32 ≠ pdx VPT := by decide
  refine run_space (booted_space (by decide) 4096#32 (by decide)) (Run.of_foldlM ?_ heq)
  refine booted_allowed (by decide) 4096#32 (by decide) (le_refl 1) rfl (le_refl 1) ?_
  exact fun t ht _ _ _ => ht.allowed_pageInsert hv hv fun w _ _ => trivial

/-- The entry of the page names slot 64. The fault reads that slot into frame 6, which then takes
the place of frame 4. -/
theorem vmmPgFault_replaces_page : ∃ (u : Vm) (qs : List ℕ) (r : ℤ) (t : Vm),
    u.Space initMm (Set.Ico 4 (4 + 8)) qs ∧ u.Maps initMm.pgdir 0x400000#32 4 ∧
      u.vmmPgFault initMm 0x400000#32 = some (r, t) ∧ t.Maps initMm.pgdir 0x400000#32 6 ∧
      ¬ Undamaged u t initMm qs 0x400000#32 := by
  have heq : ((presentOps.foldlM (exec initMm) (booted 8 4096#32)).bind fun u =>
      (u.vmmPgFault initMm 0x400000#32).map fun x =>
        decide (u.Maps initMm.pgdir 0x400000#32 4 ∧ x.2.Maps initMm.pgdir 0x400000#32 6)) =
      some true := by decide +kernel
  obtain ⟨u, hexec, heq⟩ := Option.bind_eq_some_iff.mp heq
  obtain ⟨⟨r, t⟩, hfault, heq⟩ := Option.map_eq_some_iff.mp heq
  obtain ⟨hu, ht⟩ := of_decide_eq_true heq
  obtain ⟨qs, hspace⟩ := presentOps_space hexec
  refine ⟨u, qs, r, t, hspace, hu, hfault, ht, fun hok => ?_⟩
  have hmaps := hok.maps.2
  rw [ht.2, hu.2] at hmaps
  exact absurd hmaps (by decide)

theorem vmmPgFault_undamaged_present : ∃ (u : Vm) (qs : List ℕ) (r : ℤ) (t : Vm),
    presentOps.foldlM (exec initMm) (booted 8 4096#32) = some u ∧
    u.vmmPgFault initMm 0x400000#32 = some (r, t) ∧
      (Undamaged u t initMm qs 0x400000#32 ↔
        u.Refused (u.pteAt initMm.pgdir 0x400000#32)
          (pagNum (u.pteAt initMm.pgdir 0x400000#32))) := by
  have heq : (presentOps.foldlM (exec initMm) (booted 8 4096#32)).map (fun u =>
      decide (Present (u.pteAt initMm.pgdir 0x400000#32))) = some true := by decide +kernel
  obtain ⟨u, hexec, heq⟩ := Option.map_eq_some_iff.mp heq
  obtain ⟨qs, hspace⟩ := presentOps_space hexec
  obtain ⟨r, t, hfault, hiff⟩ := vmmPgFault_undamaged_iff hspace (of_decide_eq_true heq)
  exact ⟨u, qs, r, t, hexec, hfault, hiff⟩

/-- A write to a page that was never mapped: the handler returns 0, and the page is read-only. -/
theorem vmmPgFault_readOnly :
    (booted 8 1024#32).Space initMm (Set.Ico 4 (4 + 8)) [] ∧ 0x400000#32 < KERNEL_BASE ∧
    ¬ Present ((booted 8 1024#32).pteAt initMm.pgdir 0x400000#32) ∧
    (∃ t, (booted 8 1024#32).vmmPgFault initMm 0x400000#32 = some (0, t) ∧
      t.pteAt initMm.pgdir 0x400000#32 &&& PTE_W = 0#32) ∧
    ¬ Honest (booted 8 1024#32) initMm FAULT_WRITE 0x400000#32 := by
  have hspace := booted_space (n := 8) (by decide) 1024#32 (by decide)
  have hpte := booted_pteAt (n := 8) 1024#32 (by decide : 0x400000#32 < KERNEL_BASE)
  have heq : ((booted 8 1024#32).vmmPgFault initMm 0x400000#32).map (fun x =>
      (x.1, x.2.pteAt initMm.pgdir 0x400000#32 &&& PTE_W)) = some (0, 0#32) := by decide +kernel
  obtain ⟨⟨r, t⟩, hfault, heq⟩ := Option.map_eq_some_iff.mp heq
  obtain ⟨hr, ht⟩ := Prod.mk.inj heq
  dsimp only at hr
  subst hr
  refine ⟨hspace, by decide, ?_, ⟨t, hfault, ht⟩, ?_⟩
  · rw [hpte]
    exact not_present_zero
  · rintro ⟨-, r, t', hfault', hok⟩
    obtain ⟨rfl, rfl⟩ := Prod.mk.inj (Option.some.inj (hfault.symm.trans hfault'))
    exact (hok rfl).writable (by decide) ht

theorem vmmPgFault_honest_read : Honest (booted 8 1024#32) initMm 0x4#32 0x400000#32 ↔
    Repairable (booted 8 1024#32) initMm 0x4#32 0x400000#32 := by
  refine vmmPgFault_honest_iff (booted_space (by decide) 1024#32 (by decide)) (by decide) ?_ 0x4#32
  rw [booted_pteAt 1024#32 (by decide)]
  exact not_present_zero

end Vm
end Zonix
