import Zonix.Mm.Evictions
import Mathlib.Data.Finset.Card
import Mathlib.Data.Finset.Range

/-!
# Reference counts

`page_insert` counts up, and nothing counts down: neither the PTE that it overwrites nor the
one that `swap_out` clears is discounted. So `ref` is the number of user pages that map a
data page as long as every user page is mapped once at most, and no evicted page is mapped.
-/

namespace Zonix
open Lib

namespace Vm

/-- The user pages that map a frame. -/
def userPages (s : Vm) (pgdir p : ℕ) : Finset ℕ :=
  (Finset.range (pagNum KERNEL_BASE)).filter fun n => s.Maps pgdir (page2pa n) p

/-- How many user pages map a frame. -/
def mappings (s : Vm) (pgdir p : ℕ) : ℕ := (s.userPages pgdir p).card

section Count
variable {s t : Vm} {mm : MmStruct} {ram : Set ℕ} {pgdir page p : ℕ} {la : Word}

theorem lt_kernelBase_iff_pagNum : la < KERNEL_BASE ↔ pagNum la < pagNum KERNEL_BASE := by
  have hk : pagNum KERNEL_BASE = 768 * 1024 := by decide
  have ht := ptx_lt la
  rw [lt_kernelBase_iff, hk, pagNum_eq_index]
  omega

theorem page_lt {n : ℕ} (hn : n < pagNum KERNEL_BASE) : n < 2 ^ 20 := by
  have hk : pagNum KERNEL_BASE = 768 * 1024 := by decide
  omega

theorem mem_userPages (hla : la < KERNEL_BASE) :
    pagNum la ∈ s.userPages pgdir p ↔ s.Maps pgdir la p := by
  have hn := lt_kernelBase_iff_pagNum.mp hla
  have hpage : pagNum (page2pa (pagNum la)) = pagNum la := pagNum_page2pa (page_lt hn)
  rw [userPages, Finset.mem_filter, Finset.mem_range, maps_congr hpage]
  exact and_iff_right hn

/-- A user page is the page of some user address. -/
theorem exists_la {n : ℕ} (hn : n < pagNum KERNEL_BASE) : ∃ la < KERNEL_BASE, pagNum la = n := by
  have hpage := pagNum_page2pa (page_lt hn)
  refine ⟨page2pa n, ?_, hpage⟩
  rw [lt_kernelBase_iff_pagNum, hpage]
  exact hn

theorem mem_userPages_lt {n : ℕ} (hn : n ∈ s.userPages pgdir p) : n < pagNum KERNEL_BASE :=
  Finset.mem_range.mp (Finset.mem_filter.mp hn).1

/-- The count depends on what the user pages map. -/
theorem mappings_congr (h : ∀ la < KERNEL_BASE, t.Maps pgdir la p ↔ s.Maps pgdir la p) :
    t.mappings pgdir p = s.mappings pgdir p := by
  unfold mappings
  apply congrArg Finset.card
  ext n
  constructor
  · intro hn
    obtain ⟨la, hla, rfl⟩ := exists_la (mem_userPages_lt hn)
    rw [mem_userPages hla] at hn ⊢
    exact (h la hla).mp hn
  · intro hn
    obtain ⟨la, hla, rfl⟩ := exists_la (mem_userPages_lt hn)
    rw [mem_userPages hla] at hn ⊢
    exact (h la hla).mpr hn

/-- Mapping a page that was not mapped adds one. -/
theorem mappings_insert (hla : la < KERNEL_BASE) (hno : ¬ s.Maps pgdir la p)
    (h : ∀ la' < KERNEL_BASE, t.Maps pgdir la' p ↔
      pagNum la' = pagNum la ∨ s.Maps pgdir la' p) :
    t.mappings pgdir p = s.mappings pgdir p + 1 := by
  have hins : t.userPages pgdir p = insert (pagNum la) (s.userPages pgdir p) := by
    ext n
    rw [Finset.mem_insert]
    constructor
    · intro hn
      obtain ⟨la', hla', rfl⟩ := exists_la (mem_userPages_lt hn)
      rw [mem_userPages hla'] at hn ⊢
      exact (h la' hla').mp hn
    · rintro (rfl | hn)
      · rw [mem_userPages hla]
        exact (h la hla).mpr (Or.inl rfl)
      · obtain ⟨la', hla', rfl⟩ := exists_la (mem_userPages_lt hn)
        rw [mem_userPages hla'] at hn ⊢
        exact (h la' hla').mpr (Or.inr hn)
  have hnot : pagNum la ∉ s.userPages pgdir p := fun hn => hno ((mem_userPages hla).mp hn)
  rw [mappings, mappings, hins, Finset.card_insert_of_notMem hnot]

theorem mappings_eq_zero (h : ∀ la < KERNEL_BASE, ¬ s.Maps pgdir la p) :
    s.mappings pgdir p = 0 := by
  rw [mappings, Finset.card_eq_zero, Finset.eq_empty_iff_forall_notMem]
  intro n hn
  obtain ⟨la, hla, rfl⟩ := exists_la (mem_userPages_lt hn)
  exact h la hla ((mem_userPages hla).mp hn)

/-! ## The invariant -/

/-- Every data page counts the user pages that map it. -/
def Counted (s : Vm) (mm : MmStruct) (ram : Set ℕ) : Prop :=
  ∀ p ∈ ram, p ∉ s.paging mm.pgdir → (s.pmm.page p).ref = s.mappings mm.pgdir p

theorem Counted.congr (hs : s.Counted mm ram)
    (hpaging : ∀ p, p ∉ t.paging mm.pgdir → p ∉ s.paging mm.pgdir)
    (href : ∀ p, p ∉ t.paging mm.pgdir → (t.pmm.page p).ref = (s.pmm.page p).ref)
    (hmaps : ∀ la < KERNEL_BASE, t.pteAt mm.pgdir la = s.pteAt mm.pgdir la) :
    t.Counted mm ram := by
  intro p hp hdata
  rw [href p hdata, hs p hp (hpaging p hdata),
    mappings_congr fun la hla => maps_of_pteAt (hmaps la hla)]

theorem Counted.same {qs : List ℕ} (hs : s.Counted mm ram) (h : s.Space mm ram qs)
    (hsame : s.Same t) : t.Counted mm ram := by
  have hpaging := paging_congr (hsame.mem _ (h.pgdir.notFree _ (Or.inl rfl)))
  exact hs.congr (fun p hp => hpaging ▸ hp) (fun p _ => hsame.ref p) fun la _ => hsame.pteAt h la

/-- One user page that was not mapped is mapped to `page`, which is counted. -/
theorem Counted.insert (hs : s.Counted mm ram) (hla : la < KERNEL_BASE)
    (hno : ¬ Present (s.pteAt mm.pgdir la)) {pte : Word} (hpte : Present pte ∧ pagNum pte = page)
    (hpaging : ∀ p, p ∉ t.paging mm.pgdir → p ∉ s.paging mm.pgdir)
    (href : ∀ p, p ∉ t.paging mm.pgdir → (t.pmm.page p).ref =
      if p = page then (s.pmm.page p).ref + 1 else (s.pmm.page p).ref)
    (hmaps : ∀ la' < KERNEL_BASE, t.pteAt mm.pgdir la' =
      if pagNum la' = pagNum la then pte else s.pteAt mm.pgdir la') :
    t.Counted mm ram := by
  intro p hp hdata
  have hno' : ∀ la', pagNum la' = pagNum la → ¬ s.Maps mm.pgdir la' p := by
    intro la' heq hm
    exact hno ((maps_congr heq).mp hm).1
  rw [href p hdata, hs p hp (hpaging p hdata)]
  by_cases hpage : p = page
  · subst hpage
    have hins : t.mappings mm.pgdir p = s.mappings mm.pgdir p + 1 := by
      refine mappings_insert hla (hno' la rfl) fun la' hla' => ?_
      rw [Maps, hmaps la' hla']
      split_ifs with heq
      · exact iff_of_true hpte (Or.inl heq)
      · exact (or_iff_right heq).symm
    rw [if_pos rfl, hins]
    omega
  · have hsame : t.mappings mm.pgdir p = s.mappings mm.pgdir p := by
      refine mappings_congr fun la' hla' => ?_
      rw [Maps, hmaps la' hla']
      split_ifs with heq
      · exact iff_of_false (fun hh => hpage (hh.2.symm.trans hpte.2)) (hno' la' heq)
      · exact Iff.rfl
    rw [if_neg hpage, hsame]

end Count

/-! ## The calls -/

section Calls
variable {s t : Vm} {mm : MmStruct} {ram : Set ℕ} {qs : List ℕ} {page : ℕ} {la perm : Word}

/-- A page table that is created is no data page; other pages keep their counts. -/
theorem GetPte.counts {create : Bool} {r : Option (ℕ × ℕ)} (h : s.Space mm ram qs)
    (hget : GetPte s mm.pgdir la create r t) (hv : pdx la ≠ pdx VPT) {p : ℕ}
    (hp : p ∉ t.paging mm.pgdir) :
    p ∉ s.paging mm.pgdir ∧ (t.pmm.page p).ref = (s.pmm.page p).ref := by
  cases hget with
  | table | absent | exhausted => exact ⟨hp, rfl⟩
  | created table pmm hno hc ht =>
    have hfree := ht.one.1
    have hiff := newTable_isTable pmm h.pgdir hv hfree (h.freeLow table hfree)
    have hne : p ≠ table := by
      rintro rfl
      exact hp (Or.inr ⟨pdx la, (hiff _ _).mpr (by rw [if_pos rfl])⟩)
    refine ⟨?_, ?_⟩
    · rintro (rfl | ⟨i, hi⟩)
      · exact hp (Or.inl rfl)
      · have hi' : i ≠ pdx la := by
          rintro rfl
          exact hno hi.2.2.1
        exact hp (Or.inr ⟨i, (hiff _ _).mpr (by rw [if_neg hi']; exact hi)⟩)
    · rw [newTable_pmm, Pmm.setRef_ref, if_neg hne, ht.ref]

theorem PageInsert.counted (hs : s.Counted mm ram) (h : s.Space mm ram qs) {res : ℤ}
    (hins : PageInsert s mm.pgdir page la perm res t) (hpage : page < 2 ^ 20)
    (hla : la < KERNEL_BASE) (hperm : perm < 0x1000#32) (hno : ¬ Present (s.pteAt mm.pgdir la)) :
    t.Counted mm ram := by
  have hv := pdx_ne_vpt hla
  have hpte := fun la' (hla' : la' < KERNEL_BASE) =>
    hins.pteAt h.pgdir h.freeLow hv (pdx_ne_vpt hla')
  cases hins with
  | failure => exact hs
  | @success table i u hget =>
    have hu := h.getPte hget hv
    have htable := (hget.isTable h.pgdir h.freeLow hv).1
    have hpaging : (u.mapPage mm.pgdir page la perm table i).paging mm.pgdir =
        u.paging mm.pgdir :=
      paging_congr ((mapPage_writesEntry _ _ _ _ _ _ _).directory hu.pgdir htable)
    have hentry : Present (page2pa page ||| perm ||| PTE_P) ∧
        pagNum (page2pa page ||| perm ||| PTE_P) = page :=
      ⟨present_entry _, pagNum_entry hpage hperm⟩
    refine hs.insert hla hno hentry (fun p hp => ?_) (fun p hp => ?_) fun la' hla' => ?_
    · rw [hpaging] at hp
      exact (hget.counts h hv hp).1
    · rw [hpaging] at hp
      have href := (hget.counts h hv hp).2
      rw [mapPage_pmm, Pmm.setRef_ref]
      split_ifs with heq
      · rw [← heq, href]
      · exact href
    · rw [hpte la' hla']
      simp only [true_and]

/-- The page that is evicted next, if any, is mapped by no user page. -/
def Unmapped (mm : MmStruct) (s : Vm) : Prop :=
  ∀ v, s.Evicts mm v → ∀ la < KERNEL_BASE, ¬ s.Maps mm.pgdir la v

/-- Pages are mapped where no page is mapped, and `swap_out` evicts no page that is mapped. -/
def okCounted (mm : MmStruct) (ram : Set ℕ) (s : Vm) (op : VmOp) : Prop :=
  okUser mm ram s op ∧
    match op with
    | .pageInsert _ la _ => ¬ Present (s.pteAt mm.pgdir la)
    | .pgdirAllocPage la _ => ¬ Present (s.pteAt mm.pgdir la)
    | .swapIn addr => addr < KERNEL_BASE ∧ ¬ Present (s.pteAt mm.pgdir addr)
    | .swapOut n => Iterations mm (Unmapped mm) n.toNat s
    | _ => True

theorem okCounted.mapped {op : VmOp} (hok : okCounted mm ram s op) : okMapped mm ram s op := by
  refine ⟨hok.1, ?_⟩
  cases op with
  | swapOut n =>
    exact hok.2.mono fun u hu v he la hla la' hla' hm => absurd hm (hu v he la hla)
  | _ => trivial

theorem counted_of_unmapped (hs : s.Counted mm ram) (h : s.Space mm ram qs) {k : ℕ} {i r : ℤ}
    (heq : swapOutLoop mm k i s = some (r, t)) (hP : Iterations mm (Unmapped mm) k s) :
    t.Counted mm ram := by
  refine (h.loop_invariant (I := fun u => u.Counted mm ram) (fun hu hcount hno hone => ?_)
    hs hP heq).2
  rcases hu.iteration hone with ⟨v, addr, -, hev⟩ | ⟨-, hsame⟩
  · have hpaging := paging_congr hev.dir
    refine hcount.congr (fun p hp => hpaging ▸ hp) (fun p _ => hev.ref p) fun la hla => ?_
    -- the entry that is cleared is not one of a user page
    rw [hev.pteAt, if_neg]
    intro heq
    exact hno v hev.evicts la hla ((maps_congr heq).mpr hev.maps)
  · exact hcount.same hu hsame

theorem exec_counted (h : s.Space mm ram qs) (hs : s.Counted mm ram) {op : VmOp}
    (hok : okCounted mm ram s op) (heq : exec mm s op = some t) : t.Counted mm ram := by
  obtain ⟨⟨hspace, huser⟩, hcond⟩ := hok
  obtain ⟨heffect, -⟩ := exec_space h hspace heq
  cases heffect with
  | exhausted => exact hs
  | allocPages ht => exact hs.congr (fun p hp => hp) (fun p _ => ht.ref p) fun la _ => rfl
  | pageInsert hins =>
    obtain ⟨⟨hram, -⟩, hla, hperm⟩ := huser
    exact hins.counted hs h (h.low _ hram) hla hperm hcond
  | pgdirAllocPage hall =>
    cases hall with
    | exhausted => exact hs
    | @allocated page pmm res t ht hins =>
      have hs' : (s.setPmm pmm).Counted mm ram :=
        hs.congr (fun p hp => hp) (fun p _ => ht.ref p) fun la _ => rfl
      exact hins.counted hs' (h.takes ht) (h.freeLow page ht.one.1) huser.1 huser.2 hcond
  | mapSwappable => exact hs
  | @swapIn addr r p t hin =>
    cases p with
    | none =>
      exact hs.same h (hin.same h rfl).2
    | some q =>
      obtain ⟨hloaded, -⟩ := hin.loaded_space h hspace
      have hpaging := paging_congr hloaded.dir
      have hentry : Present (page2pa q ||| (PTE_P ||| PTE_W ||| PTE_U) ||| PTE_P) ∧
          pagNum (page2pa q ||| (PTE_P ||| PTE_W ||| PTE_U) ||| PTE_P) = q :=
        ⟨present_entry _, pagNum_entry (h.freeLow q hloaded.wasFree) (by decide)⟩
      exact hs.insert hcond.1 hcond.2 hentry (fun p hp => hpaging ▸ hp) (fun p _ => hloaded.ref p)
        fun la' _ => hloaded.pteAt la'
  | swapOut hout => exact counted_of_unmapped hs h hout hcond

/-- From a state with every `ref` 0 and no user page mapped, along every such history: each
data page counts the user pages that map it, and each free page counts none. -/
theorem run_counted (h : s.Space mm ram []) (hzero : ∀ p, (s.pmm.page p).ref = 0)
    (huser : ∀ la < KERNEL_BASE, ¬ Present (s.pteAt mm.pgdir la))
    (hrun : Run (exec mm) (okCounted mm ram) s t) :
    (∀ p ∈ ram, p ∉ t.paging mm.pgdir → (t.pmm.page p).ref = t.mappings mm.pgdir p) ∧
      ∀ p ∈ t.pmm.freePages, (t.pmm.page p).ref = 0 := by
  have hsafe : NoDangling mm s := fun la hla p hm => absurd hm.1 (huser la hla)
  have hcount : s.Counted mm ram := by
    intro p _ _
    rw [hzero, mappings_eq_zero fun la hla hm => huser la hla hm.1]
    rfl
  obtain ⟨⟨qs, hspace⟩, hsafe, hcount⟩ := h.run_invariant
    (I := fun u => NoDangling mm u ∧ u.Counted mm ram) (fun _ _ hok => hok.1.1)
    (fun hu hs hok heq => ⟨exec_noDangling hu hs.1 hok.mapped heq, exec_counted hu hs.2 hok heq⟩)
    ⟨hsafe, hcount⟩ hrun
  refine ⟨hcount, fun p hp => ?_⟩
  have hdata : p ∉ t.paging mm.pgdir := fun hf => hspace.pgdir.notFree p hf hp
  rw [hcount p (hspace.inRam hp) hdata, mappings_eq_zero fun la hla hm => hsafe la hla p hm hp]
  rfl

/-- Frame 4 is mapped next to 4 MB, and the page at 4 MB is read from the swap space. -/
def loadOps : List VmOp :=
  [.allocPages 1, .pageInsert 4 0x401000#32 PTE_U, .swapIn 0x400000#32]

theorem loadOps_allowed : Allowed (exec initMm) (okUser initMm (Set.Ico 4 (4 + 8))) loadOps
    (booted 8 1024#32) := by
  refine booted_allowed (by decide) 1024#32 (by decide) (le_refl 1) rfl ⟨le_refl 1, trivial⟩ ?_
  intro t ht hfree hpaging hmem
  have hv : pdx 0x401000#32 ≠ pdx VPT ∧ pdx 0x400000#32 ≠ pdx VPT := by decide
  have hout : (4 : ℕ) ∉ t.pmm.freePages := fun hp => absurd (hfree 4 hp) (by decide)
  refine ht.allowed_pageInsert hv.1 ⟨hv.1, ⟨by simp, hout⟩, by decide, by decide⟩ fun u _ _ => ?_
  exact ⟨⟨hv.2, trivial⟩, fun w _ => trivial⟩

/-- The page read from the swap space is evicted again: it is free, and still counts 1. -/
theorem swapOut_frees_counted : (∀ p, ((booted 8 1024#32).pmm.page p).ref = 0) ∧
    (∀ la < KERNEL_BASE, ¬ Present ((booted 8 1024#32).pteAt initMm.pgdir la)) ∧
    ∃ t, Run (exec initMm) (okUser initMm (Set.Ico 4 (4 + 8))) (booted 8 1024#32) t ∧
      6 ∈ t.pmm.freePages ∧ (t.pmm.page 6).ref = 1 := by
  refine ⟨booted_ref (by decide) 1024#32, fun la hla => ?_, ?_⟩
  · rw [booted_pteAt 1024#32 hla]
    exact not_present_zero
  · have heq : (trial loadOps 1).map (fun x =>
        (listNext x.2.2.pmm.link .freeList, (x.2.2.pmm.page 6).ref)) =
        some (.pageLink 6, 1) := by decide +kernel
    obtain ⟨u, r, t, hexec, hout, ht⟩ := trial_spec heq
    have hrun := Run.of_foldlM loadOps_allowed hexec
    obtain ⟨hnext, href⟩ := Prod.mk.inj ht
    have hstep : Step (exec initMm) (okUser initMm (Set.Ico 4 (4 + 8))) u t :=
      ⟨.swapOut 1, ⟨trivial, trivial⟩, by rw [exec, hout]; rfl⟩
    have hrun' := hrun.tail hstep
    obtain ⟨qs, hspace⟩ := run_space (booted_space (by decide) 1024#32 (by decide))
      (hrun'.mono fun s op hok => hok.1)
    exact ⟨t, hrun', hspace.lists.mem_freePages_of_next hnext, href⟩

/-- Frame 4 is mapped at 4 MB, and counts that. -/
theorem run_counted_mapped : ∃ t,
    [VmOp.allocPages 1, .pageInsert 4 0x400000#32 PTE_U].foldlM (exec initMm)
      (booted 8 1024#32) = some t ∧
    ∀ p ∈ Set.Ico 4 (4 + 8), p ∉ t.paging initMm.pgdir →
      (t.pmm.page p).ref = t.mappings initMm.pgdir p := by
  have heq : ∃ t, [VmOp.allocPages 1, .pageInsert 4 0x400000#32 PTE_U].foldlM (exec initMm)
      (booted 8 1024#32) = some t := ⟨_, rfl⟩
  obtain ⟨t, heq⟩ := heq
  have huser : ∀ la < KERNEL_BASE, ¬ Present ((booted 8 1024#32).pteAt initMm.pgdir la) := by
    intro la hla
    rw [booted_pteAt 1024#32 hla]
    exact not_present_zero
  refine ⟨t, heq, (run_counted (booted_space (by decide) 1024#32 (by decide))
    (booted_ref (by decide) 1024#32) huser (Run.of_foldlM ?_ heq)).1⟩
  refine booted_allowed (by decide) 1024#32 (by decide) (le_refl 1) rfl
    ⟨⟨le_refl 1, trivial⟩, trivial⟩ ?_
  intro u hu hfree hpaging hmem
  have hv : pdx 0x400000#32 ≠ pdx VPT := by decide
  have hout : (4 : ℕ) ∉ u.pmm.freePages := fun hp => absurd (hfree 4 hp) (by decide)
  refine hu.allowed_pageInsert hv ⟨⟨hv, ⟨by simp, hout⟩, by decide, by decide⟩, ?_⟩
    fun w _ _ => trivial
  show ¬ Present (u.pteAt initMm.pgdir 0x400000#32)
  rw [pteAt, hmem]
  exact huser 0x400000#32 (by decide)

end Calls

end Vm
end Zonix
