import Zonix.Mm.SwapEffects
import Zonix.Lib.Cache
import Mathlib.Data.Set.Pairwise.Basic

/-!
# Several address spaces

`Spaces s mms active ram qs` says that each of the directories `mms` is an address space in order,
that no frame holds page tables of two of them, and that the directory of `active` is the one in
use. What an edit of one directory does to the translations that the processor sees is stated
over it: nothing when the directory is not in use, and otherwise what it does to one page.
-/

namespace Zonix
open Lib

namespace Vm

variable {s t : Vm} {mms : Set MmStruct} {mm active : MmStruct} {ram : Set ℕ} {qs qs' : List ℕ}
  {page table p : ℕ} {la la' v : Word} {pmm : Pmm}

/-- What the tables of the directory in use give for a page. -/
def translations (s : Vm) : Cache ℕ Word := fun page =>
  {pte | ∃ la, pagNum la = page ∧ s.walk (pagNum s.cr3) la = some pte}

/-- A walk depends on the page only. -/
theorem walk_page (h : pagNum la' = pagNum la) (pgdir : ℕ) :
    s.walk pgdir la' = s.walk pgdir la := by
  rw [pagNum_inj] at h
  rw [walk, walk, pteAt, pteAt, h.1, h.2]

theorem mem_translations {pte : Word} :
    pte ∈ s.translations (pagNum la) ↔ s.walk (pagNum s.cr3) la = some pte := by
  constructor
  · rintro ⟨la', hpage, hwalk⟩
    rwa [walk_page hpage] at hwalk
  · intro hwalk
    exact ⟨la, rfl, hwalk⟩

/-- The frame holds no page table and no directory. -/
def Data (s : Vm) (mms : Set MmStruct) (f : ℕ) : Prop := ∀ mm ∈ mms, f ∉ s.paging mm.pgdir

structure Spaces (s : Vm) (mms : Set MmStruct) (active : MmStruct) (ram : Set ℕ) (qs : List ℕ) :
    Prop where
  space : ∀ mm ∈ mms, s.Space mm ram qs
  low : ∀ mm ∈ mms, mm.pgdir < 2 ^ 20
  disjoint : mms.Pairwise fun mm mm' => Disjoint (s.paging mm.pgdir) (s.paging mm'.pgdir)
  mem : active ∈ mms
  cr3 : s.cr3 = page2pa active.pgdir

/-- No directory and no page table differs. -/
structure SameTables (s : Vm) (mms : Set MmStruct) (t : Vm) : Prop where
  cr3 : t.cr3 = s.cr3
  mem : ∀ mm ∈ mms, ∀ f ∈ s.paging mm.pgdir, ∀ j, t.mem f j = s.mem f j

theorem SameTables.paging (h : s.SameTables mms t) (hmm : mm ∈ mms) :
    t.paging mm.pgdir = s.paging mm.pgdir :=
  paging_congr (h.mem mm hmm mm.pgdir (Or.inl rfl))

theorem SameTables.data (h : s.SameTables mms t) (hp : s.Data mms p) : t.Data mms p := by
  intro mm hmm
  rw [h.paging hmm]
  exact hp mm hmm

/-- A frame without page tables may change. -/
theorem SameTables.of_data (hp : s.Data mms p) (hcr3 : t.cr3 = s.cr3)
    (hmem : ∀ f, f ≠ p → ∀ j, t.mem f j = s.mem f j) : s.SameTables mms t := by
  refine ⟨hcr3, fun mm hmm f hf => hmem f ?_⟩
  rintro rfl
  exact hp mm hmm hf

theorem SameTables.of_mem (hcr3 : t.cr3 = s.cr3) (hmem : t.mem = s.mem) : s.SameTables mms t :=
  ⟨hcr3, fun _ _ f _ j => congrFun (congrFun hmem f) j⟩

/-- The frame is allocated, not queued, and holds no page table. -/
structure Fresh (s : Vm) (mms : Set MmStruct) (ram : Set ℕ) (qs : List ℕ) (p : ℕ) : Prop where
  inRam : p ∈ ram
  notFree : p ∉ s.pmm.freePages
  notQueued : p ∉ qs
  data : s.Data mms p

theorem SameTables.fresh (h : s.SameTables mms t) (hp : s.Fresh mms ram qs p)
    (hpmm : t.pmm.freePages = s.pmm.freePages) : t.Fresh mms ram qs p :=
  ⟨hp.inRam, hpmm ▸ hp.notFree, hp.notQueued, h.data hp.data⟩

namespace Spaces

theorem lists (h : s.Spaces mms active ram qs) : s.pmm.Lists ram qs := (h.space active h.mem).lists

theorem pagNum_cr3 (h : s.Spaces mms active ram qs) : pagNum s.cr3 = active.pgdir := by
  rw [h.cr3, pagNum_page2pa (h.low active h.mem)]

/-- A directory is in use when CR3 is its address. -/
theorem cr3_eq_iff (h : s.Spaces mms active ram qs) (hmm : mm ∈ mms) :
    s.cr3 = page2pa mm.pgdir ↔ mm = active := by
  constructor
  · intro heq
    have hpgdir : mm.pgdir = active.pgdir := by
      rw [← h.pagNum_cr3, heq, pagNum_page2pa (h.low mm hmm)]
    have hlist : mm.swapList = active.swapList :=
      (h.space mm hmm).head.trans (h.space active h.mem).head.symm
    cases mm
    cases active
    exact congrArg₂ MmStruct.mk hpgdir hlist
  · rintro rfl
    exact h.cr3

theorem data_of_free (h : s.Spaces mms active ram qs) (hp : p ∈ s.pmm.freePages) :
    s.Data mms p := fun mm hmm hf => (h.space mm hmm).pgdir.notFree p hf hp

theorem data_of_queued (h : s.Spaces mms active ram qs) (hp : p ∈ qs) : s.Data mms p :=
  fun mm hmm => (h.space mm hmm).data p hp

/-! ## Steps that edit no table -/

theorem congr (h : s.Spaces mms active ram qs) (hs : s.SameTables mms t)
    (hlists : t.pmm.Lists ram qs') (hfree : ∀ p ∈ t.pmm.freePages, s.Data mms p)
    (hdata : ∀ p ∈ qs', s.Data mms p) : t.Spaces mms active ram qs' where
  space mm hmm := (h.space mm hmm).congr hlists (hs.mem mm hmm mm.pgdir (Or.inl rfl))
    (fun f hf hf' => hfree f hf' mm hmm hf) fun p hp => hdata p hp mm hmm
  low := h.low
  disjoint mm hmm mm' hmm' hne := by
    show Disjoint (t.paging mm.pgdir) (t.paging mm'.pgdir)
    rw [hs.paging hmm, hs.paging hmm']
    exact h.disjoint hmm hmm' hne
  mem := h.mem
  cr3 := hs.cr3.trans h.cr3

theorem translations_congr (h : s.Spaces mms active ram qs) (hs : s.SameTables mms t) :
    t.translations = s.translations := by
  have hwalk : ∀ la, t.walk (pagNum t.cr3) la = s.walk (pagNum s.cr3) la := by
    intro la
    rw [hs.cr3, h.pagNum_cr3]
    apply walk_congr
    exact (h.space active h.mem).pteAt_congr (hs.mem active h.mem) la
  funext page
  simp only [translations, hwalk]

/-! ## Frames for data -/

theorem takes (h : s.Spaces mms active ram qs) (ht : s.pmm.Takes 1 page pmm) :
    (s.setPmm pmm).Spaces mms active ram qs ∧ (s.setPmm pmm).Fresh mms ram qs page := by
  obtain ⟨hfree, htaken⟩ := ht.one
  have hdata := h.data_of_free hfree
  refine ⟨h.congr (.of_mem rfl rfl) (h.lists.takes ht) (fun p hp => ?_) fun p hp =>
    h.data_of_queued hp, ?_⟩
  · exact h.data_of_free (ht.freePages_subset hp)
  · refine ⟨(h.space active h.mem).inRam hfree, ?_, fun hq => h.lists.notFree page hq hfree, hdata⟩
    show page ∉ pmm.freePages
    rw [htaken]
    exact fun hp => hp.2 rfl

theorem gives (h : s.Spaces mms active ram qs) (hp : s.Fresh mms ram qs page)
    (heq : s.pagesFree page 1 = some t) : t.Spaces mms active ram qs ∧ s.SameTables mms t := by
  obtain ⟨pmm, hfree, hg, hlists⟩ := h.lists.free_one hp.inRam hp.notFree hp.notQueued
  rw [pagesFree, hfree] at heq
  obtain rfl := Option.some.inj heq
  have hs : s.SameTables mms (s.setPmm pmm) := .of_mem rfl rfl
  refine ⟨h.congr hs hlists (fun p hp' => ?_) fun p hp' => h.data_of_queued hp', hs⟩
  rw [setPmm_pmm, hg.one] at hp'
  rcases hp' with hp' | rfl
  · exact h.data_of_free hp'
  · exact hp.data

theorem enqueue (h : s.Spaces mms active ram qs) (hmm : mm ∈ mms)
    (hp : s.Fresh mms ram qs page) :
    (s.swapFifoMapSwappable mm page).Spaces mms active ram (qs ++ [page]) := by
  obtain ⟨hlists, hsame⟩ := h.lists.enqueue hp.inRam hp.notFree hp.notQueued
  rw [swapFifoMapSwappable, (h.space mm hmm).head]
  refine h.congr (.of_mem rfl rfl) hlists (fun p hp' => ?_) fun p hp' => ?_
  · rw [setPmm_pmm, hsame] at hp'
    exact h.data_of_free hp'
  · rcases List.mem_append.mp hp' with hp' | hp'
    · exact h.data_of_queued hp'
    · rw [List.mem_singleton.mp hp']
      exact hp.data

/-- The victim is the first page of the queue. -/
theorem victim_cons (h : s.Spaces mms active ram (page :: qs)) (hmm : mm ∈ mms) :
    s.swapFifoSwapOutVictim mm = some (0, some page, s.dequeued page) ∧
      (s.dequeued page).Spaces mms active ram qs ∧ (s.dequeued page).Fresh mms ram qs page := by
  have hnext := h.lists.next_cons
  obtain ⟨hlists, hfree⟩ := h.lists.dequeue
  have hfree' : (s.dequeued page).pmm.freePages = s.pmm.freePages := hfree
  have hnd := h.lists.queue_nodup
  rw [List.nodup_cons] at hnd
  refine ⟨?_, h.congr (.of_mem rfl rfl) hlists (fun p hp => ?_) fun p hp => ?_, ?_, ?_, hnd.1, ?_⟩
  · simp [swapFifoSwapOutVictim, (h.space mm hmm).head, hnext, le2page, dequeued]
  · rw [hfree'] at hp
    exact h.data_of_free hp
  · exact h.data_of_queued (List.mem_cons_of_mem page hp)
  · exact h.lists.inRam page List.mem_cons_self
  · rw [hfree']
    exact h.lists.notFree page List.mem_cons_self
  · exact h.data_of_queued List.mem_cons_self

theorem victim_nil (h : s.Spaces mms active ram []) (hmm : mm ∈ mms) :
    s.swapFifoSwapOutVictim mm = some (-1, none, s) := by
  have hnext := h.lists.next_nil
  simp [swapFifoSwapOutVictim, (h.space mm hmm).head, hnext]

/-- `lcr3` -/
theorem lcr3 (h : s.Spaces mms active ram qs) (hmm : mm ∈ mms) (hpmm : t.pmm = s.pmm)
    (hmem : t.mem = s.mem) (hcr3 : t.cr3 = page2pa mm.pgdir) : t.Spaces mms mm ram qs := by
  have hpaging : ∀ pgdir, t.paging pgdir = s.paging pgdir := fun pgdir =>
    paging_congr fun j => by rw [hmem]
  refine ⟨fun mm' hmm' => ?_, h.low, fun mm₁ h₁ mm₂ h₂ hne => ?_, hmm, hcr3⟩
  · have hspace := h.space mm' hmm'
    refine hspace.congr (hpmm ▸ hspace.lists) (fun j => by rw [hmem]) ?_ hspace.data
    rw [hpmm]
    exact hspace.pgdir.notFree
  · show Disjoint (t.paging mm₁.pgdir) (t.paging mm₂.pgdir)
    rw [hpaging, hpaging]
    exact h.disjoint h₁ h₂ hne

/-! ## A new page table -/

section NewTable
variable (h : s.Spaces mms active ram qs) (hmm : mm ∈ mms) (ht : s.pmm.Takes 1 page pmm)
include h hmm ht

/-- The frames of another directory stay as they are. -/
theorem newTable_mem_other (la : Word) {mm' : MmStruct} (hmm' : mm' ∈ mms) (hne : mm ≠ mm') (f : ℕ)
    (hf : f ∈ s.paging mm'.pgdir) (j : ℕ) :
    (s.newTable mm.pgdir la page pmm).mem f j = s.mem f j := by
  have hdir : f ≠ mm.pgdir := by
    rintro rfl
    exact Set.disjoint_left.mp (h.disjoint hmm hmm' hne) (Or.inl rfl) hf
  have hpage : f ≠ page := by
    rintro rfl
    exact h.data_of_free ht.one.1 mm' hmm' hf
  have hlow := (h.space mm hmm).freeLow page ht.one.1
  rw [newTable_mem, pagNum_page2pa hlow, if_neg fun hh => hdir hh.1, if_neg hpage]

variable (hv : pdx la ≠ pdx VPT)
include hv

theorem newTable_paging {f : ℕ} {mm' : MmStruct} (hmm' : mm' ∈ mms)
    (hf : f ∈ (s.newTable mm.pgdir la page pmm).paging mm'.pgdir) :
    f ∈ s.paging mm'.pgdir ∨ (mm' = mm ∧ f = page) := by
  have hspace := h.space mm hmm
  by_cases hne : mm = mm'
  · subst hne
    rcases hf with hf | ⟨i, hi⟩
    · exact Or.inl (Or.inl hf)
    · rw [newTable_isTable pmm hspace.pgdir hv ht.one.1 (hspace.freeLow page ht.one.1)] at hi
      split_ifs at hi
      · exact Or.inr ⟨rfl, hi⟩
      · exact Or.inl (Or.inr ⟨i, hi⟩)
  · have hother := h.newTable_mem_other hmm ht la hmm' hne
    rw [paging_congr (hother mm'.pgdir (Or.inl rfl))] at hf
    exact Or.inl hf

variable (hp : ¬ Present (s.mem mm.pgdir (pdx la)))

include hp in
theorem newTable : (s.newTable mm.pgdir la page pmm).Spaces mms active ram qs := by
  have hpage := h.data_of_free ht.one.1
  refine ⟨fun mm' hmm' => ?_, h.low, fun mm₁ h₁ mm₂ h₂ hne => ?_, h.mem, h.cr3⟩
  · by_cases hne : mm = mm'
    · subst hne
      exact (h.space mm hmm).getPte (.created page pmm hp rfl ht) hv
    · have hother := h.newTable_mem_other hmm ht la hmm' hne
      have hspace := h.space mm' hmm'
      refine hspace.congr ((h.lists.takes ht).setRef page _) (hother mm'.pgdir (Or.inl rfl))
        (fun f hf hfree => ?_) hspace.data
      rw [newTable_pmm, Pmm.setRef_freePages] at hfree
      exact hspace.pgdir.notFree f hf (ht.freePages_subset hfree)
  · show Disjoint _ _
    rw [Set.disjoint_left]
    intro f hf₁ hf₂
    -- the new page table was a free frame, in none of the directories
    rcases h.newTable_paging hmm ht hv h₁ hf₁ with hold₁ | ⟨hmm₁, rfl⟩
    · rcases h.newTable_paging hmm ht hv h₂ hf₂ with hold₂ | ⟨-, rfl⟩
      · exact Set.disjoint_left.mp (h.disjoint h₁ h₂ hne) hold₁ hold₂
      · exact hpage mm₁ h₁ hold₁
    · rcases h.newTable_paging hmm ht hv h₂ hf₂ with hold₂ | ⟨hmm₂, -⟩
      · exact hpage mm₂ h₂ hold₂
      · exact hne (hmm₁.trans hmm₂.symm)

theorem newTable_fresh (hf : s.Fresh mms ram qs p) :
    (s.newTable mm.pgdir la page pmm).Fresh mms ram qs p := by
  obtain ⟨hfree, htaken⟩ := ht.one
  refine ⟨hf.inRam, fun hp' => ?_, hf.notQueued, fun mm' hmm' hp' => ?_⟩
  · rw [newTable_pmm, Pmm.setRef_freePages] at hp'
    exact hf.notFree (ht.freePages_subset hp')
  · rcases h.newTable_paging hmm ht hv hmm' hp' with hp' | ⟨-, rfl⟩
    · exact hf.data mm' hmm' hp'
    · exact hf.notFree hfree

include hp in
/-- What was mapped stays mapped; seen through the self-mapping slot, a page more is. -/
theorem newTable_translations (n : ℕ) :
    s.translations n ⊆ (s.newTable mm.pgdir la page pmm).translations n := by
  rintro pte ⟨la', rfl, hwalk⟩
  refine ⟨la', rfl, ?_⟩
  have hcr3 : (s.newTable mm.pgdir la page pmm).cr3 = s.cr3 := rfl
  rw [h.pagNum_cr3] at hwalk
  rw [hcr3, h.pagNum_cr3]
  have hspace := h.space active h.mem
  by_cases hne : mm = active
  · subst hne
    have hfree := ht.one.1
    have hlow := hspace.freeLow page hfree
    by_cases hv' : pdx la' = pdx VPT
    · have hdir := newTable_directory la pmm hspace.pgdir hfree hlow
      have hpres : Present (s.pteAt mm.pgdir la') := by
        by_contra hno
        rw [walk, if_neg hno] at hwalk
        exact absurd hwalk (by simp)
      have hself : Present (s.mem mm.pgdir (pdx VPT)) := by
        by_contra hno
        rw [hspace.pteAt_vpt hv', if_neg hno] at hpres
        exact not_present_zero hpres
      -- the new entry of the directory was empty
      have hslot : ptx la' ≠ pdx la := by
        intro heq
        rw [hspace.pteAt_vpt hv', if_pos hself, heq] at hpres
        exact hp hpres
      rw [← hwalk]
      apply walk_congr
      rw [hspace.pteAt_vpt hv', (h.newTable hmm ht hv hp).space mm hmm |>.pteAt_vpt hv', hdir, hdir,
        if_neg hv.symm, if_neg hslot]
    · rw [← hwalk]
      apply walk_congr
      exact newTable_pteAt hspace.pgdir hp hv hfree hlow hv'
  · rw [← hwalk]
    apply walk_congr
    apply hspace.pteAt_congr
    intro f hf j
    exact h.newTable_mem_other hmm ht la h.mem hne f hf j

end NewTable

/-! ## An edited entry -/

section Entry
variable (h : s.Spaces mms active ram qs) (hmm : mm ∈ mms)
  (hw : WritesEntry s t table (ptx la) v) (ht : s.IsTable mm.pgdir (pdx la) table)
include h hmm hw ht

theorem writesEntry_mem_other {mm' : MmStruct} (hmm' : mm' ∈ mms) (hne : mm ≠ mm') {f : ℕ}
    (hf : f ∈ s.paging mm'.pgdir) (j : ℕ) : t.mem f j = s.mem f j := by
  rw [hw, if_neg]
  rintro ⟨rfl, -⟩
  exact Set.disjoint_left.mp (h.disjoint hmm hmm' hne) (Or.inr ⟨_, ht⟩) hf

theorem writesEntry_directory {mm' : MmStruct} (hmm' : mm' ∈ mms) (j : ℕ) :
    t.mem mm'.pgdir j = s.mem mm'.pgdir j := by
  by_cases hne : mm = mm'
  · subst hne
    exact hw.directory (h.space mm hmm).pgdir ht j
  · exact h.writesEntry_mem_other hmm hw ht hmm' hne (Or.inl rfl) j

theorem writesEntry_fresh (hpmm : t.pmm = s.pmm) (hf : s.Fresh mms ram qs p) :
    t.Fresh mms ram qs p := by
  refine ⟨hf.inRam, hpmm ▸ hf.notFree, hf.notQueued, fun mm' hmm' => ?_⟩
  rw [paging_congr (h.writesEntry_directory hmm hw ht hmm')]
  exact hf.data mm' hmm'

theorem writesEntry (hpmm : t.pmm = s.pmm) (hcr3 : t.cr3 = s.cr3) :
    t.Spaces mms active ram qs := by
  have hpaging : ∀ mm' ∈ mms, t.paging mm'.pgdir = s.paging mm'.pgdir := fun mm' hmm' =>
    paging_congr (h.writesEntry_directory hmm hw ht hmm')
  refine ⟨fun mm' hmm' => ?_, h.low, fun mm₁ h₁ mm₂ h₂ hne => ?_, h.mem, hcr3.trans h.cr3⟩
  · have hspace := h.space mm' hmm'
    refine hspace.congr (hpmm ▸ hspace.lists) (h.writesEntry_directory hmm hw ht hmm') ?_
      hspace.data
    rw [hpmm]
    exact hspace.pgdir.notFree
  · show Disjoint (t.paging mm₁.pgdir) (t.paging mm₂.pgdir)
    rw [hpaging mm₁ h₁, hpaging mm₂ h₂]
    exact h.disjoint h₁ h₂ hne

/-- The entry of the page is the word. -/
theorem writesEntry_pteAt : t.pteAt mm.pgdir la = v := by
  rw [(h.space mm hmm).pteAt_write hw ht, if_pos ⟨rfl, rfl⟩]

/-- No other page of the directory in use is mapped in another way. -/
theorem writesEntry_translations (hcr3 : t.cr3 = s.cr3) {n : ℕ}
    (hn : n ≠ pagNum la ∨ mm ≠ active) : s.translations n ⊆ t.translations n := by
  rintro pte ⟨la', rfl, hwalk⟩
  refine ⟨la', rfl, ?_⟩
  rw [h.pagNum_cr3] at hwalk
  rw [hcr3, h.pagNum_cr3, ← hwalk]
  have hspace := h.space active h.mem
  apply walk_congr
  by_cases hne : mm = active
  · subst hne
    rw [hspace.pteAt_write hw ht, if_neg]
    rintro ⟨hd, hi⟩
    rcases hn with hn | hn
    · exact hn (pagNum_inj.mpr ⟨hd, hi⟩)
    · exact hn rfl
  · apply hspace.pteAt_congr
    intro f hf j
    exact h.writesEntry_mem_other hmm hw ht h.mem hne hf j

end Entry

end Spaces
end Vm
end Zonix
