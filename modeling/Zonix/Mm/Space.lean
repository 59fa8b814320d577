import Zonix.Mm.SwapTheorems

/-!
# One address space

`Space s mm ram qs` is what every call keeps true of an `mm_struct`: both lists are well
formed, `qs` being the swap queue, the directory is well shaped, and no page of the queue
holds a page table. What each call does to the entries is stated over it.

Of the frames it asks only that they have a 32-bit address. Those of a kernel that came through
`page_init` are the ones that the direct map reaches, which is less.
-/

namespace Zonix
open Lib

namespace Vm

structure Space (s : Vm) (mm : MmStruct) (ram : Set ℕ) (qs : List ℕ) : Prop where
  head : mm.swapList = .praListHead
  lists : s.pmm.Lists ram qs
  low : ∀ p ∈ ram, p < 2 ^ 20
  pgdir : s.PgdirOk mm.pgdir
  /-- The self-mapping slot is the one of `vmm_init`, or empty. -/
  self : Present (s.mem mm.pgdir (pdx VPT)) → pagNum (s.mem mm.pgdir (pdx VPT)) = mm.pgdir
  data : ∀ p ∈ qs, p ∉ s.paging mm.pgdir

/-- The entries are words of the paging frames. -/
theorem pteAt_of_paging {s t : Vm} {pgdir : ℕ}
    (hself : Present (s.mem pgdir (pdx VPT)) → pagNum (s.mem pgdir (pdx VPT)) = pgdir)
    (hmem : ∀ f ∈ s.paging pgdir, ∀ j, t.mem f j = s.mem f j) (la : Word) :
    t.pteAt pgdir la = s.pteAt pgdir la := by
  have hdir := hmem pgdir (Or.inl rfl)
  rw [pteAt, pteAt, hdir]
  by_cases hp : Present (s.mem pgdir (pdx la))
  · rw [if_pos hp, if_pos hp]
    by_cases hv : pdx la = pdx VPT
    · rw [hv] at hp ⊢
      rw [hself hp, hdir]
    · exact hmem _ (Or.inr ⟨_, isTable_pdx hp hv⟩) _
  · rw [if_neg hp, if_neg hp]

namespace Space

variable {s t : Vm} {mm : MmStruct} {ram : Set ℕ} {qs : List ℕ}

theorem inRam (h : s.Space mm ram qs) {p : ℕ} (hp : p ∈ s.pmm.freePages) : p ∈ ram := by
  obtain ⟨bs, hinv⟩ := h.lists.free
  exact hinv.mem_ram hp

theorem freeLow (h : s.Space mm ram qs) (p : ℕ) (hp : p ∈ s.pmm.freePages) : p < 2 ^ 20 :=
  h.low p (h.inRam hp)

/-- A state with the same directory. -/
theorem congr (h : s.Space mm ram qs) {qs' : List ℕ} (hlists : t.pmm.Lists ram qs')
    (hdir : ∀ j, t.mem mm.pgdir j = s.mem mm.pgdir j)
    (hfree : ∀ f ∈ s.paging mm.pgdir, f ∉ t.pmm.freePages)
    (hdata : ∀ p ∈ qs', p ∉ s.paging mm.pgdir) : t.Space mm ram qs' := by
  refine ⟨h.head, hlists, h.low, h.pgdir.congr hdir hfree, ?_, ?_⟩
  · rw [hdir]
    exact h.self
  · rw [paging_congr hdir]
    exact hdata

/-! ## Entries -/

/-- Through the self-mapping slot the directory is seen as a page table. -/
theorem pteAt_vpt (h : s.Space mm ram qs) {la : Word} (hv : pdx la = pdx VPT) :
    s.pteAt mm.pgdir la =
      if Present (s.mem mm.pgdir (pdx VPT)) then s.mem mm.pgdir (ptx la) else 0#32 := by
  rw [pteAt, hv]
  by_cases hp : Present (s.mem mm.pgdir (pdx VPT))
  · rw [if_pos hp, if_pos hp, h.self hp]
  · rw [if_neg hp, if_neg hp]

theorem pteAt_congr (h : s.Space mm ram qs)
    (hmem : ∀ f ∈ s.paging mm.pgdir, ∀ j, t.mem f j = s.mem f j) (la : Word) :
    t.pteAt mm.pgdir la = s.pteAt mm.pgdir la :=
  pteAt_of_paging h.self hmem la

/-- A word written to a page table is the entry of one page, and no other entry. -/
theorem pteAt_write (h : s.Space mm ram qs) {d table i : ℕ} {v : Word}
    (hw : WritesEntry s t table i v) (ht : s.IsTable mm.pgdir d table) (la : Word) :
    t.pteAt mm.pgdir la = if pdx la = d ∧ ptx la = i then v else s.pteAt mm.pgdir la := by
  by_cases hv : pdx la = pdx VPT
  · have hne : ¬ (pdx la = d ∧ ptx la = i) := fun hh => ht.2.1 (hh.1.symm.trans hv)
    have hdir := hw.directory h.pgdir ht
    rw [if_neg hne, h.pteAt_vpt hv, pteAt, hv, hdir]
    by_cases hp : Present (s.mem mm.pgdir (pdx VPT))
    · rw [if_pos hp, if_pos hp, h.self hp, hdir]
    · rw [if_neg hp, if_neg hp]
  · exact hw.pteAt h.pgdir ht hv

/-- What maps a page that holds no page table is outside the self-mapping slot. -/
theorem pdx_ne_of_maps (h : s.Space mm ram qs) {p : ℕ} (hp : p ∉ s.paging mm.pgdir) {la : Word}
    (hm : s.Maps mm.pgdir la p) : pdx la ≠ pdx VPT := by
  intro hv
  have hself : Present (s.mem mm.pgdir (pdx VPT)) := hv ▸ hm.present
  obtain ⟨hpres, hpag⟩ := hm
  rw [h.pteAt_vpt hv, if_pos hself] at hpres hpag
  by_cases ht : ptx la = pdx VPT
  · rw [ht, h.self hself] at hpag
    exact hp (Or.inl hpag.symm)
  · exact hp (Or.inr ⟨ptx la, ptx_lt la, ht, hpres, hpag⟩)

/-! ## Each call keeps it -/

theorem takes (h : s.Space mm ram qs) {n page : ℕ} {pmm : Pmm} (ht : s.pmm.Takes n page pmm) :
    (s.setPmm pmm).Space mm ram qs := by
  refine h.congr (h.lists.takes ht) (fun j => rfl) (fun f hf hfree => ?_) h.data
  exact h.pgdir.notFree f hf (ht.freePages_subset hfree)

theorem getPte (h : s.Space mm ram qs) {la : Word} {create : Bool} {r : Option (ℕ × ℕ)}
    (hget : GetPte s mm.pgdir la create r t) (hv : pdx la ≠ pdx VPT) : t.Space mm ram qs := by
  cases hget with
  | table | absent | exhausted => exact h
  | created page pmm hp hc ht =>
    have hfree := ht.one.1
    have hlt := h.freeLow page hfree
    have hself := newTable_directory la pmm h.pgdir hfree hlt (pdx VPT)
    rw [if_neg hv.symm] at hself
    refine ⟨h.head, (h.lists.takes ht).setRef page _, h.low, newTable_pgdirOk h.pgdir hv ht hlt,
      ?_, ?_⟩
    · rw [hself]
      exact h.self
    · rintro p hp' (rfl | ⟨i, hi⟩)
      · exact h.data _ hp' (Or.inl rfl)
      · rw [newTable_isTable pmm h.pgdir hv hfree hlt] at hi
        split_ifs at hi
        -- the new page table was free, so it was not queued
        · exact h.lists.notFree p hp' (hi ▸ hfree)
        · exact h.data p hp' (Or.inr ⟨i, hi⟩)

/-- A word written to a page table. -/
theorem writesEntry (h : s.Space mm ram qs) {d table i : ℕ} {v : Word}
    (hw : WritesEntry s t table i v) (ht : s.IsTable mm.pgdir d table) {qs' : List ℕ}
    (hlists : t.pmm.Lists ram qs') (hfree : ∀ f ∈ s.paging mm.pgdir, f ∉ t.pmm.freePages)
    (hqs : ∀ p ∈ qs', p ∈ qs) : t.Space mm ram qs' :=
  h.congr hlists (hw.directory h.pgdir ht) hfree fun p hp => h.data p (hqs p hp)

/-- A page entered in a page table. -/
theorem mapPage (h : s.Space mm ram qs) {table : ℕ} {la : Word} (page : ℕ) (perm : Word)
    (ht : s.IsTable mm.pgdir (pdx la) table) :
    (s.mapPage mm.pgdir page la perm table (ptx la)).Space mm ram qs := by
  refine h.writesEntry (mapPage_writesEntry _ _ _ _ _ _ _) ht ?_ ?_ fun p hp => hp
  · rw [mapPage_pmm]
    exact h.lists.setRef page _
  · rw [mapPage_pmm, Pmm.setRef_freePages]
    exact h.pgdir.notFree

/-- A free frame was filled. -/
theorem fill (h : s.Space mm ram qs) {q : ℕ} (hq : q ∈ s.pmm.freePages)
    (hlists : t.pmm.Lists ram qs) (hfree : t.pmm.freePages ⊆ s.pmm.freePages)
    (hmem : ∀ f, f ≠ q → ∀ j, t.mem f j = s.mem f j) : t.Space mm ram qs := by
  have hdir : mm.pgdir ≠ q := by
    rintro rfl
    exact h.pgdir.notFree _ (Or.inl rfl) hq
  exact h.congr hlists (hmem _ hdir) (fun f hf hf' => h.pgdir.notFree f hf (hfree hf')) h.data

theorem pageInsert (h : s.Space mm ram qs) {page : ℕ} {la perm : Word} {res : ℤ}
    (hins : PageInsert s mm.pgdir page la perm res t) (hv : pdx la ≠ pdx VPT) :
    t.Space mm ram qs := by
  cases hins with
  | failure => exact h
  | success hget =>
    have ht := h.getPte hget hv
    obtain ⟨htable, rfl⟩ := hget.isTable h.pgdir h.freeLow hv
    exact ht.mapPage page perm htable

theorem pgdirAllocPage (h : s.Space mm ram qs) {la perm : Word} {p : Option ℕ}
    (hall : PgdirAllocPage s mm.pgdir la perm p t) (hv : pdx la ≠ pdx VPT) :
    t.Space mm ram qs := by
  cases hall with
  | exhausted => exact h
  | allocated ht hins => exact (h.takes ht).pageInsert hins hv

theorem mapSwappable (h : s.Space mm ram qs) {page : ℕ} (hram : page ∈ ram)
    (hfree : page ∉ s.pmm.freePages) (hqs : page ∉ qs) (hdata : page ∉ s.paging mm.pgdir) :
    (s.swapFifoMapSwappable mm page).Space mm ram (qs ++ [page]) := by
  obtain ⟨hlists, hsame⟩ := h.lists.enqueue hram hfree hqs
  rw [swapFifoMapSwappable, h.head]
  refine h.congr hlists (fun j => rfl) (fun f hf => ?_) fun p hp => ?_
  · rw [setPmm_pmm, hsame]
    exact h.pgdir.notFree f hf
  · rcases List.mem_append.mp hp with hp | hp
    · exact h.data p hp
    · rw [List.mem_singleton.mp hp]
      exact hdata

end Space
end Vm
end Zonix
