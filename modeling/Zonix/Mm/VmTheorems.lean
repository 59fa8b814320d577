import Zonix.Mm.Vm
import Zonix.Mm.Lists

/-!
# `get_pte` and `page_insert`

`GetPte` and `PageInsert` list what one call can do, each once; everything else about page
tables is derived from them. A directory is well shaped (`PgdirOk`) when its page tables are
frames of their own: then a word written to one page table is the entry of one page, and a
new table changes what no address maps to.
-/

namespace Zonix
open Lib

namespace Vm

/-! ## What one call does -/

/-- A page table in `page`: all its entries empty, and entered in the directory. -/
def newTable (s : Vm) (pgdir : ℕ) (la : Word) (page : ℕ) (pmm : Pmm) : Vm :=
  ((s.setPmm (pmm.setRef page PAGE_REF_INIT)).setFrame (pagNum (page2pa page))
    fun _ => 0#32).setWord pgdir (pdx la) (page2pa page ||| PTE_USER)

/-- What `get_pte(pgdir, la, create)` returns and leaves behind. -/
inductive GetPte (s : Vm) (pgdir : ℕ) (la : Word) (create : Bool) : Option (ℕ × ℕ) → Vm → Prop
  | table (hp : Present (s.mem pgdir (pdx la))) :
      GetPte s pgdir la create (some (pagNum (s.mem pgdir (pdx la)), ptx la)) s
  | absent (hp : ¬ Present (s.mem pgdir (pdx la))) (hc : create = false) :
      GetPte s pgdir la create none s
  | exhausted (hp : ¬ Present (s.mem pgdir (pdx la))) (hc : create = true)
      (hfree : s.pmm.freePages = ∅) : GetPte s pgdir la create none s
  | created (page : ℕ) (pmm : Pmm) (hp : ¬ Present (s.mem pgdir (pdx la))) (hc : create = true)
      (ht : s.pmm.Takes 1 page pmm) :
      GetPte s pgdir la create (some (pagNum (page2pa page ||| PTE_USER), ptx la))
        (s.newTable pgdir la page pmm)

theorem getPte_spec {s : Vm} {ram : Set ℕ} {bs : List Extent} (h : s.pmm.Inv ram bs) (pgdir : ℕ)
    (la : Word) (create : Bool) :
    ∃ r s', s.getPte pgdir la create = some (r, s') ∧ GetPte s pgdir la create r s' := by
  unfold getPte
  by_cases hp : Present (s.mem pgdir (pdx la))
  · rw [if_pos hp, pagNum_pteAddr]
    exact ⟨_, _, rfl, .table hp⟩
  rw [if_neg hp]
  cases create with
  | false => exact ⟨_, _, rfl, .absent hp rfl⟩
  | true =>
    rcases h.alloc_cases le_rfl with ⟨heq, hfree⟩ | ⟨page, pmm, heq, ht⟩
    · refine ⟨none, s, ?_, .exhausted hp rfl (hfree rfl)⟩
      simp [allocPages, heq, setPmm]
    · refine ⟨_, _, ?_, .created page pmm hp rfl ht⟩
      simp [allocPages, heq, setPmm, newTable, setWord_mem]

/-- A page entered in a page table. -/
def mapPage (s : Vm) (pgdir page : ℕ) (la perm : Word) (table i : ℕ) : Vm :=
  ((s.setPmm (s.pmm.setRef page ((s.pmm.page page).ref + 1))).setWord table i
    (page2pa page ||| perm ||| PTE_P)).tlbInvl pgdir la

/-- What `page_insert(pgdir, page, la, perm)` returns and leaves behind. -/
inductive PageInsert (s : Vm) (pgdir page : ℕ) (la perm : Word) : ℤ → Vm → Prop
  | failure (hp : ¬ Present (s.mem pgdir (pdx la))) (hfree : s.pmm.freePages = ∅) :
      PageInsert s pgdir page la perm INSERT_FAILURE s
  | success {table i : ℕ} {t : Vm} (hget : GetPte s pgdir la true (some (table, i)) t) :
      PageInsert s pgdir page la perm INSERT_SUCCESS (t.mapPage pgdir page la perm table i)

theorem pageInsert_spec {s : Vm} {ram : Set ℕ} {bs : List Extent} (h : s.pmm.Inv ram bs)
    (pgdir page : ℕ) (la perm : Word) :
    ∃ r s', s.pageInsert pgdir page la perm = some (r, s') ∧
      PageInsert s pgdir page la perm r s' := by
  obtain ⟨r, t, heq, hget⟩ := getPte_spec h pgdir la true
  unfold pageInsert
  rw [heq]
  cases hget with
  | table hp => exact ⟨_, _, rfl, .success (.table hp)⟩
  | absent hp hc => exact absurd hc (by decide)
  | exhausted hp hc hfree => exact ⟨_, _, rfl, .failure hp hfree⟩
  | created p pmm hp hc ht => exact ⟨_, _, rfl, .success (.created p pmm hp hc ht)⟩

/-- What `pgdir_alloc_page(pgdir, la, perm)` returns and leaves behind. -/
inductive PgdirAllocPage (s : Vm) (pgdir : ℕ) (la perm : Word) : Option ℕ → Vm → Prop
  | exhausted (hfree : s.pmm.freePages = ∅) : PgdirAllocPage s pgdir la perm none s
  | allocated {page : ℕ} {pmm : Pmm} {res : ℤ} {t : Vm} (ht : s.pmm.Takes 1 page pmm)
      (hins : PageInsert (s.setPmm pmm) pgdir page la perm res t) :
      PgdirAllocPage s pgdir la perm (some page) t

theorem pgdirAllocPage_spec {s : Vm} {ram : Set ℕ} {bs : List Extent} (h : s.pmm.Inv ram bs)
    (pgdir : ℕ) (la perm : Word) : ∃ p s', s.pgdirAllocPage pgdir la perm = some (p, s') ∧
      PgdirAllocPage s pgdir la perm p s' := by
  rcases h.alloc_cases le_rfl with ⟨heq, hfree⟩ | ⟨page, pmm, heq, ht⟩
  · refine ⟨none, s, ?_, .exhausted (hfree rfl)⟩
    simp [pgdirAllocPage, allocPages, heq, setPmm]
  · obtain ⟨bs', h'⟩ := ht.inv ram bs h
    obtain ⟨res, t, hins, hspec⟩ := pageInsert_spec (s := s.setPmm pmm) h' pgdir page la perm
    refine ⟨some page, t, ?_, .allocated ht hspec⟩
    simp [pgdirAllocPage, allocPages, heq, hins]

section Memory
variable (s : Vm) (pgdir page : ℕ) (la perm : Word) (pmm : Pmm) (table i : ℕ)

@[simp] theorem newTable_pmm : (s.newTable pgdir la page pmm).pmm = pmm.setRef page PAGE_REF_INIT :=
  rfl

theorem newTable_mem (f j : ℕ) : (s.newTable pgdir la page pmm).mem f j =
    if f = pgdir ∧ j = pdx la then page2pa page ||| PTE_USER
    else if f = pagNum (page2pa page) then 0#32 else s.mem f j := by
  rw [newTable, setWord_mem, setFrame_mem, setPmm_mem]

@[simp] theorem mapPage_pmm : (s.mapPage pgdir page la perm table i).pmm =
    s.pmm.setRef page ((s.pmm.page page).ref + 1) := by
  rw [mapPage, tlbInvl_pmm, setWord_pmm, setPmm_pmm]

@[simp] theorem mapPage_ide : (s.mapPage pgdir page la perm table i).ide = s.ide := by
  rw [mapPage, tlbInvl_ide]
  rfl

theorem mapPage_mem (f j : ℕ) : (s.mapPage pgdir page la perm table i).mem f j =
    if f = table ∧ j = i then page2pa page ||| perm ||| PTE_P else s.mem f j := by
  rw [mapPage, tlbInvl_mem, setWord_mem, setPmm_mem]

end Memory

section Pmm
variable {s s' : Vm} {pgdir page : ℕ} {la perm : Word} {create : Bool} {r : Option (ℕ × ℕ)}
  {res : ℤ} {ram : Set ℕ} {bs : List Extent} {qs : List ℕ}

theorem GetPte.inv (hget : GetPte s pgdir la create r s') (h : s.pmm.Inv ram bs) :
    ∃ bs', s'.pmm.Inv ram bs' := by
  cases hget with
  | table | absent | exhausted => exact ⟨bs, h⟩
  | created p pmm _ _ ht =>
    obtain ⟨bs', h'⟩ := ht.inv ram bs h
    exact ⟨bs', h'.setRef p _⟩

theorem GetPte.lists (hget : GetPte s pgdir la create r s') (h : s.pmm.Lists ram qs) :
    s'.pmm.Lists ram qs := by
  cases hget with
  | table | absent | exhausted => exact h
  | created p pmm _ _ ht => exact (h.takes ht).setRef p _

theorem PageInsert.lists (hins : PageInsert s pgdir page la perm res s') (h : s.pmm.Lists ram qs) :
    s'.pmm.Lists ram qs := by
  cases hins with
  | failure => exact h
  | success hget =>
    rw [mapPage_pmm]
    exact (hget.lists h).setRef page _

theorem PgdirAllocPage.lists {p : Option ℕ} (hall : PgdirAllocPage s pgdir la perm p s')
    (h : s.pmm.Lists ram qs) : s'.pmm.Lists ram qs := by
  cases hall with
  | exhausted => exact h
  | allocated ht hins => exact hins.lists (h.takes ht)

/-- `get_pte` never adds to the free pages. -/
theorem GetPte.freePages_subset (hget : GetPte s pgdir la create r s') :
    s'.pmm.freePages ⊆ s.pmm.freePages := by
  cases hget with
  | table | absent | exhausted => exact subset_rfl
  | created p pmm _ _ ht =>
    rw [newTable_pmm, Pmm.setRef_freePages]
    exact ht.freePages_subset

theorem PageInsert.freePages_subset (hins : PageInsert s pgdir page la perm res s') :
    s'.pmm.freePages ⊆ s.pmm.freePages := by
  cases hins with
  | failure => exact subset_rfl
  | success hget =>
    rw [mapPage_pmm, Pmm.setRef_freePages]
    exact hget.freePages_subset

end Pmm

/-! ## The shape of a page directory -/

/-- Entry `i` of the directory points to the page table in frame `f`. The slot through
which the directory maps itself is left out. -/
def IsTable (s : Vm) (pgdir i f : ℕ) : Prop :=
  i < PDE_NUM ∧ i ≠ pdx VPT ∧ Present (s.mem pgdir i) ∧ pagNum (s.mem pgdir i) = f

/-- The frames that the directory and its page tables occupy. -/
def paging (s : Vm) (pgdir : ℕ) : Set ℕ := {f | f = pgdir ∨ ∃ i, s.IsTable pgdir i f}

/-- The page tables are pairwise distinct frames, none of them the directory; neither they
nor the directory are free. -/
structure PgdirOk (s : Vm) (pgdir : ℕ) : Prop where
  ne : ∀ i f, s.IsTable pgdir i f → f ≠ pgdir
  inj : ∀ i j f, s.IsTable pgdir i f → s.IsTable pgdir j f → i = j
  notFree : ∀ f ∈ s.paging pgdir, f ∉ s.pmm.freePages

theorem isTable_pdx {s : Vm} {pgdir : ℕ} {la : Word} (hp : Present (s.mem pgdir (pdx la)))
    (hv : pdx la ≠ pdx VPT) : s.IsTable pgdir (pdx la) (pagNum (s.mem pgdir (pdx la))) :=
  ⟨pdx_lt la, hv, hp, rfl⟩

theorem isTable_congr {s s' : Vm} {pgdir : ℕ} (hmem : ∀ j, s'.mem pgdir j = s.mem pgdir j)
    (i f : ℕ) : s'.IsTable pgdir i f ↔ s.IsTable pgdir i f := by
  rw [IsTable, IsTable, hmem]

theorem paging_congr {s s' : Vm} {pgdir : ℕ} (hmem : ∀ j, s'.mem pgdir j = s.mem pgdir j) :
    s'.paging pgdir = s.paging pgdir := by
  ext f
  simp only [paging, isTable_congr hmem]

/-- The shape depends on the directory alone, and on the paging frames not being free. -/
theorem PgdirOk.congr {s s' : Vm} {pgdir : ℕ} (h : s.PgdirOk pgdir)
    (hmem : ∀ j, s'.mem pgdir j = s.mem pgdir j)
    (hfree : ∀ f ∈ s.paging pgdir, f ∉ s'.pmm.freePages) : s'.PgdirOk pgdir := by
  refine ⟨fun i f hi => ?_, fun i j f hi hj => ?_, ?_⟩
  · exact h.ne i f ((isTable_congr hmem i f).mp hi)
  · exact h.inj i j f ((isTable_congr hmem i f).mp hi) ((isTable_congr hmem j f).mp hj)
  · rw [paging_congr hmem]
    exact hfree

/-- The entry of an address is in the page table of its directory entry. -/
theorem pteAt_of_isTable {s : Vm} {pgdir f : ℕ} {la : Word} (ht : s.IsTable pgdir (pdx la) f) :
    s.pteAt pgdir la = s.mem f (ptx la) := by
  obtain ⟨-, -, hp, rfl⟩ := ht
  exact if_pos hp

theorem pteAt_of_not_present {s : Vm} {pgdir : ℕ} {la : Word}
    (hp : ¬ Present (s.mem pgdir (pdx la))) : s.pteAt pgdir la = 0#32 := if_neg hp

/-! ### A word written to a page table -/

section WriteEntry
variable {s s' : Vm} {pgdir d table i : ℕ} {v : Word}

/-- The only difference in memory is one word of a page table. -/
def WritesEntry (s s' : Vm) (table i : ℕ) (v : Word) : Prop :=
  ∀ f j, s'.mem f j = if f = table ∧ j = i then v else s.mem f j

theorem WritesEntry.directory (hw : WritesEntry s s' table i v) (h : s.PgdirOk pgdir)
    (ht : s.IsTable pgdir d table) (j : ℕ) : s'.mem pgdir j = s.mem pgdir j := by
  rw [hw, if_neg fun hh => h.ne d table ht hh.1.symm]

/-- It is the entry of the one page that the page table and the index belong to. -/
theorem WritesEntry.pteAt (hw : WritesEntry s s' table i v) (h : s.PgdirOk pgdir)
    (ht : s.IsTable pgdir d table) {la : Word} (hv : pdx la ≠ pdx VPT) :
    s'.pteAt pgdir la = if pdx la = d ∧ ptx la = i then v else s.pteAt pgdir la := by
  have hpde := hw.directory h ht (pdx la)
  by_cases hp : Present (s.mem pgdir (pdx la))
  · have hla := isTable_pdx hp hv
    have hla' := (isTable_congr (hw.directory h ht) _ _).mpr hla
    rw [pteAt_of_isTable hla', pteAt_of_isTable hla, hw]
    -- another page table of the directory is another frame
    have hiff : pagNum (s.mem pgdir (pdx la)) = table ↔ pdx la = d := by
      constructor
      · intro heq
        rw [heq] at hla
        exact h.inj _ _ _ hla ht
      · intro heq
        rw [heq]
        exact ht.2.2.2
    simp only [hiff]
  · have hne : ¬ (pdx la = d ∧ ptx la = i) := by
      rintro ⟨rfl, -⟩
      exact hp ht.2.2.1
    rw [if_neg hne, pteAt_of_not_present hp, pteAt_of_not_present (hpde ▸ hp)]

end WriteEntry

/-! ### A new page table -/

section NewTable
variable {s : Vm} {pgdir page : ℕ} {la : Word}

/-- The page table is a frame of its own, so one word of the directory is written. -/
theorem newTable_directory (la : Word) (pmm : Pmm) (h : s.PgdirOk pgdir)
    (hfree : page ∈ s.pmm.freePages) (hlt : page < 2 ^ 20) (j : ℕ) :
    (s.newTable pgdir la page pmm).mem pgdir j =
      if j = pdx la then page2pa page ||| PTE_USER else s.mem pgdir j := by
  have hne : pgdir ≠ page := by
    rintro rfl
    exact h.notFree pgdir (Or.inl rfl) hfree
  rw [newTable_mem, pagNum_page2pa hlt, if_neg hne]
  simp only [true_and]

/-- The directory leads to the new page table. -/
theorem newTable_table (s : Vm) (pgdir : ℕ) (hv : pdx la ≠ pdx VPT) (page : ℕ) (pmm : Pmm) :
    (s.newTable pgdir la page pmm).IsTable pgdir (pdx la)
      (pagNum ((s.newTable pgdir la page pmm).mem pgdir (pdx la))) := by
  refine isTable_pdx ?_ hv
  rw [newTable_mem, if_pos ⟨rfl, rfl⟩]
  exact (present_or _ _).mpr (Or.inr present_PTE_USER)

theorem newTable_isTable (pmm : Pmm) (h : s.PgdirOk pgdir) (hv : pdx la ≠ pdx VPT)
    (hfree : page ∈ s.pmm.freePages) (hlt : page < 2 ^ 20) (i f : ℕ) :
    (s.newTable pgdir la page pmm).IsTable pgdir i f ↔
      if i = pdx la then f = page else s.IsTable pgdir i f := by
  unfold IsTable
  rw [newTable_directory la pmm h hfree hlt]
  by_cases hi : i = pdx la
  · have hpres : Present (page2pa page ||| PTE_USER) :=
      (present_or _ _).mpr (Or.inr present_PTE_USER)
    have hpag : pagNum (page2pa page ||| PTE_USER) = page := by
      rw [pagNum_or (by decide), pagNum_page2pa hlt]
    have hi' := pdx_lt la
    rw [if_pos hi, if_pos hi, hpag, hi]
    exact ⟨fun hh => hh.2.2.2.symm, fun hh => ⟨hi', hv, hpres, hh.symm⟩⟩
  · rw [if_neg hi, if_neg hi]

theorem newTable_pgdirOk {pmm : Pmm} (h : s.PgdirOk pgdir) (hv : pdx la ≠ pdx VPT)
    (ht : s.pmm.Takes 1 page pmm) (hlt : page < 2 ^ 20) :
    (s.newTable pgdir la page pmm).PgdirOk pgdir := by
  obtain ⟨hfree, htaken⟩ := ht.one
  have hiff := newTable_isTable pmm h hv hfree hlt
  have hpage : ∀ f ∈ s.paging pgdir, f ≠ page := by
    rintro f hf rfl
    exact h.notFree f hf hfree
  refine ⟨fun i f hi => ?_, fun i j f hi hj => ?_, fun f hf => ?_⟩
  · rw [hiff] at hi
    split_ifs at hi
    · rw [hi]
      exact (hpage pgdir (Or.inl rfl)).symm
    · exact h.ne i f hi
  · rw [hiff] at hi hj
    split_ifs at hi hj with hi' hj' hj'
    · rw [hi', hj']
    · exact absurd hi (hpage f (Or.inr ⟨j, hj⟩))
    · exact absurd hj (hpage f (Or.inr ⟨i, hi⟩))
    · exact h.inj i j f hi hj
  · rw [newTable_pmm, Pmm.setRef_freePages, htaken]
    rintro ⟨hf', hne⟩
    rcases hf with rfl | ⟨i, hi⟩
    · exact h.notFree f (Or.inl rfl) hf'
    · rw [hiff] at hi
      split_ifs at hi
      · exact hne hi
      · exact h.notFree f (Or.inr ⟨i, hi⟩) hf'

/-- An empty page table and no page table say the same about every address. -/
theorem newTable_pteAt {pmm : Pmm} (h : s.PgdirOk pgdir) (hp : ¬ Present (s.mem pgdir (pdx la)))
    (hv : pdx la ≠ pdx VPT) (hfree : page ∈ s.pmm.freePages) (hlt : page < 2 ^ 20) {la' : Word}
    (hv' : pdx la' ≠ pdx VPT) :
    (s.newTable pgdir la page pmm).pteAt pgdir la' = s.pteAt pgdir la' := by
  have hiff := newTable_isTable pmm h hv hfree hlt
  have hne : page ≠ pgdir := by
    rintro rfl
    exact h.notFree page (Or.inl rfl) hfree
  by_cases hla : pdx la' = pdx la
  · have ht : (s.newTable pgdir la page pmm).IsTable pgdir (pdx la') page := by
      rw [hiff, if_pos hla]
    rw [pteAt_of_isTable ht, newTable_mem, if_neg fun hh => hne hh.1,
      if_pos (pagNum_page2pa hlt).symm, pteAt_of_not_present (hla ▸ hp)]
  · by_cases hp' : Present (s.mem pgdir (pdx la'))
    · have ht := isTable_pdx hp' hv'
      have ht' := hiff (pdx la') (pagNum (s.mem pgdir (pdx la')))
      rw [if_neg hla] at ht'
      have hpage : pagNum (s.mem pgdir (pdx la')) ≠ page := by
        intro heq
        exact h.notFree _ (Or.inr ⟨_, ht⟩) (heq ▸ hfree)
      rw [pteAt_of_isTable (ht'.mpr ht), pteAt_of_isTable ht, newTable_mem,
        if_neg fun hh => h.ne _ _ ht hh.1, pagNum_page2pa hlt, if_neg hpage]
    · have hpde := newTable_directory la pmm h hfree hlt (pdx la')
      rw [if_neg hla] at hpde
      rw [pteAt_of_not_present hp', pteAt_of_not_present (hpde ▸ hp')]

end NewTable

/-! ## `get_pte` and `page_insert` on a well-shaped directory -/

section Calls
variable {s s' : Vm} {pgdir page : ℕ} {la la' perm : Word} {create : Bool} {r : Option (ℕ × ℕ)}
  {res : ℤ}

theorem GetPte.pgdirOk (hget : GetPte s pgdir la create r s') (h : s.PgdirOk pgdir)
    (hlt : ∀ p ∈ s.pmm.freePages, p < 2 ^ 20) (hv : pdx la ≠ pdx VPT) : s'.PgdirOk pgdir := by
  cases hget with
  | table | absent | exhausted => exact h
  | created p pmm hp hc ht => exact newTable_pgdirOk h hv ht (hlt p ht.one.1)

/-- Creating a page table changes no entry. -/
theorem GetPte.pteAt (hget : GetPte s pgdir la create r s') (h : s.PgdirOk pgdir)
    (hlt : ∀ p ∈ s.pmm.freePages, p < 2 ^ 20) (hv : pdx la ≠ pdx VPT) (hv' : pdx la' ≠ pdx VPT) :
    s'.pteAt pgdir la' = s.pteAt pgdir la' := by
  cases hget with
  | table | absent | exhausted => rfl
  | created p pmm hp hc ht => exact newTable_pteAt h hp hv ht.one.1 (hlt p ht.one.1) hv'

/-- The pointer that is returned is the entry of the address. -/
theorem GetPte.isTable {table i : ℕ} (hget : GetPte s pgdir la create (some (table, i)) s')
    (h : s.PgdirOk pgdir) (hlt : ∀ p ∈ s.pmm.freePages, p < 2 ^ 20) (hv : pdx la ≠ pdx VPT) :
    s'.IsTable pgdir (pdx la) table ∧ i = ptx la := by
  cases hget with
  | table hp => exact ⟨isTable_pdx hp hv, rfl⟩
  | created p pmm hp hc ht =>
    have hfree := ht.one.1
    refine ⟨?_, rfl⟩
    rw [newTable_isTable pmm h hv hfree (hlt p hfree), if_pos rfl, pagNum_or (by decide),
      pagNum_page2pa (hlt p hfree)]

theorem mapPage_writesEntry (t : Vm) (pgdir page : ℕ) (la perm : Word) (table i : ℕ) : t.WritesEntry
    (t.mapPage pgdir page la perm table i) table i (page2pa page ||| perm ||| PTE_P) :=
  t.mapPage_mem pgdir page la perm table i

theorem PageInsert.pgdirOk (hins : PageInsert s pgdir page la perm res s') (h : s.PgdirOk pgdir)
    (hlt : ∀ p ∈ s.pmm.freePages, p < 2 ^ 20) (hv : pdx la ≠ pdx VPT) : s'.PgdirOk pgdir := by
  cases hins with
  | failure => exact h
  | success hget =>
    have ht := hget.pgdirOk h hlt hv
    have htable := (hget.isTable h hlt hv).1
    refine ht.congr ((mapPage_writesEntry _ _ _ _ _ _ _).directory ht htable) fun f hf => ?_
    rw [mapPage_pmm, Pmm.setRef_freePages]
    exact ht.notFree f hf

/-- `page_insert` sets the entry of one page and changes no other. -/
theorem PageInsert.pteAt (hins : PageInsert s pgdir page la perm res s') (h : s.PgdirOk pgdir)
    (hlt : ∀ p ∈ s.pmm.freePages, p < 2 ^ 20) (hv : pdx la ≠ pdx VPT) (hv' : pdx la' ≠ pdx VPT) :
    s'.pteAt pgdir la' = if res = INSERT_SUCCESS ∧ pagNum la' = pagNum la
      then page2pa page ||| perm ||| PTE_P else s.pteAt pgdir la' := by
  cases hins with
  | failure => rw [if_neg fun hh => absurd hh.1 (by decide)]
  | success hget =>
    have ht := hget.pgdirOk h hlt hv
    obtain ⟨htable, rfl⟩ := hget.isTable h hlt hv
    rw [(mapPage_writesEntry _ _ _ _ _ _ _).pteAt ht htable hv', hget.pteAt h hlt hv hv']
    simp only [pagNum_inj, true_and]

end Calls

/-! ## `page_insert` refines a map from pages to frames and permissions -/

theorem walk_congr {s s' : Vm} {pgdir : ℕ} {la : Word} (h : s'.pteAt pgdir la = s.pteAt pgdir la) :
    s'.walk pgdir la = s.walk pgdir la := by
  rw [walk, walk, h]

/-- After a successful `page_insert` the address is mapped to the page with the permissions
that were asked for, every other page outside the self-mapping slot is mapped as before, and
the directory is still well shaped. A failed one changes nothing. -/
theorem pageInsert_refines_map {s : Vm} {ram : Set ℕ} {bs : List Extent} {pgdir : ℕ}
    (h : s.pmm.Inv ram bs) (hram : ∀ p ∈ ram, p < 2 ^ 20) (hpg : s.PgdirOk pgdir) (page : ℕ)
    {la perm : Word} (hperm : perm < 0x1000#32) (hv : pdx la ≠ pdx VPT) :
    ∃ r s', s.pageInsert pgdir page la perm = some (r, s') ∧
      (r = INSERT_SUCCESS ∨ r = INSERT_FAILURE) ∧
      (r = INSERT_SUCCESS →
        (∃ pte, s'.walk pgdir la = some pte ∧ pteAddr pte = page2pa page ∧
          pteFlags pte = perm ||| PTE_P) ∧
        (∀ la', pagNum la' ≠ pagNum la → pdx la' ≠ pdx VPT →
          s'.walk pgdir la' = s.walk pgdir la') ∧
        s'.PgdirOk pgdir) ∧
      (r = INSERT_FAILURE → s' = s) := by
  have hlt : ∀ p ∈ s.pmm.freePages, p < 2 ^ 20 := by
    rw [h.toRep.freePages_eq]
    exact fun p hp => hram p (h.inRam hp)
  obtain ⟨r, s', heq, hins⟩ := pageInsert_spec h pgdir page la perm
  refine ⟨r, s', heq, ?_, fun hr => ⟨?_, fun la' hne hv' => ?_, hins.pgdirOk hpg hlt hv⟩, ?_⟩
  · cases hins with
    | failure => exact Or.inr rfl
    | success => exact Or.inl rfl
  · have hpte := hins.pteAt hpg hlt hv hv
    rw [if_pos ⟨hr, rfl⟩, BitVec.or_assoc] at hpte
    have hpres : Present (s'.pteAt pgdir la) := by
      rw [hpte, ← BitVec.or_assoc]
      exact present_entry _
    have hflags := or_PTE_P_lt hperm
    refine ⟨s'.pteAt pgdir la, if_pos hpres, ?_, ?_⟩
    · rw [hpte, pteAddr_entry page hflags]
    · rw [hpte, pteFlags_entry page hflags]
  · apply walk_congr
    rw [hins.pteAt hpg hlt hv hv', if_neg fun hh => hne hh.2]
  · rintro rfl
    generalize hr : INSERT_FAILURE = r at hins
    cases hins with
    | failure => rfl
    | success => exact absurd hr (by decide)

/-! ### A small machine -/

/-- The directory is in frame 1. It maps itself, and the first 4 MB of physical memory at
`KERNEL_BASE` through the page table in frame 2. -/
def sampleMem (frame i : ℕ) : Word :=
  if frame = 1 then
    if i = pdx KERNEL_BASE then page2pa 2 ||| PTE_USER
    else if i = pdx VPT then page2pa 1 ||| PTE_P ||| PTE_W
    else 0#32
  else if frame = 2 then page2pa i ||| PTE_P ||| PTE_W
  else 0#32

/-- A machine with `n` free frames, from frame 4 on, and a disk of `size` sectors that always
answers. -/
def sample (n : ℕ) (size : Word) : Vm where
  pmm := Pmm.blank.init.initMemmap 4 n
  mem := sampleMem
  cr3 := page2pa 1
  tlb := fun _ => none
  ide :=
    { devices := fun _ => ⟨0#8, 0x1F0#16, size, true⟩
      status := fun _ _ => IDE_DRDY ||| IDE_DRQ
      polls := 0
      regs := fun _ => ⟨0#8, 0#8, 0#8, 0#8, 0#8⟩
      commands := []
      sector := fun _ _ _ _ => 0#32 }
  blockDevices := [⟨BLK_TYPE_DISK, size, 0⟩]
  swapDevice := none
  maxSwapOffset := 0#32
  swapOffset := 1#32

section Sample
variable {n : ℕ} (hn : 1 ≤ n) (size : Word)
include hn

theorem sample_inv : (sample n size).pmm.Inv (Set.Ico 4 (4 + n)) [⟨4, n⟩] := by
  have h := (Pmm.initMemmap_spec Pmm.blank.init_inv hn (Set.disjoint_empty (Set.Ico 4 (4 + n)))).inv
  rwa [Set.empty_union] at h

theorem sample_freePages : (sample n size).pmm.freePages = Set.Ico 4 (4 + n) := by
  rw [(sample_inv hn size).toRep.freePages_eq, Extents.cover_cons, Extents.cover_nil,
    Set.union_empty]
  rfl

omit hn in
theorem sample_isTable {i f : ℕ} (h : (sample n size).IsTable 1 i f) : i = 768 ∧ f = 2 := by
  obtain ⟨-, hv, hp, rfl⟩ := h
  have hi : i = 768 := by
    by_contra hne
    have hz : sampleMem 1 i = 0#32 := by
      have hk : pdx KERNEL_BASE = 768 := by decide
      rw [sampleMem, if_pos rfl, if_neg (by omega), if_neg hv]
    exact not_present_zero (hz ▸ hp)
  subst hi
  have hpde : pagNum (sampleMem 1 768) = 2 := by decide
  exact ⟨rfl, hpde⟩

theorem sample_pgdirOk : (sample n size).PgdirOk 1 := by
  refine ⟨fun i f hi => ?_, fun i j f hi hj => ?_, ?_⟩
  · rw [(sample_isTable size hi).2]
    decide
  · rw [(sample_isTable size hi).1, (sample_isTable size hj).1]
  · rw [sample_freePages hn]
    rintro f (rfl | ⟨i, hi⟩) hf
    · rw [Set.mem_Ico] at hf
      omega
    · rw [(sample_isTable size hi).2, Set.mem_Ico] at hf
      omega

end Sample

/-- Page 5 is mapped at 4 MB; a page table is allocated on the way. -/
theorem pageInsert_sample : ∃ s', (sample 8 0#32).pageInsert 1 5 0x400000#32 PTE_W =
    some (INSERT_SUCCESS, s') ∧
    ∃ pte, s'.walk 1 0x400000#32 = some pte ∧ pteAddr pte = 0x5000#32 := by
  have hram : ∀ p ∈ Set.Ico 4 (4 + 8), p < 2 ^ 20 := by
    intro p hp
    rw [Set.mem_Ico] at hp
    omega
  have hperm : PTE_W < 0x1000#32 := by decide
  have hv : pdx 0x400000#32 ≠ pdx VPT := by decide
  obtain ⟨r, s', heq, -, hok, -⟩ := pageInsert_refines_map (sample_inv (by decide) 0#32) hram
    (sample_pgdirOk (by decide) 0#32) 5 hperm hv
  have hr : r = INSERT_SUCCESS :=
    congrArg (fun x => (x.getD (0, s')).1) (heq.symm.trans rfl)
  subst hr
  obtain ⟨pte, hw, ha, -⟩ := (hok rfl).1
  exact ⟨s', heq, pte, hw, ha⟩

end Vm
end Zonix
