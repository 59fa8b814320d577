import Zonix.Mm.DirectMap
import Zonix.Mm.Descriptors

/-!
# Building the direct map: `vmm_init` of `kern/mm/vmm.c`

Until `vmm_init` returns, only the 4 MB that `head.S` maps can be reached. `pgdir_init` makes the
page tables for the rest, and clears each of them through the direct map that it is building. The
functions `…Mmu` are those of before with every access to a frame translated by the tables in use.
They come to their end if and only if each new page table lies in memory that is mapped by then,
and in that case they do what the plain ones do.

The translation does not go through the TLB, which holds no entry that is not present; and no
present entry changes.
-/

namespace Zonix
open Lib

namespace Vm

/-! ## `vmm_init` -/

/-- `vmm_init()`, with `__boot_pgdir` in the frame `bootPgdir`. -/
def vmmInit (s : Vm) (bootPgdir : ℕ) : Option Vm :=
  let s := s.setWord bootPgdir (pdx VPT) (page2pa bootPgdir ||| PTE_P ||| PTE_W)
  s.pgdirInit bootPgdir KERNEL_BASE KERNEL_MEM_SIZE 0#32 PTE_W

/-! ### Through the page tables -/

/-- The frame that the MMU leads to at `K_ADDR(page2pa(frame))`. -/
def kAddr (s : Vm) (frame : ℕ) : Option ℕ := (s.walk (pagNum s.cr3) (page2kva frame)).map pagNum

/-- `get_pte(pgdir, la, create)` -/
def getPteMmu (s : Vm) (pgdir : ℕ) (la : Word) (create : Bool) :
    Option (Option (ℕ × ℕ) × Vm) := do
  let dir ← s.kAddr pgdir
  if Present (s.mem dir (pdx la)) then
    some (some (pagNum (pteAddr (s.mem dir (pdx la))), ptx la), s)
  else if !create then some (none, s)
  else
    match ← s.allocPages 1 with
    | (none, s) => some (none, s)
    | (some page, s) =>
      let s := s.setPmm (s.pmm.setRef page PAGE_REF_INIT)
      let pa := page2pa page
      let table ← s.kAddr (pagNum pa)
      let s := s.setFrame table fun _ => 0#32
      let dir ← s.kAddr pgdir
      let s := s.setWord dir (pdx la) (pa ||| PTE_USER)
      let dir ← s.kAddr pgdir
      some (some (pagNum (pteAddr (s.mem dir (pdx la))), ptx la), s)

/-- `*ptep = v` -/
def storePteMmu (s : Vm) (ptep : Option (ℕ × ℕ)) (v : Word) : Option Vm :=
  match ptep with
  | some (table, i) => do
    let table ← s.kAddr table
    some (s.setWord table i v)
  | none => s.storePte none v

/-- The loop of `pgdir_init`, with `n` pages to go. -/
def pgdirInitLoopMmu (pgdir : ℕ) (perm : Word) : ℕ → Word → Word → Vm → Option Vm
  | 0, _, _, s => some s
  | n + 1, la, pa, s => do
    let (ptep, s) ← s.getPteMmu pgdir la true
    let s ← s.storePteMmu ptep (pa ||| PTE_P ||| perm)
    pgdirInitLoopMmu pgdir perm n (la + BitVec.ofNat 32 PG_SIZE) (pa + BitVec.ofNat 32 PG_SIZE) s

/-- `pgdir_init(pgdir, la, size, pa, perm)` -/
def pgdirInitMmu (s : Vm) (pgdir : ℕ) (la size pa perm : Word) : Option Vm :=
  let n := (roundUp size).toNat / PG_SIZE
  pgdirInitLoopMmu pgdir perm n (roundDown la) (roundDown pa) s

/-- `vmm_init()` -/
def vmmInitMmu (s : Vm) (bootPgdir : ℕ) : Option Vm := do
  let dir ← s.kAddr bootPgdir
  let s := s.setWord dir (pdx VPT) (page2pa bootPgdir ||| PTE_P ||| PTE_W)
  s.pgdirInitMmu bootPgdir KERNEL_BASE KERNEL_MEM_SIZE 0#32 PTE_W

/-! ## The window at `KERNEL_BASE` -/

/-- The pages that `vmm_init` maps. -/
def windowPages : ℕ := 0x38000

section Window
variable {f k : ℕ} (hf : f < windowPages)

theorem page2pa_succ (k : ℕ) : page2pa (k + 1) = page2pa k + BitVec.ofNat 32 PG_SIZE := by
  apply BitVec.eq_of_toNat_eq
  simp only [page2pa, PG_SHIFT, PG_SIZE, BitVec.toNat_add, BitVec.toNat_shiftLeft,
    BitVec.toNat_ofNat, Nat.shiftLeft_eq]
  omega

theorem page2kva_succ (k : ℕ) : page2kva (k + 1) = page2kva k + BitVec.ofNat 32 PG_SIZE := by
  rw [page2kva, page2kva, page2pa_succ, BitVec.add_assoc]

include hf

theorem pagNum_page2kva : pagNum (page2kva f) = 0xC0000 + f := by
  have hf' : f < 0x38000 := hf
  have hbase : KERNEL_BASE.toNat = 0xC0000000 := by decide
  rw [pagNum_eq, page2kva, BitVec.toNat_add, hbase, page2pa_toNat (by omega)]
  omega

theorem pdx_page2kva : pdx (page2kva f) = 768 + f / 1024 := by
  have hpage := pagNum_page2kva hf
  rw [pagNum_eq] at hpage
  rw [pdx_eq]
  omega

theorem ptx_page2kva : ptx (page2kva f) = f % 1024 := by
  have hpage := pagNum_page2kva hf
  rw [pagNum_eq] at hpage
  rw [ptx_eq]
  omega

/-- The window ends below the self-mapping slot. -/
theorem pdx_page2kva_ne : pdx (page2kva f) ≠ pdx VPT := by
  have hf' : f < 0x38000 := hf
  rw [pdx_page2kva hf, pdx_vpt]
  omega

end Window

/-! ## One page off the free list -/

section Alloc
variable {s : Pmm} {ram : Set ℕ} {bs : List Extent}

theorem alloc_inOrder_nil (h : s.Inv ram bs) (hbs : Extents.inOrder bs = []) :
    s.alloc 1 = some (none, s) := by
  rcases h.alloc_cases le_rfl with ⟨heq, -⟩ | ⟨page, s', heq, ht⟩
  · exact heq
  · have hmem := ht.one.1
    rw [h.toRep.freePages_eq, ← Extents.mem_inOrder, hbs] at hmem
    exact absurd hmem List.not_mem_nil

/-- Single pages are handed out in the order of the list. -/
theorem alloc_inOrder_cons (h : s.Inv ram bs) {f : ℕ} {fs : List ℕ}
    (hbs : Extents.inOrder bs = f :: fs) : ∃ s' bs', s.alloc 1 = some (some f, s') ∧
      s.Takes 1 f s' ∧ s'.Inv ram bs' ∧ Extents.inOrder bs' = fs := by
  obtain ⟨r, s', heq, hspec⟩ := Pmm.alloc_spec h le_rfl
  have hpos := h.separate.pos
  cases bs with
  | nil => exact absurd hbs (by simp [Extents.inOrder])
  | cons e bs =>
    cases r with
    | none =>
      have hlt := (hspec.fail rfl).2 e List.mem_cons_self
      have hlen := hpos e List.mem_cons_self
      omega
    | some page =>
      obtain ⟨as, e', cs, hsplit, rfl, -, hsmall, hinv, -⟩ := hspec.success page rfl
      -- no block is too small for one page
      cases as with
      | nil =>
        obtain ⟨rfl, rfl⟩ := List.cons.inj hsplit
        rw [Extents.inOrder_rest (hpos e List.mem_cons_self)] at hbs
        obtain ⟨rfl, rfl⟩ := List.cons.inj hbs
        exact ⟨s', _, heq, h.takes_of_alloc le_rfl heq, hinv, rfl⟩
      | cons e'' as =>
        obtain ⟨rfl, -⟩ := List.cons.inj hsplit
        have hlt := hsmall e List.mem_cons_self
        have hlen := hpos e List.mem_cons_self
        omega

end Alloc

/-! ## While the map grows -/

/-- The machine once `k` pages of the window are entered; the page tables came off `free`, the pages
that were free when `vmm_init` was called, in their order. -/
structure Building (s₀ : Vm) (pgdir : ℕ) (ram : Set ℕ) (free : List ℕ) (k : ℕ) (s : Vm) :
    Prop where
  cr3 : pagNum s.cr3 = pgdir
  pgdirOk : s.PgdirOk pgdir
  self : pagNum (s.mem pgdir (pdx VPT)) = pgdir
  tables : ∀ d < PDE_NUM, d ≠ pdx VPT →
    (Present (s.mem pgdir d) ↔ 768 ≤ d ∧ (d - 768) * 1024 < max k 1)
  entries : ∀ f < windowPages, s.pteAt pgdir (page2kva f) =
    if f < max k 1024 then page2pa f ||| PTE_P ||| PTE_W else 0#32
  reach : ∀ f ∈ s.paging pgdir, f < max k 1024
  inv : ∃ bs, s.pmm.Inv ram bs ∧ Extents.inOrder bs = free.drop ((k - 1) / 1024)
  ref : ∀ p ∈ s.pmm.freePages, (s.pmm.page p).ref = (s₀.pmm.page p).ref
  ide : s.ide = s₀.ide
  blockDevices : s.blockDevices = s₀.blockDevices

/-- Page `k` of the window is the first one of a page table that is not there yet. -/
def NewTable (k : ℕ) : Prop := k % 1024 = 0 ∧ k ≠ 0

section Building
variable {s₀ s t u : Vm} {pgdir k f : ℕ} {ram : Set ℕ} {free : List ℕ} {la : Word}

/-- A frame that holds no page table can be filled. -/
theorem pteAt_setFrame {content : ℕ → Word} (hf : f ∉ s.paging pgdir) (hv : pdx la ≠ pdx VPT) :
    (s.setFrame f content).pteAt pgdir la = s.pteAt pgdir la := by
  have hdir : (s.setFrame f content).mem pgdir (pdx la) = s.mem pgdir (pdx la) := by
    rw [setFrame_mem, if_neg fun hh => hf (Or.inl hh.symm)]
  by_cases hp : Present (s.mem pgdir (pdx la))
  · rw [pteAt, pteAt, hdir, if_pos hp, if_pos hp, setFrame_mem, if_neg]
    rintro rfl
    exact hf (Or.inr ⟨_, isTable_pdx hp hv⟩)
  · rw [pteAt_of_not_present hp, pteAt_of_not_present (hdir ▸ hp)]

namespace Building

/-- What the MMU makes of a frame, also while a page table is being made. -/
theorem kAddr_of (h : Building s₀ pgdir ram free k s) (hcr3 : t.cr3 = s.cr3)
    (hpte : ∀ la, pdx la ≠ pdx VPT → t.pteAt pgdir la = s.pteAt pgdir la) (hf : f < windowPages) :
    t.kAddr f = if f < max k 1024 then some f else none := by
  have hf' : f < 0x38000 := hf
  have hflags : PTE_P ||| PTE_W < 0x1000#32 := by decide
  rw [kAddr, walk, hcr3, h.cr3, hpte _ (pdx_page2kva_ne hf), h.entries f hf]
  split_ifs with hlt hp hp
  · rw [Option.map_some, BitVec.or_assoc, pagNum_or hflags, pagNum_page2pa (by omega)]
  · refine absurd ?_ hp
    exact (present_or _ _).mpr (Or.inl ((present_or _ _).mpr (Or.inr (by decide))))
  · exact absurd hp not_present_zero
  · rfl

theorem kAddr (h : Building s₀ pgdir ram free k s) (hf : f < windowPages) :
    s.kAddr f = if f < max k 1024 then some f else none :=
  h.kAddr_of rfl (fun _ _ => rfl) hf

/-- The directory and its page tables can be reached. -/
theorem kAddr_paging (h : Building s₀ pgdir ram free k s) (hk : k < windowPages)
    (hf : f ∈ s.paging pgdir) (hcr3 : t.cr3 = s.cr3)
    (hpte : ∀ la, pdx la ≠ pdx VPT → t.pteAt pgdir la = s.pteAt pgdir la) :
    t.kAddr f = some f := by
  have hk' : k < 0x38000 := hk
  have hlt := h.reach f hf
  have hwin : f < 0x38000 := by omega
  rw [h.kAddr_of hcr3 hpte hwin, if_pos hlt]

theorem present_iff (h : Building s₀ pgdir ram free k s) (hk : k < windowPages) :
    Present (s.mem pgdir (pdx (page2kva k))) ↔ ¬ NewTable k := by
  rw [h.tables _ (pdx_lt _) (pdx_page2kva_ne hk), pdx_page2kva hk, NewTable]
  omega

/-- An entry that `get_pte` returned is the one of page `k`. -/
theorem next (h : Building s₀ pgdir ram free k s) (hlow : ∀ p ∈ ram, p < windowPages)
    (hk : k < windowPages) {table i : ℕ}
    (hget : GetPte s pgdir (page2kva k) true (some (table, i)) u)
    (hpage : ∀ f ∈ u.paging pgdir, f < max k 1024)
    (hinv : ∃ bs, u.pmm.Inv ram bs ∧ Extents.inOrder bs = free.drop (k / 1024)) :
    Building s₀ pgdir ram free (k + 1)
      (u.setWord table i (page2pa k ||| PTE_P ||| PTE_W)) := by
  have hk' : k < 0x38000 := hk
  have hv := pdx_page2kva_ne hk
  obtain ⟨bs, hbs, -⟩ := h.inv
  have hlow' : ∀ p ∈ ram, p < 2 ^ 20 := fun p hp => (hlow p hp).trans (by decide)
  have hfreeLow : ∀ p ∈ s.pmm.freePages, p < 2 ^ 20 := fun p hp => hlow' p (hbs.mem_ram hp)
  have hmaps := hget.mapsOne hbs hlow' h.pgdirOk hv (page2pa k ||| PTE_P ||| PTE_W)
  obtain ⟨htable, rfl⟩ := hget.isTable h.pgdirOk hfreeLow hv
  have hu := hget.pgdirOk h.pgdirOk hfreeLow hv
  have hw : WritesEntry u (u.setWord table (ptx (page2kva k)) (page2pa k ||| PTE_P ||| PTE_W))
      table (ptx (page2kva k)) (page2pa k ||| PTE_P ||| PTE_W) := u.setWord_mem _ _ _
  have hdir := hw.directory hu htable
  constructor
  · rw [← h.cr3]
    cases hget <;> rfl
  · exact hmaps.pgdirOk
  · rw [hdir]
    generalize hr : some (table, ptx (page2kva k)) = r at hget
    cases hget with
    | table => exact h.self
    | absent | exhausted => exact absurd hr (by simp)
    | created page pmm hp hc ht =>
      have hfree := ht.one.1
      rw [newTable_directory _ pmm h.pgdirOk hfree (hfreeLow page hfree), if_neg hv.symm, h.self]
  · intro d hd hvd
    rw [hmaps.pde, h.tables d hd hvd, pdx_page2kva hk]
    omega
  · intro f hf
    rw [hmaps.pteAt _ (pdx_page2kva_ne hf), pagNum_page2kva hf, pagNum_page2kva hk, h.entries f hf]
    by_cases hfk : f = k
    · rw [if_pos (by omega), if_pos (by omega), hfk]
    · rw [if_neg (by omega)]
      by_cases hlt : f < max k 1024
      · rw [if_pos hlt, if_pos (by omega)]
      · rw [if_neg hlt, if_neg (by omega)]
  · intro f hf
    rw [paging_congr hdir] at hf
    have hlt := hpage f hf
    omega
  · obtain ⟨bs', hbs', horder⟩ := hinv
    exact ⟨bs', hbs', horder⟩
  · intro p hp
    generalize hr : some (table, ptx (page2kva k)) = r at hget
    cases hget with
    | table => exact h.ref p hp
    | absent | exhausted => exact absurd hr (by simp)
    | created page pmm hnp hc ht =>
      rw [setWord_pmm, newTable_pmm, Pmm.setRef_freePages, ht.one.2] at hp
      rw [setWord_pmm, newTable_pmm, Pmm.setRef_ref, if_neg (by simpa using hp.2), ht.ref]
      exact h.ref p hp.1
  · rw [← h.ide]
    cases hget <;> rfl
  · rw [← h.blockDevices]
    cases hget <;> rfl

/-- A missing page table is made, and cleared through the map. -/
theorem getPteMmu_created (h : Building s₀ pgdir ram free k s) (hk : k < windowPages)
    (hn : NewTable k) {pmm : Pmm} (halloc : s.pmm.alloc 1 = some (some f, pmm))
    (hfree : f ∈ s.pmm.freePages) (hfk : f < k) :
    s.getPteMmu pgdir (page2kva k) true = some
      (some (pagNum (page2pa f ||| PTE_USER), ptx (page2kva k)),
        s.newTable pgdir (page2kva k) f pmm) := by
  have hk' : k < 0x38000 := hk
  have hflow : f < 2 ^ 20 := by omega
  have hp : ¬ Present (s.mem pgdir (pdx (page2kva k))) := fun hp => (h.present_iff hk).mp hp hn
  have hfp : f ∉ s.paging pgdir := fun hh => h.pgdirOk.notFree f hh hfree
  -- the accesses to the directory, and the one to the new page table
  have hdir := h.kAddr_paging hk (Or.inl rfl) rfl fun _ _ => rfl
  have hclear : ((s.setPmm pmm).setPmm (pmm.setRef f PAGE_REF_INIT)).kAddr (pagNum (page2pa f)) =
      some (pagNum (page2pa f)) := by
    rw [pagNum_page2pa hflow]
    exact (h.kAddr_of rfl (fun _ _ => rfl) (hfk.trans hk)).trans (if_pos (by omega))
  have hdir' : (((s.setPmm pmm).setPmm (pmm.setRef f PAGE_REF_INIT)).setFrame (pagNum (page2pa f))
      fun _ => 0#32).kAddr pgdir = some pgdir := by
    rw [pagNum_page2pa hflow]
    exact h.kAddr_paging hk (Or.inl rfl) rfl fun la hla => pteAt_setFrame hfp hla
  have hdir'' : (s.newTable pgdir (page2kva k) f pmm).kAddr pgdir = some pgdir :=
    h.kAddr_paging hk (Or.inl rfl) rfl fun la hla =>
      newTable_pteAt h.pgdirOk hp (pdx_page2kva_ne hk) hfree hflow hla
  have hentry : pteAddr ((s.newTable pgdir (page2kva k) f pmm).mem pgdir (pdx (page2kva k))) =
      pteAddr (page2pa f ||| PTE_USER) := by
    rw [newTable_mem, if_pos ⟨rfl, rfl⟩]
  rw [getPteMmu, hdir, Option.bind_eq_bind, Option.bind_some, if_neg hp, Bool.not_true,
    if_neg Bool.false_ne_true, allocPages, halloc]
  simp only [Option.bind_eq_bind, Option.bind_some, setPmm_pmm, hclear, hdir']
  show ((s.newTable pgdir (page2kva k) f pmm).kAddr pgdir).bind (fun dir => some
    (some (pagNum (pteAddr ((s.newTable pgdir (page2kva k) f pmm).mem dir (pdx (page2kva k)))),
      ptx (page2kva k)), s.newTable pgdir (page2kva k) f pmm)) = _
  rw [hdir'', Option.bind_some, hentry, pagNum_pteAddr]

theorem getPte_created (hp : ¬ Present (s.mem pgdir (pdx la))) {pmm : Pmm}
    (halloc : s.pmm.alloc 1 = some (some f, pmm)) :
    s.getPte pgdir la true =
      some (some (pagNum (page2pa f ||| PTE_USER), ptx la), s.newTable pgdir la f pmm) := by
  rw [getPte, if_neg hp]
  simp [allocPages, halloc, setPmm, newTable, setWord_mem]

/-- One iteration does the same through the page tables, if a new page table can be reached. -/
theorem iteration (h : Building s₀ pgdir ram free k s) (hlow : ∀ p ∈ ram, p < windowPages)
    (hk : k < windowPages) (hnew : NewTable k → ∃ f, free[k / 1024 - 1]? = some f ∧ f < k) :
    ∃ ptep u t, s.getPteMmu pgdir (page2kva k) true = some (ptep, u) ∧
      s.getPte pgdir (page2kva k) true = some (ptep, u) ∧
      u.storePteMmu ptep (page2pa k ||| PTE_P ||| PTE_W) = some t ∧
      u.storePte ptep (page2pa k ||| PTE_P ||| PTE_W) = some t ∧
      Building s₀ pgdir ram free (k + 1) t := by
  have hk' : k < 0x38000 := hk
  have hv := pdx_page2kva_ne hk
  obtain ⟨bs, hbs, horder⟩ := h.inv
  by_cases hn : NewTable k
  · obtain ⟨f, hf, hfk⟩ := hnew hn
    have hn' : k % 1024 = 0 ∧ k ≠ 0 := hn
    have hdrop : free.drop ((k - 1) / 1024) = f :: free.drop (k / 1024) := by
      obtain ⟨hlt, rfl⟩ := List.getElem?_eq_some_iff.mp hf
      rw [show (k - 1) / 1024 = k / 1024 - 1 by omega, List.drop_eq_getElem_cons hlt,
        show k / 1024 - 1 + 1 = k / 1024 by omega]
    rw [hdrop] at horder
    obtain ⟨pmm, bs', halloc, ht, hbs', horder'⟩ := alloc_inOrder_cons hbs horder
    have hp : ¬ Present (s.mem pgdir (pdx (page2kva k))) := fun hp => (h.present_iff hk).mp hp hn
    have hfree := ht.one.1
    have hflow : f < 2 ^ 20 := by omega
    have htable : pagNum (page2pa f ||| PTE_USER) = f := by
      rw [pagNum_or (by decide), pagNum_page2pa hflow]
    have hpaging : ∀ f' ∈ (s.newTable pgdir (page2kva k) f pmm).paging pgdir,
        f' = f ∨ f' ∈ s.paging pgdir := by
      rintro f' (rfl | ⟨i, hi⟩)
      · exact Or.inr (Or.inl rfl)
      · rw [newTable_isTable pmm h.pgdirOk hv hfree hflow] at hi
        split_ifs at hi
        · exact Or.inl hi
        · exact Or.inr (Or.inr ⟨i, hi⟩)
    refine ⟨_, _, _, h.getPteMmu_created hk hn halloc hfree hfk, getPte_created hp halloc, ?_, rfl,
      h.next hlow hk (.created f pmm hp rfl ht) (fun f' hf' => ?_)
        ⟨bs', hbs'.setRef f _, horder'⟩⟩
    · have hpte : ∀ la, pdx la ≠ pdx VPT →
          (s.newTable pgdir (page2kva k) f pmm).pteAt pgdir la = s.pteAt pgdir la :=
        fun la hla => newTable_pteAt h.pgdirOk hp hv hfree hflow hla
      have hreach : (s.newTable pgdir (page2kva k) f pmm).kAddr f = some f :=
        (h.kAddr_of (t := s.newTable pgdir (page2kva k) f pmm) rfl hpte (hfk.trans hk)).trans
          (if_pos (by omega))
      rw [storePteMmu, htable, hreach]
      rfl
    · rcases hpaging f' hf' with rfl | hf'
      · omega
      · exact h.reach f' hf'
  · have hp := (h.present_iff hk).mpr hn
    have hdir := h.kAddr_paging hk (Or.inl rfl) rfl fun _ _ => rfl
    have hreach := h.kAddr_paging hk (Or.inr ⟨_, isTable_pdx hp hv⟩) rfl fun _ _ => rfl
    have hn' : ¬ (k % 1024 = 0 ∧ k ≠ 0) := hn
    refine ⟨some (pagNum (s.mem pgdir (pdx (page2kva k))), ptx (page2kva k)), s, _, ?_, ?_, ?_, rfl,
      h.next hlow hk (.table hp) h.reach ⟨bs, hbs, ?_⟩⟩
    · rw [getPteMmu, hdir, Option.bind_eq_bind, Option.bind_some, if_pos hp, pagNum_pteAddr]
    · rw [getPte, if_pos hp, pagNum_pteAddr]
    · rw [storePteMmu, hreach]
      rfl
    · rw [horder, show (k - 1) / 1024 = k / 1024 by omega]

/-- Without a new page table that can be reached, the iteration does not come to its end. -/
theorem iteration_stuck (h : Building s₀ pgdir ram free k s) (hlow : ∀ p ∈ ram, p < windowPages)
    (hk : k < windowPages) (hn : NewTable k) (hno : ∀ f, free[k / 1024 - 1]? = some f → k ≤ f)
    {x : Option (ℕ × ℕ) × Vm} (hget : s.getPteMmu pgdir (page2kva k) true = some x) (v : Word) :
    x.2.storePteMmu x.1 v = none := by
  have hk' : k < 0x38000 := hk
  have hn' : k % 1024 = 0 ∧ k ≠ 0 := hn
  have hdir := h.kAddr_paging hk (Or.inl rfl) rfl fun _ _ => rfl
  have hp : ¬ Present (s.mem pgdir (pdx (page2kva k))) := fun hp => (h.present_iff hk).mp hp hn
  obtain ⟨bs, hbs, horder⟩ := h.inv
  rw [show (k - 1) / 1024 = k / 1024 - 1 by omega] at horder
  rw [getPteMmu, hdir, Option.bind_eq_bind, Option.bind_some, if_neg hp, Bool.not_true,
    if_neg Bool.false_ne_true] at hget
  cases hdrop : free.drop (k / 1024 - 1) with
  | nil =>
    -- `get_pte` returns a null pointer, and address 0 is not mapped
    rw [allocPages, alloc_inOrder_nil hbs (horder.trans hdrop)] at hget
    obtain rfl := Option.some.inj hget
    have hzero : ¬ Present (s.mem pgdir (pdx 0#32)) := by
      rw [h.tables _ (by decide) (by decide)]
      exact fun hh => absurd hh.1 (by decide)
    have hwalk : (s.setPmm s.pmm).walk (pagNum s.cr3) 0#32 = none := by
      rw [h.cr3]
      exact if_neg fun hh => not_present_zero (pteAt_of_not_present hzero ▸ hh)
    rw [storePteMmu, storePte]
    show ((s.setPmm s.pmm).walk (pagNum s.cr3) 0#32).bind _ = none
    rw [hwalk, Option.bind_none]
  | cons f fs =>
    obtain ⟨pmm, bs', halloc, ht, -, -⟩ := alloc_inOrder_cons hbs (horder.trans hdrop)
    have hf : free[k / 1024 - 1]? = some f := by
      rw [← List.head?_drop, hdrop, List.head?_cons]
    have hkf := hno f hf
    have hfwin : f < windowPages := hlow f (hbs.mem_ram ht.one.1)
    have hflow : f < 2 ^ 20 := hfwin.trans (by decide)
    have hclear : ((s.setPmm pmm).setPmm (pmm.setRef f PAGE_REF_INIT)).kAddr (pagNum (page2pa f)) =
        none := by
      rw [pagNum_page2pa hflow]
      exact (h.kAddr_of rfl (fun _ _ => rfl) hfwin).trans (if_neg (by omega))
    rw [allocPages, halloc] at hget
    simp only [Option.bind_eq_bind, Option.bind_some, setPmm_pmm, hclear, Option.bind_none] at hget
    exact absurd hget (by simp)

end Building

/-! ### The loop -/

/-- Each page table that is made for the pages from `k` to `n` lies in memory that is mapped by
then. -/
def Reaches (free : List ℕ) (k n : ℕ) : Prop :=
  ∀ d, 1 ≤ d → k ≤ 1024 * d → 1024 * d < n → ∃ f, free[d - 1]? = some f ∧ f < 1024 * d

/-- The pages from `k` on: page `k`, and the others. -/
theorem reaches_succ {n : ℕ} : Reaches free k (k + (n + 1)) ↔
    (NewTable k → ∃ f, free[k / 1024 - 1]? = some f ∧ f < k) ∧
      Reaches free (k + 1) (k + 1 + n) := by
  constructor
  · refine fun h => ⟨fun hn => ?_, fun d hd hlo hhi => h d hd (by omega) (by omega)⟩
    have hn' : k % 1024 = 0 ∧ k ≠ 0 := hn
    obtain ⟨f, hf, hlt⟩ := h (k / 1024) (by omega) (by omega) (by omega)
    exact ⟨f, hf, by omega⟩
  · rintro ⟨hfirst, hrest⟩ d hd hlo hhi
    by_cases hkd : k = 1024 * d
    · obtain ⟨f, hf, hlt⟩ := hfirst ⟨by omega, by omega⟩
      rw [show k / 1024 = d by omega] at hf
      exact ⟨f, hf, by omega⟩
    · exact hrest d hd (by omega) (by omega)

/-- The loop through the page tables comes to its end if and only if every new page table can be
reached, and then it does what the plain loop does. -/
theorem pgdirInitLoopMmu_spec {n : ℕ} (h : Building s₀ pgdir ram free k s)
    (hlow : ∀ p ∈ ram, p < windowPages) (hkn : k + n ≤ windowPages) :
    ((pgdirInitLoopMmu pgdir PTE_W n (page2kva k) (page2pa k) s).isSome ↔
      Reaches free k (k + n)) ∧
    ∀ t, pgdirInitLoopMmu pgdir PTE_W n (page2kva k) (page2pa k) s = some t →
      pgdirInitLoop pgdir PTE_W n (page2kva k) (page2pa k) s = some t ∧
        Building s₀ pgdir ram free (k + n) t := by
  induction n generalizing k s with
  | zero =>
    refine ⟨iff_of_true rfl fun d _ hlo hhi => absurd hhi (by omega), fun t ht => ?_⟩
    exact ⟨ht, Option.some.inj ht ▸ h⟩
  | succ n ih =>
    have hk : k < windowPages := by omega
    rw [reaches_succ, pgdirInitLoopMmu, pgdirInitLoop]
    by_cases hnew : NewTable k → ∃ f, free[k / 1024 - 1]? = some f ∧ f < k
    · obtain ⟨ptep, u, t, hgetMmu, hget, hstoreMmu, hstore, ht⟩ := h.iteration hlow hk hnew
      rw [and_iff_right hnew, hgetMmu, hget]
      simp only [Option.bind_eq_bind, Option.bind_some, hstoreMmu, hstore]
      rw [← page2kva_succ, ← page2pa_succ, show k + (n + 1) = k + 1 + n by omega]
      exact ih ht (by omega)
    · obtain ⟨hn, hno⟩ := Classical.not_imp.mp hnew
      have hno' : ∀ f, free[k / 1024 - 1]? = some f → k ≤ f := fun f hf => by
        by_contra hlt
        exact hno ⟨f, hf, by omega⟩
      have hnone : (s.getPteMmu pgdir (page2kva k) true).bind (fun x =>
          (x.2.storePteMmu x.1 (page2pa k ||| PTE_P ||| PTE_W)).bind fun s =>
            pgdirInitLoopMmu pgdir PTE_W n (page2kva k + BitVec.ofNat 32 PG_SIZE)
              (page2pa k + BitVec.ofNat 32 PG_SIZE) s) = none := by
        cases hget : s.getPteMmu pgdir (page2kva k) true with
        | none => rfl
        | some x => rw [Option.bind_some, h.iteration_stuck hlow hk hn hno' hget, Option.bind_none]
      have hloop : (do
          let (ptep, s) ← s.getPteMmu pgdir (page2kva k) true
          let s ← s.storePteMmu ptep (page2pa k ||| PTE_P ||| PTE_W)
          pgdirInitLoopMmu pgdir PTE_W n (page2kva k + BitVec.ofNat 32 PG_SIZE)
            (page2pa k + BitVec.ofNat 32 PG_SIZE) s) = none := hnone
      rw [hloop]
      exact ⟨iff_of_false Bool.false_ne_true fun hh => hnew hh.1, fun t ht => absurd ht (by simp)⟩

end Building

/-! ## From `head.S` -/

/-- Memory as `head.S` leaves it, with `__boot_pgdir` in the frame `bootPgdir` and `__boot_pt1`
behind it, in the first 4 MB. -/
structure HeadMem (s : Vm) (bootPgdir : ℕ) : Prop where
  pgdir : ∀ i < PDE_NUM, s.mem bootPgdir i = PageInit.bootPgdir (bootPgdir + 1) i
  pt1 : ∀ i < PTE_NUM, s.mem (bootPgdir + 1) i = PageInit.bootPt1 i
  cr3 : s.cr3 = page2pa bootPgdir
  low : bootPgdir + 1 < 1024

section HeadMem
variable {s t : Vm} {bootPgdir : ℕ} {ram : Set ℕ} {bs : List Extent}

theorem HeadMem.congr (h : HeadMem s bootPgdir) (hmem : t.mem = s.mem) (hcr3 : t.cr3 = s.cr3) :
    HeadMem t bootPgdir :=
  ⟨hmem ▸ h.pgdir, hmem ▸ h.pt1, hcr3 ▸ h.cr3, h.low⟩

/-- The directory with its self-mapping slot. -/
def selfMapped (s : Vm) (bootPgdir : ℕ) : Vm :=
  s.setWord bootPgdir (pdx VPT) (page2pa bootPgdir ||| PTE_P ||| PTE_W)

/-- `head.S` adds the flags of its entries. -/
theorem page2pa_add (p : ℕ) {flags : Word} (hf : flags < 0x1000#32) :
    page2pa p + flags = page2pa p ||| flags := by
  refine BitVec.add_eq_or_of_and_eq_zero _ _ (BitVec.eq_of_getLsbD_eq fun i hi => ?_)
  rw [BitVec.getLsbD_and, BitVec.getLsbD_zero]
  by_cases h12 : i < 12
  · rw [page2pa_getLsbD h12, Bool.false_and]
  · rw [getLsbD_of_flags hf (by omega), Bool.and_false]

theorem bootPt1_eq {i : ℕ} (hi : i < 1024) :
    PageInit.bootPt1 i = page2pa i ||| PTE_P ||| PTE_W := by
  have hpa : BitVec.ofNat 32 (i * PG_SIZE) = page2pa i := by
    apply BitVec.eq_of_toNat_eq
    rw [page2pa_toNat (by omega), BitVec.toNat_ofNat, PG_SIZE]
    omega
  rw [PageInit.bootPt1, hpa, page2pa_add i (by decide), BitVec.or_assoc]

theorem HeadMem.mem_pgdir (h : HeadMem s bootPgdir) {d : ℕ} (hd : d < PDE_NUM)
    (hv : d ≠ pdx VPT) : (s.selfMapped bootPgdir).mem bootPgdir d =
      PageInit.bootPgdir (bootPgdir + 1) d := by
  rw [selfMapped, setWord_mem, if_neg fun hh => hv hh.2, h.pgdir d hd]

theorem HeadMem.isTable (h : HeadMem s bootPgdir) {i f : ℕ}
    (hi : (s.selfMapped bootPgdir).IsTable bootPgdir i f) : i = 768 ∧ f = bootPgdir + 1 := by
  obtain ⟨hlt, hv, hp, rfl⟩ := hi
  have hlow := h.low
  rw [h.mem_pgdir hlt hv] at hp ⊢
  obtain rfl := (PageInit.present_bootPgdir_iff i).mp hp
  have hbase : 768 = pdx KERNEL_BASE := by decide
  rw [PageInit.bootPgdir, if_pos hbase, page2pa_add _ (by decide), pagNum_or (by decide),
    pagNum_page2pa (by omega)]
  exact ⟨rfl, rfl⟩

theorem HeadMem.pgdirOk (h : HeadMem s bootPgdir)
    (hused : ∀ p ∈ s.pmm.freePages, bootPgdir + 1 < p) :
    (s.selfMapped bootPgdir).PgdirOk bootPgdir := by
  refine ⟨fun i f hi => ?_, fun i j f hi hj => ?_, ?_⟩
  · rw [(h.isTable hi).2]
    omega
  · rw [(h.isTable hi).1, (h.isTable hj).1]
  · rintro f (rfl | ⟨i, hi⟩) hf
    · have hlt := hused f hf
      omega
    · have hlt := hused f hf
      rw [(h.isTable hi).2] at hlt
      omega

/-- The entries of the window are those of `__boot_pt1`. -/
theorem HeadMem.entries (h : HeadMem s bootPgdir) {f : ℕ} (hf : f < windowPages) :
    (s.selfMapped bootPgdir).pteAt bootPgdir (page2kva f) =
      if f < 1024 then page2pa f ||| PTE_P ||| PTE_W else 0#32 := by
  have hdir := h.mem_pgdir (pdx_lt _) (pdx_page2kva_ne hf)
  by_cases hlt : f < 1024
  · have hp : Present ((s.selfMapped bootPgdir).mem bootPgdir (pdx (page2kva f))) := by
      rw [hdir, PageInit.present_bootPgdir_iff, pdx_page2kva hf]
      omega
    have htable := isTable_pdx hp (pdx_page2kva_ne hf)
    have hpt1 := (h.isTable htable).2
    rw [if_pos hlt, pteAt_of_isTable htable, hpt1, selfMapped, setWord_mem,
      if_neg fun hh => absurd hh.1 (by omega), ptx_page2kva hf, Nat.mod_eq_of_lt hlt,
      h.pt1 f hlt, bootPt1_eq hlt]
  · have hp : ¬ Present ((s.selfMapped bootPgdir).mem bootPgdir (pdx (page2kva f))) := by
      rw [hdir, PageInit.present_bootPgdir_iff, pdx_page2kva hf]
      omega
    rw [if_neg hlt, pteAt_of_not_present hp]

/-- Before its first iteration the loop has what `head.S` mapped. -/
theorem HeadMem.building (h : HeadMem s bootPgdir) (hinv : s.pmm.Inv ram bs)
    (hused : ∀ p ∈ s.pmm.freePages, bootPgdir + 1 < p) :
    Building s bootPgdir ram (Extents.inOrder bs) 0 (s.selfMapped bootPgdir) := by
  have hlow := h.low
  have hbase : bootPgdir < 2 ^ 20 := by omega
  constructor
  · show pagNum s.cr3 = bootPgdir
    rw [h.cr3, pagNum_page2pa hbase]
  · exact h.pgdirOk hused
  · rw [selfMapped, setWord_mem, if_pos ⟨rfl, rfl⟩, BitVec.or_assoc, pagNum_or (by decide),
      pagNum_page2pa hbase]
  · intro d hd hv
    rw [h.mem_pgdir hd hv, PageInit.present_bootPgdir_iff]
    omega
  · intro f hf
    rw [h.entries hf]
    rfl
  · rintro f (rfl | ⟨i, hi⟩)
    · omega
    · rw [(h.isTable hi).2]
      omega
  · exact ⟨bs, hinv, rfl⟩
  · exact fun p _ => rfl
  · rfl
  · rfl

/-- The directory can be reached from the start. -/
theorem HeadMem.kAddr (h : HeadMem s bootPgdir) (hinv : s.pmm.Inv ram bs)
    (hused : ∀ p ∈ s.pmm.freePages, bootPgdir + 1 < p) : s.kAddr bootPgdir = some bootPgdir := by
  have hlow := h.low
  have hwin : bootPgdir < windowPages := (show bootPgdir < 1024 by omega).trans (by decide)
  have hkAddr := (h.building hinv hused).kAddr hwin
  rw [if_pos (by omega)] at hkAddr
  rw [← hkAddr]
  have hv := pdx_page2kva_ne hwin
  have hdir : (s.selfMapped bootPgdir).mem bootPgdir (pdx (page2kva bootPgdir)) =
      s.mem bootPgdir (pdx (page2kva bootPgdir)) := by
    rw [selfMapped, setWord_mem, if_neg fun hh => hv hh.2]
  have hpte : (s.selfMapped bootPgdir).pteAt bootPgdir (page2kva bootPgdir) =
      s.pteAt bootPgdir (page2kva bootPgdir) := by
    by_cases hp : Present (s.mem bootPgdir (pdx (page2kva bootPgdir)))
    · have htable := (h.isTable (isTable_pdx (hdir ▸ hp) hv)).2
      rw [hdir] at htable
      rw [pteAt, pteAt, hdir, if_pos hp, if_pos hp, htable, selfMapped, setWord_mem,
        if_neg fun hh => absurd hh.1 (by omega)]
    · rw [pteAt_of_not_present hp, pteAt_of_not_present (hdir ▸ hp)]
  have hcr3 : pagNum s.cr3 = bootPgdir := (h.building hinv hused).cr3
  show s.kAddr bootPgdir =
    ((s.selfMapped bootPgdir).walk (pagNum s.cr3) (page2kva bootPgdir)).map pagNum
  rw [Vm.kAddr, walk, walk, hcr3, hpte]

/-- `vmm_init` through the page tables: it comes to its end if and only if each of the page tables
lies in memory that is mapped by the time it is made, and then it does what the plain one does. -/
theorem HeadMem.vmmInitMmu_spec (h : HeadMem s bootPgdir) (hinv : s.pmm.Inv ram bs)
    (hlow : ∀ p ∈ ram, p < windowPages) (hused : ∀ p ∈ s.pmm.freePages, bootPgdir + 1 < p) :
    ((s.vmmInitMmu bootPgdir).isSome ↔ Reaches (Extents.inOrder bs) 0 windowPages) ∧
    ∀ t, s.vmmInitMmu bootPgdir = some t → s.vmmInit bootPgdir = some t ∧
      Building s bootPgdir ram (Extents.inOrder bs) windowPages t := by
  have hpages : (roundUp KERNEL_MEM_SIZE).toNat / PG_SIZE = windowPages := by decide
  have hla : roundDown KERNEL_BASE = page2kva 0 := by decide
  have hpa : roundDown 0#32 = page2pa 0 := by decide
  have hloop := pgdirInitLoopMmu_spec (h.building hinv hused) hlow
    (show 0 + windowPages ≤ windowPages by omega)
  rw [Nat.zero_add] at hloop
  have hmmu : s.vmmInitMmu bootPgdir = pgdirInitLoopMmu bootPgdir PTE_W windowPages (page2kva 0)
      (page2pa 0) (s.selfMapped bootPgdir) := by
    rw [vmmInitMmu, h.kAddr hinv hused, Option.bind_eq_bind, Option.bind_some]
    dsimp only
    rw [pgdirInitMmu, hpages, hla, hpa, selfMapped]
  have hplain : s.vmmInit bootPgdir = pgdirInitLoop bootPgdir PTE_W windowPages (page2kva 0)
      (page2pa 0) (s.selfMapped bootPgdir) := by
    rw [vmmInit, pgdirInit, hpages, hla, hpa, selfMapped]
  rw [hmmu, hplain]
  exact hloop

end HeadMem

end Vm
end Zonix
