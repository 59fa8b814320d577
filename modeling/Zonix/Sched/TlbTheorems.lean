import Zonix.Sched.Tlb
import Zonix.Sched.Table

/-!
# The TLB and the page tables agree

`InStep` says that the TLB holds nothing but what the tables of the directory in use give. The one
step that breaks it is the write of an entry of that directory: then it holds at all other pages
(`CoherentOff`), until `tlb_invl` drops the page. An entry of another directory is in a frame
that the directory in use does not have, so nothing needs to be dropped.
-/

namespace Zonix
open Lib

namespace Cached
open Vm

variable {c c' : Cached} {mms : Set MmStruct} {mm active : MmStruct} {ram : Set ℕ}
  {qs qs' : List ℕ} {page table i p : ℕ} {la v : Word} {vm : Vm}

/-- The TLB was coherent at the moment, and held nothing for the address when its directory was in
use. -/
structure Dropped (r : Release) : Prop where
  coherent : r.cache.Coherent r.vm.translations
  noEntry : r.vm.cr3 = page2pa r.pgdir → r.cache (pagNum r.addr) = ∅

structure InStep (c : Cached) (mms : Set MmStruct) (active : MmStruct) (ram : Set ℕ)
    (qs : List ℕ) : Prop where
  spaces : c.vm.Spaces mms active ram qs
  coherent : c.cache.Coherent c.vm.translations
  releases : ∀ r ∈ c.releases, Dropped r

/-- Entries of other pages stay. -/
theorem mem_tlbInvl {pgdir n : ℕ} {pte : Word} (hn : n ≠ pagNum la) (hpte : pte ∈ c.cache n) :
    pte ∈ (c.tlbInvl pgdir la).cache n := by
  show pte ∈ (if c.vm.cr3 = page2pa pgdir then c.cache.drop c.vm.translations (pagNum la)
    else c.cache) n
  split_ifs
  · rw [Cache.drop_of_ne hn]
    exact hpte
  · exact hpte

/-- `page_insert` where there is a page table. -/
theorem pageInsert_of_present {pgdir : ℕ} {perm : Word}
    (hp : Present (c.vm.mem pgdir (pdx la))) : c.pageInsert pgdir page la perm =
      some (INSERT_SUCCESS,
        ((c.setPmm (c.vm.pmm.setRef page ((c.vm.pmm.page page).ref + 1))).setWord
          (pagNum (pteAddr (c.vm.mem pgdir (pdx la)))) (ptx la)
          (page2pa page ||| perm ||| PTE_P)).tlbInvl pgdir la) := by
  rw [Cached.pageInsert, Cached.getPte, if_pos hp]
  rfl

/-- An entry is written, and `tlb_invl` is called. -/
theorem edit_writesEntry (c : Cached) (pgdir table i : ℕ) (la v : Word) :
    WritesEntry c.vm ((c.setWord table i v).tlbInvl pgdir la).vm table i v := by
  intro f j
  show ((c.vm.setWord table i v).tlbInvl pgdir la).mem f j = _
  rw [tlbInvl_mem, setWord_mem]

theorem edit_pmm (c : Cached) (pgdir table i : ℕ) (la v : Word) :
    ((c.setWord table i v).tlbInvl pgdir la).vm.pmm = c.vm.pmm := tlbInvl_pmm ..

theorem edit_cr3 (c : Cached) (pgdir table i : ℕ) (la v : Word) :
    ((c.setWord table i v).tlbInvl pgdir la).vm.cr3 = c.vm.cr3 := tlbInvl_cr3 ..

namespace InStep

/-- A write to memory that unmaps no page of the directory in use. -/
theorem setVm (h : c.InStep mms active ram qs) (hs : vm.Spaces mms active ram qs')
    (hadd : ∀ n, c.vm.translations n ⊆ vm.translations n) :
    (c.setVm vm).InStep mms active ram qs' :=
  ⟨hs, h.coherent.load hadd, h.releases⟩

theorem sameTables (h : c.InStep mms active ram qs) (hs : c.vm.SameTables mms vm)
    (hspaces : vm.Spaces mms active ram qs') : (c.setVm vm).InStep mms active ram qs' := by
  apply h.setVm hspaces
  rw [h.spaces.translations_congr hs]
  exact fun n => subset_rfl

/-- Neither a table nor a list changes. -/
theorem quiet (h : c.InStep mms active ram qs) (hs : c.vm.SameTables mms vm)
    (hlists : vm.pmm.Lists ram qs) (hfree : vm.pmm.freePages = c.vm.pmm.freePages) :
    (c.setVm vm).InStep mms active ram qs := by
  apply h.sameTables hs
  apply h.spaces.congr hs hlists
  · intro p hp
    rw [hfree] at hp
    exact h.spaces.data_of_free hp
  · intro p hp
    exact h.spaces.data_of_queued hp

theorem setRef (h : c.InStep mms active ram qs) (page : ℕ) (r : ℤ) :
    (c.setPmm (c.vm.pmm.setRef page r)).InStep mms active ram qs :=
  h.quiet (.of_mem rfl rfl) (h.spaces.lists.setRef page r) (Pmm.setRef_freePages ..)

/-! ## Entries -/

section Edit
variable (h : c.InStep mms active ram qs) (hmm : mm ∈ mms)
  (ht : c.vm.IsTable mm.pgdir (pdx la) table)
include h hmm ht

/-- An entry is written, and `tlb_invl` is called for its page. -/
theorem edit (v : Word) :
    ((c.setWord table (ptx la) v).tlbInvl mm.pgdir la).InStep mms active ram qs := by
  have hw : WritesEntry c.vm (c.vm.setWord table (ptx la) v) table (ptx la) v :=
    c.vm.setWord_mem table (ptx la) v
  have hle : ∀ n, n ≠ pagNum la ∨ mm ≠ active →
      c.vm.translations n ⊆ (c.vm.setWord table (ptx la) v).translations n := fun n hn =>
    h.spaces.writesEntry_translations hmm hw ht rfl hn
  refine ⟨h.spaces.writesEntry hmm (c.edit_writesEntry mm.pgdir table (ptx la) la v) ht
    (c.edit_pmm ..) (c.edit_cr3 ..), ?_, h.releases⟩
  show Cache.Coherent (if _ then _ else _) ((c.vm.setWord table (ptx la) v).tlbInvl
    mm.pgdir la).translations
  rw [tlbInvl_translations]
  by_cases hcr3 : (c.setWord table (ptx la) v).vm.cr3 = page2pa mm.pgdir
  · rw [if_pos hcr3]
    apply Cache.CoherentOff.drop
    exact h.coherent.edit fun n hn => hle n (Or.inl hn)
  · rw [if_neg hcr3]
    -- the directory is not in use, so no page of the one in use has changed
    have hne : mm ≠ active := fun heq => hcr3 ((h.spaces.cr3_eq_iff hmm).mpr heq)
    exact h.coherent.load fun n => hle n (Or.inr hne)

theorem edit_pteAt (v : Word) :
    ((c.setWord table (ptx la) v).tlbInvl mm.pgdir la).vm.pteAt mm.pgdir la = v :=
  h.spaces.writesEntry_pteAt hmm (c.edit_writesEntry mm.pgdir table (ptx la) la v) ht

theorem edit_fresh (v : Word) (hf : c.vm.Fresh mms ram qs p) :
    ((c.setWord table (ptx la) v).tlbInvl mm.pgdir la).vm.Fresh mms ram qs p :=
  h.spaces.writesEntry_fresh hmm (c.edit_writesEntry mm.pgdir table (ptx la) la v) ht
    (c.edit_pmm ..) hf

end Edit

/-! ## `pmm.c` -/

theorem allocPages (h : c.InStep mms active ram qs) :
    (∃ c', c.allocPages 1 = some (none, c') ∧ c'.InStep mms active ram qs ∧
      ∀ p, c.vm.Fresh mms ram qs p → c'.vm.Fresh mms ram qs p) ∨
    ∃ page pmm, c.allocPages 1 = some (some page, c.setPmm pmm) ∧ c.vm.pmm.Takes 1 page pmm ∧
      (c.setPmm pmm).InStep mms active ram qs ∧ (c.setPmm pmm).vm.Fresh mms ram qs page := by
  obtain ⟨bs, hinv⟩ := h.spaces.lists.free
  rcases hinv.alloc_cases le_rfl with ⟨heq, -⟩ | ⟨page, pmm, heq, ht⟩
  · refine Or.inl ⟨c.setPmm c.vm.pmm, ?_, h.quiet (.of_mem rfl rfl) h.spaces.lists rfl,
      fun p hp => hp⟩
    simp [Cached.allocPages, Vm.allocPages, heq, Cached.setPmm]
  · obtain ⟨hspaces, hfresh⟩ := h.spaces.takes ht
    refine Or.inr ⟨page, pmm, ?_, ht, h.sameTables (.of_mem rfl rfl) hspaces, hfresh⟩
    simp [Cached.allocPages, Vm.allocPages, heq, Cached.setPmm]

theorem pagesFree (h : c.InStep mms active ram qs) (hp : c.vm.Fresh mms ram qs page)
    (heq : c.pagesFree page 1 = some c') : c'.InStep mms active ram qs := by
  rw [Cached.pagesFree, Option.bind_eq_bind, Option.bind_eq_some_iff] at heq
  obtain ⟨vm, hvm, heq⟩ := heq
  obtain rfl := Option.some.inj heq
  obtain ⟨hspaces, hs⟩ := h.spaces.gives hp hvm
  exact h.sameTables hs hspaces

/-- A page table is created: the frame is filled with zeros before the directory points to it. -/
theorem newTable (h : c.InStep mms active ram qs) (hmm : mm ∈ mms) (hv : pdx la ≠ pdx VPT)
    (hp : ¬ Present (c.vm.mem mm.pgdir (pdx la))) {pmm : Pmm} (ht : c.vm.pmm.Takes 1 page pmm)
    (h₁ : (c.setPmm pmm).InStep mms active ram qs)
    (hfresh : (c.setPmm pmm).vm.Fresh mms ram qs page) :
    ((((c.setPmm pmm).setPmm (pmm.setRef page PAGE_REF_INIT)).setFrame (pagNum (page2pa page))
      fun _ => 0#32).setVm (c.vm.newTable mm.pgdir la page pmm)).InStep mms active ram qs := by
  have hlow := (h.spaces.space mm hmm).freeLow page ht.one.1
  let c₁ := (c.setPmm pmm).setPmm (pmm.setRef page PAGE_REF_INIT)
  let c₂ := c₁.setFrame (pagNum (page2pa page)) fun _ => 0#32
  have h₂ : c₁.InStep mms active ram qs := h₁.setRef page PAGE_REF_INIT
  have hzero : c₁.vm.SameTables mms c₂.vm := by
    refine .of_data hfresh.data rfl fun f hf j => ?_
    show (c₁.vm.setFrame (pagNum (page2pa page)) fun _ => 0#32).mem f j = _
    rw [setFrame_mem, pagNum_page2pa hlow, if_neg hf]
  have h₃ : c₂.InStep mms active ram qs := h₂.quiet hzero h₂.spaces.lists rfl
  have hsame : c.vm.SameTables mms c₂.vm := ⟨rfl, hzero.mem⟩
  refine h₃.setVm (h.spaces.newTable hmm ht hv hp) fun n => ?_
  rw [h.spaces.translations_congr hsame]
  exact h.spaces.newTable_translations hmm ht hv hp n

/-- `get_pte`, with or without creation. -/
theorem getPte (h : c.InStep mms active ram qs) (hmm : mm ∈ mms) (hv : pdx la ≠ pdx VPT)
    {create : Bool} {r : Option (ℕ × ℕ)} (heq : c.getPte mm.pgdir la create = some (r, c')) :
    c'.InStep mms active ram qs ∧
      (∀ table i, r = some (table, i) → c'.vm.IsTable mm.pgdir (pdx la) table ∧ i = ptx la) ∧
      ∀ p, c.vm.Fresh mms ram qs p → c'.vm.Fresh mms ram qs p := by
  unfold Cached.getPte at heq
  by_cases hp : Present (c.vm.mem mm.pgdir (pdx la))
  · rw [if_pos hp, pagNum_pteAddr] at heq
    obtain ⟨rfl, rfl⟩ := Prod.mk.inj (Option.some.inj heq)
    refine ⟨h, fun table i hr => ?_, fun p hf => hf⟩
    obtain ⟨rfl, rfl⟩ := Prod.mk.inj (Option.some.inj hr)
    exact ⟨isTable_pdx hp hv, rfl⟩
  rw [if_neg hp] at heq
  cases create with
  | false =>
    obtain ⟨rfl, rfl⟩ := Prod.mk.inj (Option.some.inj heq)
    exact ⟨h, by simp, fun p hf => hf⟩
  | true =>
    rcases h.allocPages with ⟨c₁, hall, h₁, hkeep⟩ | ⟨page, pmm, hall, ht, h₁, hfresh⟩
    · rw [hall] at heq
      obtain ⟨rfl, rfl⟩ := Prod.mk.inj (Option.some.inj heq)
      exact ⟨h₁, by simp, hkeep⟩
    rw [hall] at heq
    obtain ⟨rfl, rfl⟩ := Prod.mk.inj (Option.some.inj heq)
    refine ⟨h.newTable hmm hv hp ht h₁ hfresh, fun table i hr => ?_,
      fun p hf => h.spaces.newTable_fresh hmm ht hv hf⟩
    obtain ⟨rfl, rfl⟩ := Prod.mk.inj (Option.some.inj hr)
    refine ⟨?_, rfl⟩
    rw [pagNum_pteAddr]
    exact c.vm.newTable_table mm.pgdir hv page pmm

theorem pageInsert (h : c.InStep mms active ram qs) (hmm : mm ∈ mms) (hv : pdx la ≠ pdx VPT)
    {perm : Word} {r : ℤ} (heq : c.pageInsert mm.pgdir page la perm = some (r, c')) :
    c'.InStep mms active ram qs ∧ ∀ p, c.vm.Fresh mms ram qs p → c'.vm.Fresh mms ram qs p := by
  rw [Cached.pageInsert, Option.bind_eq_bind, Option.bind_eq_some_iff] at heq
  obtain ⟨⟨ptep, c₁⟩, hget, heq⟩ := heq
  obtain ⟨h₁, htable, hfresh⟩ := h.getPte hmm hv hget
  cases ptep with
  | none =>
    obtain ⟨-, rfl⟩ := Prod.mk.inj (Option.some.inj heq)
    exact ⟨h₁, hfresh⟩
  | some ptep =>
    obtain ⟨-, rfl⟩ := Prod.mk.inj (Option.some.inj heq)
    obtain ⟨ht, hi⟩ := htable ptep.1 ptep.2 rfl
    have h₂ := h₁.setRef page ((c₁.vm.pmm.page page).ref + 1)
    rw [hi]
    have hsame : c₁.vm.SameTables mms
        (c₁.setPmm (c₁.vm.pmm.setRef page ((c₁.vm.pmm.page page).ref + 1))).vm := .of_mem rfl rfl
    refine ⟨h₂.edit hmm ht _, fun p hp => h₂.edit_fresh hmm ht _ ?_⟩
    exact hsame.fresh (hfresh p hp) (Pmm.setRef_freePages ..)

/-! ## `swap.c` -/

theorem enqueue (h : c.InStep mms active ram qs) (hmm : mm ∈ mms)
    (hp : c.vm.Fresh mms ram qs page) :
    (c.swapFifoMapSwappable mm page).InStep mms active ram (qs ++ [page]) :=
  h.sameTables (.of_mem rfl rfl) (h.spaces.enqueue hmm hp)

/-- A frame that holds no page table is filled from the disk. -/
theorem readSlot (h : c.InStep mms active ram qs) (hmm : mm ∈ mms)
    (hp : c.vm.Fresh mms ram qs page) (entry : Word) :
    (c.setVm (c.vm.swapfsRead entry page).2).InStep mms active ram qs ∧
      (c.setVm (c.vm.swapfsRead entry page).2).vm.Fresh mms ram qs page := by
  have hpmm := c.vm.swapfsRead_pmm entry page
  have hlow := (h.spaces.space mm hmm).low page hp.inRam
  have hsame : c.vm.SameTables mms (c.vm.swapfsRead entry page).2 := by
    refine .of_data hp.data (swapfsRead_cr3 ..) fun f hf j => ?_
    apply swapfsRead_mem
    rw [pagNum_page2pa hlow]
    exact hf
  exact ⟨h.quiet hsame (hpmm ▸ h.spaces.lists) (congrArg Pmm.freePages hpmm),
    hsame.fresh hp (congrArg Pmm.freePages hpmm)⟩

/-- A frame is written to the disk. -/
theorem writeSlot (h : c.InStep mms active ram qs) (entry : Word) (page : ℕ) :
    (c.setVm (c.vm.swapfsWrite entry page).2).InStep mms active ram qs ∧
      c.vm.SameTables mms (c.vm.swapfsWrite entry page).2 := by
  have hpmm := c.vm.swapfsWrite_pmm entry page
  have hsame : c.vm.SameTables mms (c.vm.swapfsWrite entry page).2 :=
    .of_mem (swapfsWrite_cr3 ..) (swapfsWrite_mem ..)
  exact ⟨h.quiet hsame (hpmm ▸ h.spaces.lists) (congrArg Pmm.freePages hpmm), hsame⟩

theorem swapIn (h : c.InStep mms active ram qs) (hmm : mm ∈ mms) (hv : pdx la ≠ pdx VPT)
    {r : ℤ} {ptr : Option ℕ} (heq : c.swapIn mm la = some (r, ptr, c')) :
    ∃ qs', c'.InStep mms active ram qs' := by
  rw [Cached.swapIn, Option.bind_eq_bind] at heq
  rcases h.allocPages with ⟨c₁, hall, h₁, -⟩ | ⟨page, pmm, hall, ht, h₁, hfresh⟩
  · rw [hall] at heq
    obtain ⟨-, heq⟩ := Prod.mk.inj (Option.some.inj heq)
    obtain ⟨-, rfl⟩ := Prod.mk.inj heq
    exact ⟨qs, h₁⟩
  rw [hall, Option.bind_some, Option.bind_eq_bind, Option.bind_eq_some_iff] at heq
  obtain ⟨⟨ptep, c₂⟩, hget, heq⟩ := heq
  obtain ⟨h₂, -, hkeep⟩ := h₁.getPte hmm hv hget
  have hfresh₂ := hkeep page hfresh
  cases ptep with
  | none =>
    obtain ⟨c₃, hfree, heq⟩ := Option.bind_eq_some_iff.mp heq
    obtain ⟨-, heq⟩ := Prod.mk.inj (Option.some.inj heq)
    obtain ⟨-, rfl⟩ := Prod.mk.inj heq
    exact ⟨qs, h₂.pagesFree hfresh₂ hfree⟩
  | some ptep =>
    obtain ⟨h₃, hfresh₃⟩ := h₂.readSlot hmm hfresh₂ (c₂.vm.mem ptep.1 ptep.2)
    change (if (c₂.vm.swapfsRead (c₂.vm.mem ptep.1 ptep.2) page).1 ≠ 0 then _ else _) = _ at heq
    by_cases hr : (c₂.vm.swapfsRead (c₂.vm.mem ptep.1 ptep.2) page).1 ≠ 0
    · rw [if_pos hr] at heq
      obtain ⟨c₄, hfree, heq⟩ := Option.bind_eq_some_iff.mp heq
      obtain ⟨-, heq⟩ := Prod.mk.inj (Option.some.inj heq)
      obtain ⟨-, rfl⟩ := Prod.mk.inj heq
      exact ⟨qs, h₃.pagesFree hfresh₃ hfree⟩
    · rw [if_neg hr] at heq
      obtain ⟨⟨res, c₄⟩, hins, heq⟩ := Option.bind_eq_some_iff.mp heq
      obtain ⟨-, heq⟩ := Prod.mk.inj (Option.some.inj heq)
      obtain ⟨-, rfl⟩ := Prod.mk.inj heq
      obtain ⟨h₄, hkeep₄⟩ := h₃.pageInsert hmm hv hins
      exact ⟨qs ++ [page], h₄.enqueue hmm (hkeep₄ page hfresh₃)⟩

/-- The end of an iteration of `swap_out`: the frame is freed when its entry is gone. -/
theorem evict (h : c.InStep mms active ram qs) (hmm : mm ∈ mms)
    (ht : c.vm.IsTable mm.pgdir (pdx la) table) (hp : c.vm.Fresh mms ram qs page)
    (hv : ¬ Present v) (heq : c.evict mm table (ptx la) v page la = some c') :
    c'.InStep mms active ram qs := by
  let c₁ := (c.setWord table (ptx la) v).tlbInvl mm.pgdir la
  have h₁ : c₁.InStep mms active ram qs := h.edit hmm ht v
  have hgone : c₁.vm.cr3 = page2pa mm.pgdir → c₁.cache (pagNum la) = ∅ := by
    intro hcr3
    apply h₁.coherent.eq_empty
    apply Set.eq_empty_of_forall_notMem
    intro pte hpte
    have hactive := (h₁.spaces.cr3_eq_iff hmm).mp hcr3
    rw [mem_translations, h₁.spaces.pagNum_cr3, ← hactive, walk, h.edit_pteAt hmm ht,
      if_neg hv] at hpte
    exact absurd hpte (by simp)
  have h₂ : (c₁.release mm.pgdir la).InStep mms active ram qs := by
    refine ⟨h₁.spaces, h₁.coherent, fun r hr => ?_⟩
    rcases List.mem_cons.mp hr with rfl | hr
    · exact ⟨h₁.coherent, hgone⟩
    · exact h₁.releases r hr
  rw [Cached.evict, Option.bind_eq_bind, Option.bind_eq_some_iff] at heq
  obtain ⟨c₃, hfree, heq⟩ := heq
  obtain rfl := Option.some.inj heq
  have h₃ := h₂.pagesFree (h.edit_fresh hmm ht v hp) hfree
  exact h₃.quiet (.of_mem rfl rfl) h₃.spaces.lists rfl

theorem swapOutOne (h : c.InStep mms active ram qs) (hmm : mm ∈ mms) {o : Vm.Outcome}
    (heq : c.swapOutOne mm = some (o, c')) : ∃ qs', c'.InStep mms active ram qs' := by
  unfold Cached.swapOutOne swapFifoSwapOutVictim at heq
  cases qs with
  | nil =>
    rw [h.spaces.victim_nil hmm] at heq
    obtain ⟨-, rfl⟩ := Prod.mk.inj (Option.some.inj heq)
    exact ⟨[], h.quiet (.of_mem rfl rfl) h.spaces.lists rfl⟩
  | cons victim qs =>
    obtain ⟨hvictim, hspaces, hfresh⟩ := h.spaces.victim_cons hmm
    rw [hvictim] at heq
    have h₁ : (c.setVm (c.vm.dequeued victim)).InStep mms active ram qs :=
      h.sameTables (.of_mem rfl rfl) hspaces
    simp only [Option.bind_eq_bind, Option.bind_some, ne_eq, not_true_eq_false, if_false] at heq
    let addr := (c.setVm (c.vm.dequeued victim)).vm.findVaddrForPage mm victim
    by_cases hz : addr = 0#32
    · rw [if_pos hz] at heq
      obtain ⟨-, rfl⟩ := Prod.mk.inj (Option.some.inj heq)
      exact ⟨qs, h₁⟩
    rw [if_neg hz] at heq
    have hspace := hspaces.space mm hmm
    -- the address that was found is no address of a page table
    have hv : pdx addr ≠ pdx VPT :=
      hspace.pdx_ne_of_maps (hfresh.data mm hmm)
        (findVaddrForPage_maps (hspace.low victim hfresh.inRam) hz)
    obtain ⟨⟨ptep, c₂⟩, hget, heq⟩ := Option.bind_eq_some_iff.mp heq
    obtain ⟨h₂, htable, hkeep⟩ := h₁.getPte hmm hv hget
    cases ptep with
    | none =>
      obtain ⟨-, rfl⟩ := Prod.mk.inj (Option.some.inj heq)
      exact ⟨qs, h₂⟩
    | some ptep =>
      obtain ⟨ht, hi⟩ := htable ptep.1 ptep.2 rfl
      let entry := c₂.vm.swapOffset <<< 8
      obtain ⟨h₃, hsame⟩ := h₂.writeSlot entry victim
      have hmem := c₂.vm.swapfsWrite_mem entry victim
      have hpmm := c₂.vm.swapfsWrite_pmm entry victim
      -- the disk is written before the entry: on failure the page stays mapped
      change (if (c₂.vm.swapfsWrite entry victim).1 ≠ 0 then _ else _) = _ at heq
      by_cases hw : (c₂.vm.swapfsWrite entry victim).1 ≠ 0
      · rw [if_pos hw] at heq
        obtain ⟨-, rfl⟩ := Prod.mk.inj (Option.some.inj heq)
        exact ⟨qs, h₃⟩
      · rw [if_neg hw] at heq
        obtain ⟨c₄, hevict, heq⟩ := Option.bind_eq_some_iff.mp heq
        obtain ⟨-, rfl⟩ := Prod.mk.inj (Option.some.inj heq)
        rw [hi] at hevict
        refine ⟨qs, h₃.evict hmm ?_ ?_ (not_present_shiftLeft _) hevict⟩
        · exact (isTable_congr (fun j => by rw [← hmem]; rfl) _ _).mpr ht
        · exact hsame.fresh (hkeep victim hfresh) (congrArg Pmm.freePages hpmm)

theorem swapOutLoop (hmm : mm ∈ mms) (k : ℕ) (i : ℤ) {r : ℤ} (h : c.InStep mms active ram qs)
    (heq : swapOutLoop mm k i c = some (r, c')) : ∃ qs', c'.InStep mms active ram qs' := by
  induction k generalizing c qs i with
  | zero =>
    obtain ⟨-, rfl⟩ := Prod.mk.inj (Option.some.inj heq)
    exact ⟨qs, h⟩
  | succ k ih =>
    obtain ⟨⟨o, c₁⟩, hone, heq⟩ := Option.bind_eq_some_iff.mp heq
    obtain ⟨qs₁, h₁⟩ := h.swapOutOne hmm hone
    cases o with
    | stop =>
      obtain ⟨-, rfl⟩ := Prod.mk.inj (Option.some.inj heq)
      exact ⟨qs₁, h₁⟩
    | skip | evicted => exact ih (i + 1) h₁ heq

end InStep

/-! ## `proc_run` -/

section Switch
variable {proc : ℕ} {callers : List Word}

theorem beforeSwitch_eq (c : Cached) (proc : ℕ) : c.beforeSwitch proc =
    (c.sys.procGetCr3 proc).bind fun next => (c.sys.procGetCr3 c.sys.current).bind fun prev =>
      some (c.sys.intrSave.1,
        if next ≠ prev then
          (c.setSys ((c.sys.intrSave.2.setCurrent proc).setState proc .running)).lcr3 next
        else c.setSys ((c.sys.intrSave.2.setCurrent proc).setState proc .running)) := by
  obtain ⟨e, hsave⟩ := c.sys.intrSave_snd
  have hcr3 : ∀ q, ((c.sys.intrSave.2.setCurrent proc).setState proc .running).procGetCr3 q =
      c.sys.procGetCr3 q := by
    intro q
    rw [hsave]
    exact Sched.procGetCr3_congr (Sched.setState_mm _) rfl
  have hcurrent : c.sys.intrSave.2.current = c.sys.current := by
    rw [hsave]
    rfl
  unfold beforeSwitch
  simp only [Option.bind_eq_bind, hcr3, hcurrent]

/-- What a switch leaves in the TLB: it is emptied when CR3 is loaded. -/
theorem procRun_cache (hne : proc ≠ c.sys.current) (heq : c.procRun proc callers = some c') :
    ∃ next prev, c.sys.procGetCr3 proc = some next ∧
      c.sys.procGetCr3 c.sys.current = some prev ∧ c'.vm = c.sys.switchVm next prev ∧
      c'.releases = c.releases ∧
      ((next ≠ prev ∧ c'.cache.Coherent c'.vm.translations) ∨
        (next = prev ∧ c'.cache = (c.cache.load c.vm.translations).load c.vm.translations)) := by
  rw [procRun, if_pos hne, Option.bind_eq_bind, Option.bind_eq_some_iff] at heq
  obtain ⟨⟨flag, t⟩, hbefore, heq⟩ := heq
  obtain ⟨sys, hswitch, heq⟩ := Option.bind_eq_some_iff.mp heq
  obtain rfl := Option.some.inj heq
  obtain ⟨e, rfl, -⟩ := Sched.switchTo_spec hne hswitch
  rw [beforeSwitch_eq, Option.bind_eq_some_iff] at hbefore
  obtain ⟨next, hnext, hbefore⟩ := hbefore
  rw [Option.bind_eq_some_iff] at hbefore
  obtain ⟨prev, hprev, hbefore⟩ := hbefore
  obtain ⟨-, rfl⟩ := Prod.mk.inj (Option.some.inj hbefore)
  let u := (c.sys.intrSave.2.setCurrent proc).setState proc .running
  have hvm : u.vm = c.sys.vm := c.sys.intrSave_vm
  refine ⟨next, prev, hnext, hprev, ?_, ?_, ?_⟩
  · rw [Sched.switchVm]
    by_cases hload : next ≠ prev
    · simp only [if_pos hload]
      show u.vm.lcr3 next = _
      rw [hvm]
    · simp only [if_neg hload]
      exact hvm
  · by_cases hload : next ≠ prev
    · simp only [if_pos hload]
      rfl
    · simp only [if_neg hload]
      rfl
  · by_cases hload : next ≠ prev
    · refine Or.inl ⟨hload, ?_⟩
      simp only [if_pos hload]
      exact Cache.Coherent.load (.refl _) fun _ => subset_rfl
    · refine Or.inr ⟨not_not.mp hload, ?_⟩
      simp only [if_neg hload]
      show (c.cache.load u.vm.translations).load u.vm.translations = _
      rw [hvm]
      rfl

/-- A switch to a process with the directory of `mm`. -/
theorem InStep.procRun (h : c.InStep mms active ram qs) (hmm : mm ∈ mms)
    (hcurrent : c.sys.procGetCr3 c.sys.current = some (page2pa active.pgdir))
    (hproc : c.sys.procGetCr3 proc = some (page2pa mm.pgdir)) (hne : proc ≠ c.sys.current)
    (heq : c.procRun proc callers = some c') : c'.InStep mms mm ram qs := by
  obtain ⟨next, prev, hnext, hprev, hvm, hreleases, hcache⟩ := procRun_cache hne heq
  obtain rfl := Option.some.inj (hnext.symm.trans hproc)
  obtain rfl := Option.some.inj (hprev.symm.trans hcurrent)
  have hreleases' : ∀ r ∈ c'.releases, Dropped r := by
    rw [hreleases]
    exact h.releases
  rcases hcache with ⟨hload, hcoherent⟩ | ⟨hsame, hcache⟩
  · rw [Sched.switchVm, if_pos hload] at hvm
    refine ⟨h.spaces.lcr3 hmm ?_ ?_ ?_, hcoherent, hreleases'⟩ <;> rw [hvm] <;> rfl
  · -- CR3 is not loaded, since both processes have the same directory
    rw [Sched.switchVm, if_neg (not_not.mpr hsame)] at hvm
    have hvm' : c'.vm = c.vm := hvm
    have hactive : mm = active := (h.spaces.cr3_eq_iff hmm).mp (h.spaces.cr3.trans hsame.symm)
    refine ⟨?_, ?_, hreleases'⟩
    · rw [hvm', hactive]
      exact h.spaces
    · rw [hvm', hcache]
      exact (h.coherent.load fun _ => subset_rfl).load fun _ => subset_rfl

end Switch

end Cached

/-! ## Runs -/

/-- The process has this `mm_struct`. -/
def Sched.HasMm (s : Sched) (proc : ℕ) (mm : MmStruct) : Prop :=
  ∃ i, (s.task proc).mm = some i ∧ s.mms i = mm

/-- The directories are address spaces in order that share no frame, and the one of the current
process is in use. -/
def Sched.Separate (s : Sched) (mms : Set MmStruct) (ram : Set ℕ) : Prop :=
  ∃ active qs, s.vm.Spaces mms active ram qs ∧ s.HasMm s.current active

theorem Sched.HasMm.procGetCr3 {s : Sched} {proc : ℕ} {mm : MmStruct} (h : s.HasMm proc mm) :
    s.procGetCr3 proc = some (page2pa mm.pgdir) := by
  obtain ⟨i, hmm, rfl⟩ := h
  rw [Sched.procGetCr3, hmm]
  rfl

namespace Cached
open Vm

variable {c c' : Cached} {s : Sched} {mms : Set MmStruct} {mm active : MmStruct} {ram : Set ℕ}
  {qs : List ℕ}

/-- The calls are about these directories, and an access is by means of an entry that the TLB may
hold. -/
def Callable (mms : Set MmStruct) (c : Cached) : TlbOp → Prop
  | .pageInsert mm _ _ _ | .getPte mm _ | .swapIn mm _ | .swapOut mm _ => mm ∈ mms
  | .access la pte _ => pte ∈ c.cache (pagNum la)
  | .procRun proc _ => ∃ mm ∈ mms, c.sys.HasMm proc mm

/-- Nothing but these calls edits a page table, and none edits a directory through its
self-mapping slot. -/
def Ordered (mms : Set MmStruct) (c : Cached) (op : TlbOp) : Prop :=
  Callable mms c op ∧ match op with
    | .pageInsert _ _ la _ | .swapIn _ la => pdx la ≠ pdx VPT
    | .getPte mm la => pdx la = pdx VPT → Present (c.vm.mem mm.pgdir (pdx VPT))
    | .access _ pte (some _) => c.vm.Data mms (pagNum pte)
    | _ => True

/-- What every operation keeps: the TLB is in step, and the directory of the current process is the
one in use. -/
def Steady (mms : Set MmStruct) (ram : Set ℕ) (c : Cached) : Prop :=
  ∃ active qs, c.InStep mms active ram qs ∧ c.sys.HasMm c.sys.current active

theorem flushed_steady (h : s.Separate mms ram) : Steady mms ram (flushed s) := by
  obtain ⟨active, qs, hspaces, hcurrent⟩ := h
  exact ⟨active, qs, ⟨hspaces, .refl _, by simp [flushed]⟩, hcurrent⟩

/-- A call that leaves the processes alone. -/
theorem steady_of_setVm (h : ∃ qs, c'.InStep mms active ram qs) {vm : Vm}
    (hcurrent : c.sys.HasMm c.sys.current active) (hsys : c'.sys = c.sys.setVm vm) :
    Steady mms ram c' := by
  obtain ⟨qs, h⟩ := h
  refine ⟨active, qs, h, ?_⟩
  rw [hsys]
  exact hcurrent

/-- A directory is not edited through its self-mapping slot, when the table there is present. -/
theorem InStep.getPte_kept {r : Option (ℕ × ℕ)} {la : Word} (h : c.InStep mms active ram qs)
    (hmm : mm ∈ mms) (hok : pdx la = pdx VPT → Present (c.vm.mem mm.pgdir (pdx VPT)))
    (hget : c.getPte mm.pgdir la true = some (r, c')) : c'.InStep mms active ram qs := by
  by_cases hv : pdx la = pdx VPT
  · have hp : Present (c.vm.mem mm.pgdir (pdx la)) := by
      rw [hv]
      exact hok hv
    rw [Cached.getPte, if_pos hp] at hget
    obtain ⟨-, rfl⟩ := Prod.mk.inj (Option.some.inj hget)
    exact h
  · exact (h.getPte hmm hv hget).1

/-- A store through the TLB into a frame of data. -/
theorem InStep.store {f w : ℕ} {v : Word} (h : c.InStep mms active ram qs)
    (hdata : c.vm.Data mms f) : (c.setVm (c.vm.setWord f w v)).InStep mms active ram qs := by
  have hsame : c.vm.SameTables mms (c.vm.setWord f w v) := by
    refine .of_data hdata rfl fun f' hf j => ?_
    rw [setWord_mem, if_neg fun hh => hf hh.1]
  exact h.quiet hsame h.spaces.lists rfl

/-- To the process that runs already, `proc_run` does not switch. -/
theorem Steady.procRun {proc : ℕ} {callers : List Word} (h : Steady mms ram c) (hmm : mm ∈ mms)
    (hproc : c.sys.HasMm proc mm) (heq : c.procRun proc callers = some c') :
    Steady mms ram c' := by
  obtain ⟨active, qs, hstep, hcurrent⟩ := h
  by_cases hne : proc = c.sys.current
  · rw [Cached.procRun, if_neg (not_not.mpr hne)] at heq
    obtain rfl := Option.some.inj heq
    have hquiet : (c.setVm c.vm).InStep mms active ram qs :=
      hstep.quiet (.of_mem rfl rfl) hstep.spaces.lists rfl
    rw [Sched.restoreAll_eq]
    exact ⟨active, qs, ⟨hquiet.spaces, hquiet.coherent, hquiet.releases⟩, hcurrent⟩
  · have hsys := exec_sys c (.procRun proc callers)
    rw [show c.exec (.procRun proc callers) = some c' from heq, Option.map_some] at hsys
    have hswitched := Sched.procRun_spec hne hsys.symm
    refine ⟨mm, qs, hstep.procRun hmm hcurrent.procGetCr3 hproc.procGetCr3 hne heq, ?_⟩
    obtain ⟨i, hi, hmm⟩ := hproc
    refine ⟨i, ?_, hswitched.mms ▸ hmm⟩
    rw [hswitched.current, hswitched.next]
    exact hi

/-- One operation. -/
theorem Steady.exec (h : Steady mms ram c) {op : TlbOp} (hok : Ordered mms c op)
    (heq : c.exec op = some c') : Steady mms ram c' := by
  obtain ⟨active, qs, hstep, hcurrent⟩ := h
  -- where the calls are those of the memory, the rest of the system is the same
  have hsys := exec_sys c op
  rw [heq, Option.map_some] at hsys
  obtain ⟨hcall, hok⟩ := hok
  cases op with
  | pageInsert mm page la perm =>
    obtain ⟨⟨r, _⟩, hins, rfl⟩ := Option.map_eq_some_iff.mp heq
    obtain ⟨x, -, hx⟩ := Option.map_eq_some_iff.mp hsys.symm
    exact steady_of_setVm ⟨qs, (hstep.pageInsert hcall hok hins).1⟩ hcurrent hx.symm
  | getPte mm la =>
    obtain ⟨⟨r, _⟩, hget, rfl⟩ := Option.map_eq_some_iff.mp heq
    obtain ⟨x, -, hx⟩ := Option.map_eq_some_iff.mp hsys.symm
    exact steady_of_setVm ⟨qs, hstep.getPte_kept hcall hok hget⟩ hcurrent hx.symm
  | swapIn mm addr =>
    obtain ⟨⟨r, p, _⟩, hin, rfl⟩ := Option.map_eq_some_iff.mp heq
    obtain ⟨x, -, hx⟩ := Option.map_eq_some_iff.mp hsys.symm
    exact steady_of_setVm (hstep.swapIn hcall hok hin) hcurrent hx.symm
  | swapOut mm n =>
    obtain ⟨⟨r, _⟩, hout, rfl⟩ := Option.map_eq_some_iff.mp heq
    obtain ⟨x, -, hx⟩ := Option.map_eq_some_iff.mp hsys.symm
    exact steady_of_setVm (hstep.swapOutLoop hcall n.toNat 0 hout) hcurrent hx.symm
  | access la pte store =>
    obtain rfl := Option.some.inj heq
    cases store with
    | none => exact ⟨active, qs, hstep, hcurrent⟩
    | some v => exact ⟨active, qs, hstep.store hok, hcurrent⟩
  | procRun proc callers =>
    obtain ⟨mm, hmm, hproc⟩ := hcall
    exact Steady.procRun ⟨active, qs, hstep, hcurrent⟩ hmm hproc heq

/-- After every operation of a run, everything that the TLB may hold is what the tables of the
directory in use give. It is so too when `swap_out` frees a frame, and then the TLB holds nothing
for the address that was unmapped if the directory is the one in use. -/
theorem tlb_coherent (h : s.Separate mms ram) (hr : Run exec (Ordered mms) (flushed s) c) :
    (∀ la, ∀ pte ∈ c.cache (pagNum la), c.vm.walk (pagNum c.vm.cr3) la = some pte) ∧
      ∀ r ∈ c.releases,
        (∀ la, ∀ pte ∈ r.cache (pagNum la), r.vm.walk (pagNum r.vm.cr3) la = some pte) ∧
        (r.vm.cr3 = page2pa r.pgdir → r.cache (pagNum r.addr) = ∅) := by
  obtain ⟨active, qs, hstep, -⟩ : Steady mms ram c :=
    hr.invariant (flushed_steady h) fun u op v hu hok heq => hu.exec hok heq
  constructor
  · intro la pte hpte
    exact mem_translations.mp (hstep.coherent _ hpte)
  · intro r hr
    obtain ⟨hcoherent, hno⟩ := hstep.releases r hr
    refine ⟨fun la pte hpte => ?_, hno⟩
    exact mem_translations.mp (hcoherent _ hpte)

/-! ### Two directories -/

/-- An empty directory, in frame 3. -/
def secondMm : MmStruct := ⟨3, .praListHead⟩

def sampleMms : Set MmStruct := {initMm, secondMm}

/-- The small machine with swapping initialised. Process 0, which runs, has the first directory,
and process 1 the second. -/
def twoSpaces : Sched :=
  { Sched.sample 8 with
    vm := booted 8 2048#32
    mms := fun i => if i = 0 then initMm else secondMm
    task := fun p => { Sched.blankTask with mm := some p, context := .switchTo [] } }

theorem second_isTable (i f : ℕ) : ¬ (booted 8 2048#32).IsTable 3 i f := by
  rintro ⟨-, -, hp, -⟩
  exact not_present_zero hp

theorem second_paging : (booted 8 2048#32).paging secondMm.pgdir = {3} := by
  ext f
  constructor
  · rintro (rfl | ⟨i, hi⟩)
    · rfl
    · exact absurd hi (second_isTable i f)
  · rintro rfl
    exact Or.inl rfl

theorem second_space : (booted 8 2048#32).Space secondMm (Set.Ico 4 (4 + 8)) [] := by
  have h := booted_space (n := 8) (by decide) 2048#32 (by decide)
  refine ⟨rfl, h.lists, h.low, ⟨fun i f hi => ?_, fun i j f hi => ?_, ?_⟩, fun hp => ?_, by simp⟩
  · exact absurd hi (second_isTable i f)
  · exact absurd hi (second_isTable i f)
  · rw [booted_freePages (by decide), second_paging]
    rintro f rfl hf
    rw [Set.mem_Ico] at hf
    omega
  · exact absurd hp not_present_zero

theorem twoSpaces_disjoint :
    Disjoint ((booted 8 2048#32).paging initMm.pgdir)
      ((booted 8 2048#32).paging secondMm.pgdir) := by
  rw [second_paging, Set.disjoint_singleton_right]
  rintro (hf | ⟨i, hi⟩)
  · exact absurd hf (by decide)
  · have hi' : (sample 8 2048#32).IsTable 1 i 3 := hi
    exact absurd (sample_isTable 2048#32 hi').2 (by decide)

theorem twoSpaces_separate : twoSpaces.Separate sampleMms (Set.Ico 4 (4 + 8)) := by
  refine ⟨initMm, [], ⟨?_, ?_, ?_, Or.inl rfl, rfl⟩, 0, rfl, rfl⟩
  · rintro mm (rfl | rfl)
    · exact booted_space (by decide) 2048#32 (by decide)
    · exact second_space
  · rintro mm (rfl | rfl) <;> decide
  · rintro mm (rfl | rfl) mm' (rfl | rfl) hne
    · exact absurd rfl hne
    · exact twoSpaces_disjoint
    · exact twoSpaces_disjoint.symm
    · exact absurd rfl hne

/-- Process 1 swaps a page in and out again. -/
def sampleOps : List TlbOp :=
  [.procRun 1 [], .getPte secondMm 0x400000#32, .swapIn secondMm 0x400000#32, .swapOut secondMm 1]

theorem tlb_coherent_sample : ∃ c r, sampleOps.foldlM exec (flushed twoSpaces) = some c ∧
    (∀ la, ∀ pte ∈ c.cache (pagNum la), c.vm.walk (pagNum c.vm.cr3) la = some pte) ∧
    r ∈ c.releases ∧ r.cache (pagNum 0x400000#32) = ∅ := by
  have hsome : (sampleOps.foldlM exec (flushed twoSpaces)).map (fun c =>
      c.releases.map fun r => (r.pgdir, r.addr, r.vm.cr3)) =
        some [(3, 0x400000#32, page2pa 3)] := by
    decide +kernel
  obtain ⟨c, hc, hreleases⟩ := Option.map_eq_some_iff.mp hsome
  obtain ⟨r, hr, hrel⟩ := List.mem_map.mp (hreleases ▸ List.mem_singleton_self _)
  obtain ⟨hpgdir, hrel⟩ := Prod.mk.inj hrel
  obtain ⟨haddr, hcr3⟩ := Prod.mk.inj hrel
  have hsecond : secondMm ∈ sampleMms := Or.inr rfl
  have hslot : pdx 0x400000#32 ≠ pdx VPT := by decide
  have hallowed : Allowed exec (Ordered sampleMms) sampleOps (flushed twoSpaces) := by
    refine ⟨⟨⟨secondMm, hsecond, 1, rfl, rfl⟩, trivial⟩, fun _ _ => ⟨⟨hsecond, ?_⟩, fun _ _ =>
      ⟨⟨hsecond, hslot⟩, fun _ _ => ⟨⟨hsecond, trivial⟩, fun _ _ => trivial⟩⟩⟩⟩
    exact fun hv => absurd hv hslot
  obtain ⟨hcoherent, hall⟩ := tlb_coherent twoSpaces_separate (Run.of_foldlM hallowed hc)
  refine ⟨c, r, hc, hcoherent, hr, ?_⟩
  rw [← haddr]
  exact (hall r hr).2 (by rw [hpgdir, hcr3])

/-- The page at 4 MB goes out from the directory that is not in use, while the other one maps
another page there. -/
def inactiveOps : List TlbOp :=
  [.getPte secondMm 0x400000#32, .swapIn secondMm 0x400000#32,
    .pageInsert initMm 7 0x400000#32 PTE_W, .swapOut secondMm 1]

/-- An entry of the directory written through its self-mapping slot leaves entries in the TLB that
the tables do not give any more. So does a store to a page table. And when `swap_out` frees a frame
of a directory that is not in use, the TLB may hold an entry for the address, which is one of the
directory in use. -/
theorem tlb_keeps_entries : twoSpaces.Separate sampleMms (Set.Ico 4 (4 + 8)) ∧
    (∃ c, Run exec (Callable sampleMms) (flushed twoSpaces) c ∧
      (flushed twoSpaces).exec
        (.pageInsert initMm 5 (pageAddr (pdx VPT) (pdx KERNEL_BASE)) PTE_W) = some c ∧
      ∃ pte ∈ c.cache (pagNum KERNEL_BASE), c.vm.walk (pagNum c.vm.cr3) KERNEL_BASE ≠ some pte) ∧
    (∃ c, Run exec (Callable sampleMms) (flushed twoSpaces) c ∧
      (flushed twoSpaces).exec (.access 0xC0002000#32 0x2003#32 (some 0#32)) = some c ∧
      ∃ pte ∈ c.cache (pagNum KERNEL_BASE), c.vm.walk (pagNum c.vm.cr3) KERNEL_BASE ≠ some pte) ∧
    ∃ c r, Run exec (Callable sampleMms) (flushed twoSpaces) c ∧
      inactiveOps.foldlM exec (flushed twoSpaces) = some c ∧ r ∈ c.releases ∧
      (r.cache (pagNum r.addr)).Nonempty := by
  have hfirst : initMm ∈ sampleMms := Or.inl rfl
  have hsecond : secondMm ∈ sampleMms := Or.inr rfl
  have hkernel : 0x3#32 ∈ (flushed twoSpaces).cache (pagNum KERNEL_BASE) :=
    mem_translations.mpr (by decide +kernel)
  refine ⟨twoSpaces_separate, ?_, ?_, ?_⟩
  · have hallowed : Callable sampleMms (flushed twoSpaces)
        (.pageInsert initMm 5 (pageAddr (pdx VPT) (pdx KERNEL_BASE)) PTE_W) := hfirst
    have hexec : ∃ c, (flushed twoSpaces).exec
        (.pageInsert initMm 5 (pageAddr (pdx VPT) (pdx KERNEL_BASE)) PTE_W) = some c ∧
        0x3#32 ∈ c.cache (pagNum KERNEL_BASE) ∧ c.vm.walk (pagNum c.vm.cr3) KERNEL_BASE = none := by
      rw [exec, pageInsert_of_present (by decide)]
      refine ⟨_, rfl, ?_, by decide +kernel⟩
      -- only the entry of the page in the self-mapping slot is dropped
      apply mem_tlbInvl (by decide)
      exact Or.inl (Or.inl hkernel)
    obtain ⟨c, hc, hmem, hwalk⟩ := hexec
    refine ⟨c, Run.single ⟨_, hallowed, hc⟩, hc, 0x3#32, hmem, ?_⟩
    rw [hwalk]
    simp
  · have hexec : (flushed twoSpaces).exec (.access 0xC0002000#32 0x2003#32 (some 0#32)) =
        some ((flushed twoSpaces).setWord 2 0 0#32) := by
      rfl
    have hmem : 0x2003#32 ∈ (flushed twoSpaces).cache (pagNum 0xC0002000#32) :=
      mem_translations.mpr (by decide +kernel)
    refine ⟨_, Run.single ⟨_, ?_, hexec⟩, hexec, 0x3#32, Or.inl hkernel, by decide +kernel⟩
    exact hmem
  · have hsome : (inactiveOps.foldlM exec (flushed twoSpaces)).map (fun c =>
        c.releases.map fun r => r.vm.walk (pagNum r.vm.cr3) r.addr) = some [some 0x7003#32] := by
      decide +kernel
    obtain ⟨c, hc, hreleases⟩ := Option.map_eq_some_iff.mp hsome
    obtain ⟨r, hr, hwalk⟩ := List.mem_map.mp (hreleases ▸ List.mem_singleton_self _)
    have hallowed : Allowed exec (Callable sampleMms) inactiveOps (flushed twoSpaces) :=
      ⟨hsecond, fun _ _ => ⟨hsecond, fun _ _ => ⟨hfirst, fun _ _ => ⟨hsecond, fun _ _ =>
        trivial⟩⟩⟩⟩
    refine ⟨c, r, Run.of_foldlM hallowed hc, hc, hr, 0x7003#32, r.closed _ ?_⟩
    exact mem_translations.mpr hwalk

end Cached
end Zonix
