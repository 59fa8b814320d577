import Zonix.Mm.SwapCount
import Zonix.Mm.SwapRoundTrip

/-!
# What failed calls leave behind

A call that takes a page, a victim or a page table before the steps that can fail has to give it
back. `swap_in` does, on each of its exits. `swap_out` does not put a victim back on the queue that
it could not write, and `pgdir_alloc_page` does not look at what `page_insert` returns.
-/

namespace Zonix
open Lib

namespace Vm

/-! ## `swap_out` -/

/-- What is expected of an iteration that does not evict the victim it picked: nothing happened. -/
structure VictimKept (s t : Vm) (mm : MmStruct) (v : ℕ) : Prop where
  mem : t.mem = s.mem
  freePages : t.pmm.freePages = s.pmm.freePages
  queued : t.Queued mm v

section Iteration
variable {s t : Vm} {mm : MmStruct} {ram : Set ℕ} {qs : List ℕ} {v : ℕ}

/-- An iteration that ends with `continue` did nothing but take the victim off the queue. -/
theorem SwapOutOne.skipped (ho : SwapOutOne s mm .skip t)
    (hv : listNext s.pmm.link mm.swapList = .pageLink v) :
    t.mem = s.mem ∧ t.pmm = (s.dequeued v).pmm := by
  cases ho with
  | notFound hn =>
    obtain rfl := ListEntry.pageLink.inj (hn.symm.trans hv)
    exact ⟨rfl, rfl⟩
  | @writeFailed w r t hn hfind hp hw hr =>
    obtain rfl := ListEntry.pageLink.inj (hn.symm.trans hv)
    have hmem := (s.dequeued w).swapfsWrite_mem (s.swapOffset <<< 8) w
    have hpmm := (s.dequeued w).swapfsWrite_pmm (s.swapOffset <<< 8) w
    rw [hw] at hmem hpmm
    exact ⟨hmem, hpmm⟩

/-- An iteration whose victim is not found, or not written, ends with `continue`. -/
theorem SwapOutOne.skip_of_failed {o : Outcome} (ho : SwapOutOne s mm o t)
    (hmm : mm.swapList = .praListHead) (hv : listNext s.pmm.link mm.swapList = .pageLink v)
    (hfail : s.findVaddrForPage mm v = 0#32 ∨
      ((s.dequeued v).swapfsWrite (s.swapOffset <<< 8) v).1 ≠ 0) : o = .skip := by
  cases ho with
  | stop hn =>
    rw [hv, hmm] at hn
    exact absurd hn (by simp)
  | notFound | writeFailed => rfl
  | evicted hn hfind hp hw =>
    obtain rfl := ListEntry.pageLink.inj (hn.symm.trans hv)
    rcases hfail with hz | hr
    · exact absurd hz hfind
    · rw [hw] at hr
      exact absurd rfl hr

/-- The victim is off the queue after the iteration, however it ends. -/
theorem not_queued_of_tail (h : s.pmm.Lists ram qs) (hmm : mm.swapList = .praListHead)
    (hv : listNext s.pmm.link mm.swapList = .pageLink v) (ht : t.pmm.Lists ram qs.tail) :
    ¬ t.Queued mm v := by
  have hnd := h.queue_nodup
  rw [h.eq_cons_of_next (hmm ▸ hv), List.nodup_cons] at hnd
  rw [queued_iff ht hmm]
  exact hnd.1

/-- Whenever the victim is not found, or cannot be written, the tables and the free pages are as
before, but the victim is lost to the queue. -/
theorem failed_iteration_loses_victim (h : s.pmm.Lists ram qs) (hmm : mm.swapList = .praListHead)
    (hv : listNext s.pmm.link mm.swapList = .pageLink v)
    (hfail : s.findVaddrForPage mm v = 0#32 ∨
      ((s.dequeued v).swapfsWrite (s.swapOffset <<< 8) v).1 ≠ 0) :
    ∃ t, s.swapOutOne mm = some (.skip, t) ∧ t.mem = s.mem ∧
      t.pmm.freePages = s.pmm.freePages ∧ ¬ t.Queued mm v ∧ ¬ s.VictimKept t mm v := by
  obtain ⟨o, t, heq, ho, hlists, -⟩ := swapOutOne_spec h hmm
  obtain rfl := ho.skip_of_failed hmm hv hfail
  obtain ⟨hmem, hpmm⟩ := ho.skipped hv
  have hqs : qs = v :: qs.tail := h.eq_cons_of_next (hmm ▸ hv)
  have hfree : t.pmm.freePages = s.pmm.freePages := by
    rw [hpmm]
    exact (hqs ▸ h).dequeue.2
  have hlost := not_queued_of_tail h hmm hv hlists
  exact ⟨t, heq, hmem, hfree, hlost, fun hkept => hlost hkept.queued⟩

end Iteration

/-- A page of the small machine is queued, and the disk refuses to write it. -/
theorem unmappedOps_failing : ∃ (s : Vm) (qs : List ℕ),
    s.Space initMm (Set.Ico 4 (4 + 8)) qs ∧
    listNext s.pmm.link initMm.swapList = .pageLink 4 ∧
    ((s.dequeued 4).swapfsWrite (s.swapOffset <<< 8) 4).1 ≠ 0 := by
  have heq : (unmappedOps.foldlM (exec initMm) (booted 8 1024#32)).map (fun u =>
      (listNext u.failing.pmm.link initMm.swapList,
        ((u.failing.dequeued 4).swapfsWrite (u.failing.swapOffset <<< 8) 4).1)) =
      some (.pageLink 4, -1) := by decide +kernel
  obtain ⟨u, hexec, heq⟩ := Option.map_eq_some_iff.mp heq
  obtain ⟨hnext, hwrite⟩ := Prod.mk.inj heq
  obtain ⟨qs, hspace⟩ := run_space (booted_space (by decide) 1024#32 (by decide))
    (Run.of_foldlM unmappedOps_allowed hexec)
  exact ⟨u.failing, qs, hspace.failing, hnext, by rw [hwrite]; decide⟩

/-- The write fails, and the victim is gone from the queue. -/
theorem failed_write_drops_victim : ∃ (s : Vm) (qs : List ℕ),
    s.Space initMm (Set.Ico 4 (4 + 8)) qs ∧
    listNext s.pmm.link initMm.swapList = .pageLink 4 ∧
    ∃ t, s.swapOutOne initMm = some (.skip, t) ∧ ¬ s.VictimKept t initMm 4 := by
  obtain ⟨s, qs, hspace, hnext, hwrite⟩ := unmappedOps_failing
  obtain ⟨o, t, heq, ho, hlists, -⟩ := swapOutOne_spec hspace.lists hspace.head
  obtain rfl := ho.skip_of_failed hspace.head hnext (Or.inr hwrite)
  have hlost := not_queued_of_tail hspace.lists hspace.head hnext hlists
  exact ⟨s, qs, hspace, hnext, t, heq, fun hkept => hlost hkept.queued⟩

theorem failed_iteration_loses_victim_four : ∃ s t : Vm, s.swapOutOne initMm = some (.skip, t) ∧
    t.mem = s.mem ∧ t.pmm.freePages = s.pmm.freePages ∧ ¬ t.Queued initMm 4 ∧
      ¬ s.VictimKept t initMm 4 := by
  obtain ⟨s, qs, hspace, hnext, hwrite⟩ := unmappedOps_failing
  obtain ⟨t, ht⟩ := failed_iteration_loses_victim hspace.lists hspace.head hnext (Or.inr hwrite)
  exact ⟨s, t, ht⟩

/-! ## `swap_in` -/

/-- Nothing changed but the content of a frame that is free, the one that was taken. -/
structure Undone (s t : Vm) (mm : MmStruct) (ram : Set ℕ) (qs : List ℕ) : Prop where
  freePages : t.pmm.freePages = s.pmm.freePages
  queue : t.pmm.Lists ram qs
  pde : ∀ i, t.mem mm.pgdir i = s.mem mm.pgdir i
  pte : ∀ la, t.pteAt mm.pgdir la = s.pteAt mm.pgdir la
  content : ∀ f, f ∉ s.pmm.freePages → ∀ j, t.mem f j = s.mem f j
  others : ∃ page, ∀ f, f ≠ page → ∀ j, t.mem f j = s.mem f j

section SwapIn
variable {s t : Vm} {mm : MmStruct} {ram : Set ℕ} {qs : List ℕ} {addr : Word} {q : ℕ}

/-- The page that was loaded is mapped, whatever the frame held. -/
theorem SwapIn.maps (hpg : s.PgdirOk mm.pgdir) (hlow : ∀ p ∈ s.pmm.freePages, p < 2 ^ 20)
    (hv : pdx addr ≠ pdx VPT) {r : ℤ} (hin : SwapIn s mm addr r (some q) t) :
    r = 0 ∧ q ∈ s.pmm.freePages ∧ t.Maps mm.pgdir addr q := by
  generalize hpq : some q = p at hin
  cases hin with
  | exhausted | noTable | readFailed => exact absurd hpq (by simp)
  | @loaded page pmm res u w ht hp hread hins =>
    obtain rfl := Option.some.inj hpq
    obtain ⟨hfree, htaken⟩ := ht.one
    -- the frame that was filled holds neither the directory nor a page table
    obtain ⟨hupmm, hframes⟩ := read_into (hlow q hfree) hread
    have hmem : ∀ j, u.mem mm.pgdir j = s.mem mm.pgdir j :=
      hframes _ fun heq => hpg.notFree _ (Or.inl rfl) (heq ▸ hfree)
    have hsub : ∀ p ∈ u.pmm.freePages, p ∈ s.pmm.freePages := by
      rw [hupmm]
      exact fun p hp' => ht.freePages_subset hp'
    have hu : u.PgdirOk mm.pgdir :=
      hpg.congr hmem fun f hf hf' => hpg.notFree f hf (hsub f hf')
    have hpte := hins.pteAt hu (fun p hp' => hlow p (hsub p hp')) hv hv
    have hres : res = INSERT_SUCCESS := by
      cases hins with
      | failure hno =>
        rw [hmem] at hno
        exact absurd hp hno
      | success => rfl
    rw [if_pos ⟨hres, rfl⟩] at hpte
    exact ⟨rfl, hfree, maps_of_entry hpte (hlow q hfree) (by decide)⟩

/-- On the error paths of `swap_in` the disk may have written to the frame that was taken. -/
theorem SwapIn.one_frame (hlow : ∀ p ∈ s.pmm.freePages, p < 2 ^ 20) {r : ℤ} {p : Option ℕ}
    (hin : SwapIn s mm addr r p t) (hp : p = none) :
    ∃ page, ∀ f, f ≠ page → ∀ j, t.mem f j = s.mem f j := by
  cases hin with
  | exhausted => exact ⟨0, fun f _ j => rfl⟩
  | @noTable page => exact ⟨page, fun f _ j => rfl⟩
  | @readFailed page pmm pmm' r u ht hpres hread hr hg =>
    exact ⟨page, (read_into (hlow page ht.one.1) hread).2⟩
  | loaded => exact absurd hp (by simp)

/-- `swap_in` either changes nothing but the content of a free frame, or maps the address to a page
that was free, and queues that page behind the others. -/
theorem swapIn_atomic (h : s.pmm.Lists ram qs) (hmm : mm.swapList = .praListHead)
    (hlow : ∀ p ∈ ram, p < 2 ^ 20) (hpg : s.PgdirOk mm.pgdir)
    (hself : Present (s.mem mm.pgdir (pdx VPT)) → pagNum (s.mem mm.pgdir (pdx VPT)) = mm.pgdir)
    (hv : pdx addr ≠ pdx VPT) :
    ∃ r p t, s.swapIn mm addr = some (r, p, t) ∧ (r = -1 ∨ r = 0) ∧
      (r = -1 → p = none ∧ s.Undone t mm ram qs) ∧
      (r = 0 → ∃ q, p = some q ∧ q ∈ s.pmm.freePages ∧ t.Maps mm.pgdir addr q ∧
        t.pmm.link.Ring .praListHead ((qs ++ [q]).map .pageLink)) := by
  obtain ⟨bs, hinv⟩ := h.free
  have hfreeLow : ∀ p ∈ s.pmm.freePages, p < 2 ^ 20 := fun p hp => hlow p (hinv.mem_ram hp)
  obtain ⟨r, p, t, heq, hin, hlists⟩ := swapIn_spec h hmm addr
  refine ⟨r, p, t, heq, ?_⟩
  cases p with
  | none =>
    obtain ⟨rfl, hsame⟩ := hin.same_of_low hfreeLow rfl
    refine ⟨Or.inl rfl, fun _ => ⟨rfl, ?_⟩, fun hr => absurd hr (by decide)⟩
    have hpaging : ∀ f ∈ s.paging mm.pgdir, ∀ j, t.mem f j = s.mem f j := fun f hf =>
      hsame.mem f (hpg.notFree f hf)
    rw [Option.toList_none, List.append_nil] at hlists
    exact ⟨hsame.free, hlists, hpaging _ (Or.inl rfl), pteAt_of_paging hself hpaging, hsame.mem,
      hin.one_frame hfreeLow rfl⟩
  | some q =>
    obtain ⟨rfl, hfree, hmaps⟩ := hin.maps hpg hfreeLow hv
    exact ⟨Or.inr rfl, fun hr => absurd hr (by decide),
      fun _ => ⟨q, rfl, hfree, hmaps, hlists.queue⟩⟩

end SwapIn

/-- The page at 4 MB of the small machine goes to the disk, and `swap_in` is called for it. -/
theorem swapIn_atomic_four : ∃ (s : Vm) (qs : List ℕ), s.pteAt initMm.pgdir 0x400000#32 = 0x100#32 ∧
    ∃ r p t, s.swapIn initMm 0x400000#32 = some (r, p, t) ∧ (r = -1 ∨ r = 0) ∧
      (r = -1 → p = none ∧ s.Undone t initMm (Set.Ico 4 (4 + 8)) qs) ∧
      (r = 0 → ∃ q, p = some q ∧ q ∈ s.pmm.freePages ∧ t.Maps initMm.pgdir 0x400000#32 q ∧
        t.pmm.link.Ring .praListHead ((qs ++ [q]).map .pageLink)) := by
  have heq : ((mappedOps.foldlM (exec initMm) (booted 8 2048#32)).bind fun u =>
      (u.swapOut initMm 1).map fun x => x.2.pteAt initMm.pgdir 0x400000#32) =
      some 0x100#32 := by decide +kernel
  obtain ⟨u, hexec, heq⟩ := Option.bind_eq_some_iff.mp heq
  obtain ⟨⟨r, s⟩, hout, hpte⟩ := Option.map_eq_some_iff.mp heq
  obtain ⟨qs, hu⟩ := run_space (booted_space (by decide) 2048#32 (by decide))
    (Run.of_foldlM mappedOps_allowed hexec)
  obtain ⟨qs', hs⟩ := hu.swapOut hout
  exact ⟨s, qs', hpte, swapIn_atomic hs.lists hs.head hs.low hs.pgdir hs.self (by decide)⟩

/-! ## `pgdir_alloc_page` -/

/-- The page of the address is mapped to the page with these permissions. -/
def MapsWith (s : Vm) (pgdir : ℕ) (la : Word) (page : ℕ) (perm : Word) : Prop :=
  s.pteAt pgdir la = page2pa page ||| perm ||| PTE_P ∧
    (perm < 0x1000#32 → s.Maps pgdir la page)

/-- What is expected of `pgdir_alloc_page`: a page that is mapped at the address; or `NULL`, with
every entry and the number of free pages as before. -/
def AllOrNothing (s : Vm) (pgdir : ℕ) (la perm : Word) : Prop :=
  ∃ p t, s.pgdirAllocPage pgdir la perm = some (p, t) ∧
    ((∃ page, p = some page ∧ t.MapsWith pgdir la page perm) ∨
      p = none ∧ (∀ i, t.mem pgdir i = s.mem pgdir i) ∧
        (∀ la', t.pteAt pgdir la' = s.pteAt pgdir la') ∧ t.pmm.nrFree = s.pmm.nrFree)

section PgdirAllocPage
variable {s t : Vm} {pgdir page : ℕ} {la perm : Word} {ram : Set ℕ} {bs : List Extent}

theorem mapsWith_of_pteAt (h : s.pteAt pgdir la = page2pa page ||| perm ||| PTE_P)
    (hpage : page < 2 ^ 20) : s.MapsWith pgdir la page perm :=
  ⟨h, fun hperm => maps_of_entry h hpage hperm⟩

/-- A page that is entered in a page table other than the directory is mapped. -/
theorem pteAt_mapPage (s : Vm) {table i : ℕ} (hp : Present (s.mem pgdir (pdx la)))
    (htable : pagNum (s.mem pgdir (pdx la)) = table) (hi : i = ptx la) (hne : table ≠ pgdir) :
    (s.mapPage pgdir page la perm table i).pteAt pgdir la = page2pa page ||| perm ||| PTE_P := by
  have hpde : (s.mapPage pgdir page la perm table i).mem pgdir (pdx la) = s.mem pgdir (pdx la) := by
    rw [mapPage_mem, if_neg fun hh => hne hh.1.symm]
  rw [pteAt, hpde, if_pos hp, htable, mapPage_mem, if_pos ⟨rfl, hi.symm⟩]

/-- `page_insert` that reports success has mapped the page. -/
theorem PageInsert.mapped (hins : PageInsert s pgdir page la perm INSERT_SUCCESS t)
    (hpage : page < 2 ^ 20) (hlow : ∀ p ∈ s.pmm.freePages, p < 2 ^ 20)
    (hdir : pgdir ∉ s.pmm.freePages)
    (hne : Present (s.mem pgdir (pdx la)) → pagNum (s.mem pgdir (pdx la)) ≠ pgdir) :
    t.MapsWith pgdir la page perm := by
  generalize hres : INSERT_SUCCESS = res at hins
  cases hins with
  | failure => exact absurd hres (by decide)
  | success hget =>
    refine mapsWith_of_pteAt ?_ hpage
    cases hget with
    | table hp => exact pteAt_mapPage s hp rfl rfl (hne hp)
    | created p pmm hp hc ht =>
      have hfree := ht.one.1
      have hpag := pagNum_page2pa (hlow p hfree)
      have hself : p ≠ pgdir := fun heq => hdir (heq ▸ hfree)
      have hpde : (s.newTable pgdir la p pmm).mem pgdir (pdx la) = page2pa p ||| PTE_USER := by
        rw [newTable_mem, if_pos ⟨rfl, rfl⟩]
      refine pteAt_mapPage _ ?_ (by rw [hpde]) rfl ?_
      · rw [hpde]
        exact (present_or _ _).mpr (Or.inr present_PTE_USER)
      · rwa [pagNum_or (by decide), hpag]

/-- `page_insert` fails when it needs a page table and no page is free. -/
theorem PageInsert.failure_iff {res : ℤ} (hins : PageInsert s pgdir page la perm res t) :
    res = INSERT_FAILURE ↔ ¬ Present (s.mem pgdir (pdx la)) ∧ s.pmm.freePages = ∅ := by
  cases hins with
  | failure hp hfree => exact iff_of_true rfl ⟨hp, hfree⟩
  | success hget =>
    refine iff_of_false (by decide) fun ⟨hno, hempty⟩ => ?_
    cases hget with
    | table hp => exact hno hp
    | created p pmm hp hc ht =>
      have hfree := ht.one.1
      rw [hempty] at hfree
      exact hfree

/-- The page that was taken was the last one. -/
theorem takes_last_iff (h : s.pmm.Inv ram bs) {pmm : Pmm} (ht : s.pmm.Takes 1 page pmm) :
    pmm.freePages = ∅ ↔ s.pmm.nrFree = 1 := by
  obtain ⟨bs', hinv⟩ := ht.inv ram bs h
  have hnr := ht.nrFree
  have hpos : s.pmm.nrFree ≠ 0 := by
    rw [Ne, h.nrFree_eq_zero_iff]
    exact fun hempty => absurd ht.one.1 (hempty ▸ Set.notMem_empty page)
  rw [← hinv.nrFree_eq_zero_iff]
  omega

/-- `pgdir_alloc_page` is all or nothing, unless it takes the last free page and the address has no
page table yet. -/
theorem pgdirAllocPage_allOrNothing_iff (h : s.pmm.Inv ram bs) (hlow : ∀ p ∈ ram, p < 2 ^ 20)
    (hdir : pgdir ∉ s.pmm.freePages)
    (hne : Present (s.mem pgdir (pdx la)) → pagNum (s.mem pgdir (pdx la)) ≠ pgdir) :
    s.AllOrNothing pgdir la perm ↔ Present (s.mem pgdir (pdx la)) ∨ s.pmm.nrFree ≠ 1 := by
  obtain ⟨p, t, heq, hall⟩ := pgdirAllocPage_spec h pgdir la perm
  cases hall with
  | exhausted hempty =>
    refine iff_of_true ⟨none, s, heq, Or.inr ⟨rfl, fun _ => rfl, fun _ => rfl, rfl⟩⟩ (Or.inr ?_)
    rw [← h.nrFree_eq_zero_iff] at hempty
    omega
  | @allocated page pmm res t ht hins =>
    have hlow' : ∀ p ∈ (s.setPmm pmm).pmm.freePages, p < 2 ^ 20 := fun p hp =>
      hlow p (h.mem_ram (ht.freePages_subset hp))
    have hdir' : pgdir ∉ (s.setPmm pmm).pmm.freePages := fun hp => hdir (ht.freePages_subset hp)
    -- the one page that was free is taken, and none is left for a page table
    have hfail := hins.failure_iff
    rw [setPmm_pmm, takes_last_iff h ht, setPmm_mem] at hfail
    by_cases hres : res = INSERT_FAILURE
    · obtain ⟨hp, hlast⟩ := hfail.mp hres
      refine iff_of_false ?_ (by rintro (hh | hh) <;> contradiction)
      rintro ⟨p', t', heq', hdone⟩
      obtain ⟨rfl, rfl⟩ := Prod.mk.inj (Option.some.inj (heq.symm.trans heq'))
      rcases hdone with ⟨page', hpage, hmaps, -⟩ | ⟨hnone, -⟩
      · cases hins with
        | failure =>
          rw [pteAt_of_not_present (by exact hp)] at hmaps
          exact not_present_zero (hmaps ▸ present_entry _)
        | success => exact absurd hres (by decide)
      · exact absurd hnone (by simp)
    · have hsuccess : res = INSERT_SUCCESS := by
        cases hins with
        | failure => exact absurd rfl hres
        | success => rfl
      subst hsuccess
      have hmapped := hins.mapped (hlow page (h.mem_ram ht.one.1)) hlow' hdir' hne
      refine iff_of_true ⟨some page, t, heq, Or.inl ⟨page, rfl, hmapped⟩⟩ ?_
      by_contra hno
      rw [not_or, not_not] at hno
      exact hres (hfail.mpr hno)

end PgdirAllocPage

/-- The last free page is returned, and is not mapped: no page was left for a page table. -/
theorem pgdirAllocPage_last_page :
    ¬ (booted 1 1024#32).AllOrNothing initMm.pgdir 0x400000#32 PTE_U := by
  rintro ⟨p, t, heq, hdone⟩
  have hcall : ((booted 1 1024#32).pgdirAllocPage initMm.pgdir 0x400000#32 PTE_U).map (fun x =>
      (x.1, x.2.pteAt initMm.pgdir 0x400000#32)) = some (some 4, 0#32) := by decide +kernel
  rw [heq, Option.map_some, Option.some.injEq, Prod.mk.injEq] at hcall
  obtain ⟨hp, hpte⟩ := hcall
  rcases hdone with ⟨page, -, hmaps, -⟩ | ⟨hnone, -⟩
  · exact not_present_zero (hpte ▸ hmaps ▸ present_entry _)
  · exact absurd (hp.symm.trans hnone) (by simp)

theorem pgdirAllocPage_allOrNothing_eight :
    (booted 8 1024#32).AllOrNothing initMm.pgdir 0x400000#32 PTE_U ↔
      Present ((booted 8 1024#32).mem initMm.pgdir (pdx 0x400000#32)) ∨
        (booted 8 1024#32).pmm.nrFree ≠ 1 := by
  have h := booted_space (n := 8) (by decide) 1024#32 (by decide)
  obtain ⟨bs, hinv⟩ := h.lists.free
  exact pgdirAllocPage_allOrNothing_iff hinv h.low (h.pgdir.notFree _ (Or.inl rfl)) (by decide)

end Vm
end Zonix
