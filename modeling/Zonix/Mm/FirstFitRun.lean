import Zonix.Mm.FirstFitTheorems
import Zonix.Lib.Machine

/-!
# Histories of the first-fit allocator

`Managed` is the allocator together with what its callers know: the pages that were ever
initialised and, for each allocation, those of its pages that were not given back yet. An
allocation may be given back in pieces, and one `free` may give back pages of several
allocations.
-/

namespace Zonix
open Lib

inductive PmmOp
  | initMemmap (base n : ℕ)
  | alloc (n : ℕ)
  | free (base n : ℕ)

/-- The allocator, the initialised pages, and the pages that each allocation still holds. -/
structure Managed where
  pmm : Pmm
  ram : Set ℕ
  live : List (Set ℕ)

theorem Pmm.Inv.wellFormed {s : Pmm} {ram : Set ℕ} {bs : List Extent} (h : s.Inv ram bs) :
    s.WellFormed ram (bs.map Extent.base) := by
  refine ⟨?_, ?_, ?_, ?_, h.reserved, ?_⟩
  · rw [List.map_map]
    exact h.ring
  · intro p hp
    obtain ⟨e, he, rfl⟩ := List.mem_map.mp hp
    rw [h.property e he]
    exact h.separate.pos e he
  · intro p hp
    obtain ⟨e, he, rfl⟩ := List.mem_map.mp hp
    rw [h.toRep.block_eq he]
    exact (Extents.cells_subset_cover he).trans h.inRam
  · rw [List.pairwise_map]
    refine h.separate.apart.imp_of_mem fun he hf hap => ?_
    rw [h.toRep.block_eq he, h.toRep.block_eq hf]
    exact hap.disjoint
  · rw [h.nrFree, Extents.total, List.map_map]
    exact congrArg List.sum (List.map_congr_left fun e he => (h.property e he).symm)

namespace Managed

/-- After `init`, wherever the memory was before. -/
def boot (s : Pmm) : Managed := ⟨s.init, ∅, []⟩

def exec (h : Managed) : PmmOp → Option Managed
  | .initMemmap base n =>
    some ⟨h.pmm.initMemmap base n, h.ram ∪ Set.Ico base (base + n), h.live⟩
  | .alloc n => do
    match ← h.pmm.alloc n with
    | (none, s) => some ⟨s, h.ram, h.live⟩
    | (some p, s) => some ⟨s, h.ram, Set.Ico p (p + n) :: h.live⟩
  | .free base n => do
    let s ← h.pmm.free base n
    some ⟨s, h.ram, h.live.map (· \ Set.Ico base (base + n))⟩

/-- What the callers owe: sizes are positive, no page is initialised twice, and only pages
that were initialised and are not free are freed. -/
def ok (h : Managed) : PmmOp → Prop
  | .initMemmap base n => 1 ≤ n ∧ Disjoint (Set.Ico base (base + n)) h.ram
  | .alloc n => 1 ≤ n
  | .free base n => 1 ≤ n ∧ Set.Ico base (base + n) ⊆ h.ram ∧
      Disjoint (Set.Ico base (base + n)) h.pmm.freePages

/-- The states of all runs from boot. -/
def Reachable (h : Managed) : Prop := ∃ s, Run exec ok (boot s) h

/-- The pages the allocations hold. -/
def held (live : List (Set ℕ)) : Set ℕ := {q | ∃ S ∈ live, q ∈ S}

/-- The free pages and the pages of the allocations partition the initialised pages. -/
structure Partition (free ram : Set ℕ) (live : List (Set ℕ)) : Prop where
  disjoint : live.Pairwise Disjoint
  notFree : ∀ S ∈ live, Disjoint S free
  union : free ∪ held live = ram

theorem Partition.take {free ram taken : Set ℕ} {live : List (Set ℕ)}
    (h : Partition free ram live) (ht : taken ⊆ free) :
    Partition (free \ taken) ram (taken :: live) := by
  refine ⟨List.Pairwise.cons (fun S hS => ?_) h.disjoint, fun S hS => ?_, ?_⟩
  · exact (h.notFree S hS).symm.mono_left ht
  · rcases List.mem_cons.mp hS with rfl | hS
    · exact Set.disjoint_sdiff_right
    · exact (h.notFree S hS).mono_right Set.sdiff_subset
  · rw [← h.union]
    ext q
    simp only [held, List.mem_cons, Set.mem_union, Set.mem_sdiff, Set.mem_ofPred_eq,
      exists_eq_or_imp]
    by_cases hq : q ∈ taken
    · simp [hq, ht hq]
    · simp [hq]

theorem Partition.give {free ram given : Set ℕ} {live : List (Set ℕ)}
    (h : Partition free ram live) (hg : given ⊆ ram) :
    Partition (free ∪ given) ram (live.map (· \ given)) := by
  refine ⟨?_, fun S hS => ?_, ?_⟩
  · rw [List.pairwise_map]
    exact h.disjoint.imp fun hST => hST.mono Set.sdiff_subset Set.sdiff_subset
  · obtain ⟨T, hT, rfl⟩ := List.mem_map.mp hS
    rw [Set.disjoint_union_right]
    exact ⟨(h.notFree T hT).mono_left Set.sdiff_subset, Set.disjoint_sdiff_left⟩
  · ext q
    have hq := Set.ext_iff.mp h.union q
    simp only [held, Set.mem_union, Set.mem_ofPred_eq] at hq
    simp only [held, List.mem_map, Set.mem_union, Set.mem_ofPred_eq, exists_exists_and_eq_and,
      Set.mem_sdiff]
    by_cases hqg : q ∈ given
    · simp [hqg, hg hqg]
    · simp [hqg, hq]

theorem Partition.grow {free ram fresh : Set ℕ} {live : List (Set ℕ)}
    (h : Partition free ram live) (hf : Disjoint fresh ram) :
    Partition (free ∪ fresh) (ram ∪ fresh) live := by
  refine ⟨h.disjoint, fun S hS => ?_, ?_⟩
  · rw [Set.disjoint_union_right]
    refine ⟨h.notFree S hS, hf.symm.mono_left ?_⟩
    rw [← h.union]
    exact fun q hq => Or.inr ⟨S, hS, hq⟩
  · rw [Set.union_right_comm, h.union]

/-- The invariant of every run. -/
structure Inv (h : Managed) (bs : List Extent) : Prop where
  pmm : h.pmm.Inv h.ram bs
  partition : Partition h.pmm.freePages h.ram h.live

theorem boot_inv (s : Pmm) : (boot s).Inv [] := by
  refine ⟨s.init_inv, List.Pairwise.nil, by simp [boot], ?_⟩
  show s.init.freePages ∪ held [] = ∅
  rw [s.init_inv.toRep.freePages_eq]
  simp [held]

section Step
variable {h : Managed} {bs : List Extent} {base n : ℕ}

theorem Inv.initMemmap (hi : h.Inv bs) (hok : h.ok (.initMemmap base n)) :
    ∃ h', h.exec (.initMemmap base n) = some h' ∧ h'.Inv (bs ++ [⟨base, n⟩]) := by
  obtain ⟨hn, hnew⟩ := hok
  have hspec := Pmm.initMemmap_spec hi.pmm hn hnew
  refine ⟨_, rfl, hspec.inv, ?_⟩
  show Partition (h.pmm.initMemmap base n).freePages _ _
  rw [hspec.freePages_eq hi.pmm]
  exact hi.partition.grow hnew

theorem Inv.alloc (hi : h.Inv bs) (hok : h.ok (.alloc n)) :
    ∃ h' bs', h.exec (.alloc n) = some h' ∧ h'.Inv bs' ∧ h'.ram = h.ram ∧
      (Extents.Coalesced bs → Extents.Coalesced bs') := by
  obtain ⟨r, s', heq, hspec⟩ := Pmm.alloc_spec hi.pmm hok
  cases r with
  | none =>
    obtain ⟨rfl, -⟩ := hspec.fail rfl
    exact ⟨h, bs, by simp [exec, heq], hi, rfl, id⟩
  | some p =>
    obtain ⟨htake, hfree⟩ := hspec.freePages_eq hi.pmm
    obtain ⟨as, e, cs, rfl, rfl, -, -, hinv, -⟩ := hspec.success p rfl
    refine ⟨⟨s', h.ram, Set.Ico e.base (e.base + n) :: h.live⟩, _, by simp [exec, heq],
      ⟨hinv, ?_⟩, rfl, fun hc => hc.take hi.pmm.separate⟩
    show Partition s'.freePages _ _
    rw [hfree]
    exact hi.partition.take htake

theorem Inv.free (hi : h.Inv bs) (hok : h.ok (.free base n)) :
    ∃ h' bs', h.exec (.free base n) = some h' ∧ h'.Inv bs' ∧ h'.ram = h.ram ∧
      (Extents.Coalesced bs → Extents.Coalesced bs') := by
  obtain ⟨hn, hram, hfree⟩ := hok
  obtain ⟨s', heq, hspec⟩ := Pmm.free_spec hi.pmm hn hram hfree
  refine ⟨⟨s', h.ram, h.live.map (· \ Set.Ico base (base + n))⟩, _, by simp [exec, heq],
    ⟨hspec.inv, ?_⟩, rfl, fun hc => ?_⟩
  · show Partition s'.freePages _ _
    rw [hspec.freePages_eq hi.pmm]
    exact hi.partition.give hram
  · exact (Extents.absorb_coalesced hc).perm (List.perm_append_singleton _ _).symm

/-- Every operation its callers may perform comes back, and keeps the invariant. -/
theorem Inv.exec (hi : h.Inv bs) {op : PmmOp} (hok : h.ok op) :
    ∃ h' bs', h.exec op = some h' ∧ h'.Inv bs' := by
  cases op with
  | initMemmap base n =>
    obtain ⟨h', heq, hi'⟩ := hi.initMemmap hok
    exact ⟨h', _, heq, hi'⟩
  | alloc n =>
    obtain ⟨h', bs', heq, hi', -⟩ := hi.alloc hok
    exact ⟨h', bs', heq, hi'⟩
  | free base n =>
    obtain ⟨h', bs', heq, hi', -⟩ := hi.free hok
    exact ⟨h', bs', heq, hi'⟩

end Step

theorem Reachable.inv {h : Managed} (hr : h.Reachable) : ∃ bs, h.Inv bs := by
  obtain ⟨s, hrun⟩ := hr
  refine hrun.invariant (I := fun h => ∃ bs, h.Inv bs) ⟨[], boot_inv s⟩ ?_
  rintro t op u ⟨bs, hi⟩ hok heq
  obtain ⟨u', bs', heq', hi'⟩ := hi.exec hok
  obtain rfl : u' = u := Option.some.inj (heq'.symm.trans heq)
  exact ⟨bs', hi'⟩

/-- The allocator right after the one `init_memmap(base, n)` of its history. -/
def single (s : Pmm) (base n : ℕ) : Managed :=
  ⟨s.init.initMemmap base n, Set.Ico base (base + n), []⟩

theorem boot_ok (s : Pmm) (base : ℕ) {n : ℕ} (hn : 1 ≤ n) : (boot s).ok (.initMemmap base n) :=
  ⟨hn, by simp [boot]⟩

theorem boot_exec (s : Pmm) (base n : ℕ) :
    (boot s).exec (.initMemmap base n) = some (single s base n) := by
  rw [exec, single, boot, Set.empty_union]

theorem single_reachable (s : Pmm) (base : ℕ) {n : ℕ} (hn : 1 ≤ n) :
    (single s base n).Reachable :=
  ⟨s, Run.single ⟨.initMemmap base n, boot_ok s base hn, boot_exec s base n⟩⟩

/-- The pages of one allocation may be given back. -/
theorem Inv.ok_free {h : Managed} {bs : List Extent} (hi : h.Inv bs) {S : Set ℕ}
    (hS : S ∈ h.live) {base n : ℕ} (hn : 1 ≤ n) (hsub : Set.Ico base (base + n) ⊆ S) :
    h.ok (.free base n) := by
  refine ⟨hn, ?_, (hi.partition.notFree S hS).mono_left hsub⟩
  rw [← hi.partition.union]
  exact fun q hq => Or.inr ⟨S, hS, hsub hq⟩

/-! ## The representation invariant -/

/-- In every reachable state the free list is well formed, and every operation comes back. -/
theorem Reachable.allocator_wellFormed {h : Managed} (hr : h.Reachable) :
    (∃ ps, h.pmm.WellFormed h.ram ps) ∧ ∀ op, h.ok op → ∃ h', h.exec op = some h' := by
  obtain ⟨bs, hi⟩ := hr.inv
  refine ⟨⟨bs.map Extent.base, hi.pmm.wellFormed⟩, fun op hok => ?_⟩
  obtain ⟨h', -, heq, -⟩ := hi.exec hok
  exact ⟨h', heq⟩

/-- Three pages are split off a block of eight. -/
theorem wellFormed_split : ∃ h, (single Pmm.blank 0 8).exec (.alloc 3) = some h ∧
    (∃ ps, h.pmm.WellFormed h.ram ps) ∧ h.pmm.nrFree = 5 := by
  refine ⟨_, rfl, ?_, rfl⟩
  obtain ⟨s, hrun⟩ := single_reachable Pmm.blank 0 (n := 8) (by decide)
  have hstep : Step exec ok (single Pmm.blank 0 8) _ := ⟨.alloc 3, (by decide : 1 ≤ 3), rfl⟩
  exact (Reachable.allocator_wellFormed ⟨s, hrun.tail hstep⟩).1

/-! ## Refinement of the set of free pages -/

/-- What `alloc(n)` must do for the callers: `none` is the null pointer. -/
structure AllocRefines (s : Pmm) (n : ℕ) (r : Option ℕ) (s' : Pmm) : Prop where
  null_iff : r = none ↔ ∀ p, s.Listed p → (s.page p).property < n
  unchanged : r = none → s' = s
  firstFit : ∀ p, r = some p → s.FirstFit n p
  wasFree : ∀ p, r = some p → Set.Ico p (p + n) ⊆ s.freePages
  taken : ∀ p, r = some p → s'.freePages = s.freePages \ Set.Ico p (p + n)

theorem Inv.alloc_refines {h : Managed} {bs : List Extent} (hi : h.Inv bs) {n : ℕ} (hn : 1 ≤ n) :
    ∃ r s', h.pmm.alloc n = some (r, s') ∧ AllocRefines h.pmm n r s' := by
  obtain ⟨r, s', heq, hspec⟩ := Pmm.alloc_spec hi.pmm hn
  refine ⟨r, s', heq, ⟨fun hr p hp => ?_, fun hall => ?_⟩, fun hr => (hspec.fail hr).1, ?_, ?_, ?_⟩
  · obtain ⟨e, he, rfl⟩ := List.mem_map.mp (hi.pmm.toRep.listed_iff.mp hp)
    rw [hi.pmm.property e he]
    exact (hspec.fail hr).2 e he
  · cases r with
    | none => rfl
    | some p =>
      -- the block that was found is a listed one that fits
      obtain ⟨as, e, cs, rfl, -, hfit, -⟩ := hspec.success p rfl
      have hlt := hall e.base (hi.pmm.toRep.listed_iff.mpr (by simp))
      rw [hi.pmm.property e (by simp)] at hlt
      omega
  · intro p hr
    obtain ⟨as, e, cs, rfl, rfl, hfit, hfirst, -⟩ := hspec.success p hr
    refine ⟨as.map Extent.base, cs.map Extent.base, ?_, ?_, ?_⟩
    · rw [← List.map_cons, ← List.map_append, List.map_map]
      exact hi.pmm.ring
    · rwa [hi.pmm.property e (by simp)]
    · intro q hq
      obtain ⟨f, hf, rfl⟩ := List.mem_map.mp hq
      rw [hi.pmm.property f (by simp [hf])]
      exact hfirst f hf
  · rintro p rfl
    exact (hspec.freePages_eq hi.pmm).1
  · rintro p rfl
    exact (hspec.freePages_eq hi.pmm).2

/-- The allocator refines a set of free pages, whatever the history. -/
theorem Reachable.refines_freePages {h : Managed} (hr : h.Reachable) :
    (∀ n, 1 ≤ n → ∃ r s', h.pmm.alloc n = some (r, s') ∧ AllocRefines h.pmm n r s') ∧
    (∀ base n, h.ok (.free base n) → ∃ s', h.pmm.free base n = some s' ∧
      s'.freePages = h.pmm.freePages ∪ Set.Ico base (base + n)) ∧
    Partition h.pmm.freePages h.ram h.live := by
  obtain ⟨bs, hi⟩ := hr.inv
  refine ⟨fun n hn => hi.alloc_refines hn, fun base n hok => ?_, hi.partition⟩
  obtain ⟨s', heq, hspec⟩ := Pmm.free_spec hi.pmm hok.1 hok.2.1 hok.2.2
  exact ⟨s', heq, hspec.freePages_eq hi.pmm⟩

/-- With two blocks of two pages each, a request for three pages is refused although four are
free, and changes nothing. -/
theorem refines_fragmented : ∃ h, (single Pmm.blank 0 2).exec (.initMemmap 3 2) = some h ∧
    h.pmm.alloc 3 = some (none, h.pmm) := by
  refine ⟨_, rfl, ?_⟩
  obtain ⟨s, hrun⟩ := single_reachable Pmm.blank 0 (n := 2) (by decide)
  have hnew : (single Pmm.blank 0 2).ok (.initMemmap 3 2) := by
    refine ⟨by decide, Set.disjoint_left.mpr fun q hq hq' => ?_⟩
    exact absurd (lt_of_lt_of_le hq'.2 (by decide)) (not_lt_of_ge hq.1)
  have hstep : Step exec ok (single Pmm.blank 0 2) _ := ⟨.initMemmap 3 2, hnew, rfl⟩
  obtain ⟨halloc, -⟩ := Reachable.refines_freePages ⟨s, hrun.tail hstep⟩
  obtain ⟨r, s', heq, hr⟩ := halloc 3 (by decide)
  have hnone : r = none := congrArg (fun x => (x.getD (some 0, s')).1) (heq.symm.trans rfl)
  rw [heq, hnone, hr.unchanged hnone]

/-! ## Coalescing -/

/-- The operations after the initialisation. -/
def okAfter (h : Managed) (op : PmmOp) : Prop :=
  h.ok op ∧ ∀ base n, op ≠ .initMemmap base n

theorem Inv.execAfter {h : Managed} {bs : List Extent} (hi : h.Inv bs) {op : PmmOp}
    (hok : h.okAfter op) : ∃ h' bs', h.exec op = some h' ∧ h'.Inv bs' ∧ h'.ram = h.ram ∧
      (Extents.Coalesced bs → Extents.Coalesced bs') := by
  obtain ⟨hok, hne⟩ := hok
  cases op with
  | initMemmap base n => exact absurd rfl (hne base n)
  | alloc n => exact hi.alloc hok
  | free base n => exact hi.free hok

theorem single_coalesced {s : Pmm} {base n : ℕ} {h : Managed} (hn : 1 ≤ n)
    (hrun : Run exec okAfter (single s base n) h) :
    ∃ bs, h.Inv bs ∧ h.ram = Set.Ico base (base + n) ∧ Extents.Coalesced bs := by
  refine hrun.invariant (I := fun h => ∃ bs, h.Inv bs ∧ h.ram = Set.Ico base (base + n) ∧
    Extents.Coalesced bs) ?_ ?_
  · obtain ⟨h', heq, hi⟩ := (boot_inv s).initMemmap (boot_ok s base hn)
    obtain rfl : h' = single s base n := Option.some.inj (heq.symm.trans (boot_exec s base n))
    exact ⟨_, hi, rfl, List.pairwise_singleton _ _⟩
  · rintro t op u ⟨bs, hi, hram, hc⟩ hok heq
    obtain ⟨u', bs', heq', hi', hram', hc'⟩ := hi.execAfter hok
    obtain rfl : u' = u := Option.some.inj (heq'.symm.trans heq)
    exact ⟨bs', hi', hram'.trans hram, hc' hc⟩

/-- No listed block ends where another one begins; when everything was given back, the free
list is the one block that `init_memmap` made, and all of it can be allocated again. -/
theorem coalescing {s : Pmm} {base n : ℕ} {h : Managed} (hn : 1 ≤ n)
    (hrun : Run exec okAfter (single s base n) h) :
    (∀ p q, h.pmm.Listed p → h.pmm.Listed q → p + (h.pmm.page p).property ≠ q) ∧
    ((∀ S ∈ h.live, S = ∅) → h.pmm.link.Ring .freeList [.pageLink base] ∧
      (h.pmm.page base).property = n ∧ ∃ s', h.pmm.alloc n = some (some base, s')) := by
  obtain ⟨bs, hi, hram, hc⟩ := single_coalesced hn hrun
  refine ⟨fun p q hp hq => ?_, fun hlive => ?_⟩
  · obtain ⟨e, he, rfl⟩ := List.mem_map.mp (hi.pmm.toRep.listed_iff.mp hp)
    obtain ⟨f, hf, rfl⟩ := List.mem_map.mp (hi.pmm.toRep.listed_iff.mp hq)
    rw [hi.pmm.property e he]
    intro htouch
    by_cases hef : e = f
    · have hpos := hi.pmm.separate.pos e he
      rw [hef] at htouch hpos
      omega
    · exact hc.not_touch he hf hef (Or.inl htouch)
  · have hheld : held h.live = ∅ := by
      rw [Set.eq_empty_iff_forall_notMem]
      rintro q ⟨S, hS, hq⟩
      rw [hlive S hS] at hq
      exact hq
    have hcover : Extents.cover bs = Set.Ico base (base + n) := by
      rw [← hram, ← hi.partition.union, hheld, Set.union_empty, hi.pmm.toRep.freePages_eq]
    obtain rfl := Extents.eq_singleton_of_cover hi.pmm.separate hc hn hcover
    refine ⟨hi.pmm.ring, hi.pmm.property ⟨base, n⟩ (by simp), ?_⟩
    exact ⟨h.pmm.allocTake n (.pageLink base) base, by simp [Pmm.alloc_eq hi.pmm.toRep]⟩

/-- Three pages of eight are allocated and given back in two pieces, the last ones first. -/
theorem coalescing_pieces : ∃ h, [PmmOp.alloc 3, .free 1 2, .free 0 1].foldlM exec
    (single Pmm.blank 0 8) = some h ∧ h.pmm.link.Ring .freeList [.pageLink 0] := by
  refine ⟨_, rfl, ?_⟩
  have hn : 1 ≤ 8 := by decide
  have h1 : Run exec okAfter (single Pmm.blank 0 8) _ :=
    Run.single ⟨.alloc 3, ⟨(by decide : 1 ≤ 3), by simp⟩, rfl⟩
  obtain ⟨_, hi1, -⟩ := single_coalesced hn h1
  have h2 := h1.tail ⟨.free 1 2, ⟨hi1.ok_free (List.mem_singleton_self _) (by decide)
    (Set.Ico_subset_Ico (by decide) (by decide)), by simp⟩, rfl⟩
  obtain ⟨_, hi2, -⟩ := single_coalesced hn h2
  have hsub : Set.Ico 0 (0 + 1) ⊆ Set.Ico 0 (0 + 3) \ Set.Ico 1 (1 + 2) := by
    intro q hq
    simp only [Set.mem_sdiff, Set.mem_Ico] at hq ⊢
    omega
  have h3 := h2.tail ⟨.free 0 1, ⟨hi2.ok_free (List.mem_singleton_self _) (by decide) hsub,
    by simp⟩, rfl⟩
  have hlive : ∀ S ∈ [(Set.Ico 0 (0 + 3) \ Set.Ico 1 (1 + 2)) \ Set.Ico 0 (0 + 1)],
      S = ∅ := by
    intro S hS
    rw [List.mem_singleton.mp hS]
    ext q
    simp only [Set.mem_sdiff, Set.mem_Ico, Set.mem_empty_iff_false, iff_false]
    omega
  exact ((coalescing hn h3).2 hlive).1

end Managed
end Zonix
