import Zonix.Mm.FirstFitTheorems
import Mathlib.Data.List.Nodup

/-!
# One link, one list

The `page_link` of a descriptor is on the free list, on the swap queue, or on neither.
`Lists s ram qs` says that both lists are well formed and share no page; `qs` are the pages
of the swap queue, the oldest first. Whatever allocates, frees, queues or takes from the
queue keeps it, because each of these writes only links of its own list, of pages that are
or were free, and of the page it moves.
-/

namespace Zonix
open Lib

namespace Pmm

structure Lists (s : Pmm) (ram : Set ℕ) (qs : List ℕ) : Prop where
  free : ∃ bs, s.Inv ram bs
  queue : s.link.Ring .praListHead (qs.map .pageLink)
  inRam : ∀ p ∈ qs, p ∈ ram
  notFree : ∀ p ∈ qs, p ∉ s.freePages

/-- `alloc(n)` returned `page`. -/
structure Takes (s : Pmm) (n page : ℕ) (s' : Pmm) : Prop where
  wasFree : Set.Ico page (page + n) ⊆ s.freePages
  freePages : s'.freePages = s.freePages \ Set.Ico page (page + n)
  nrFree : s'.nrFree = s.nrFree - n
  ref : ∀ q, (s'.page q).ref = (s.page q).ref
  sameOff : Links.SameOff (linksOf s.freePages) s.link s'.link
  inv : ∀ ram bs, s.Inv ram bs → ∃ bs', s'.Inv ram bs'

/-- `free(base, n)` came back. -/
structure Gives (s : Pmm) (base n : ℕ) (s' : Pmm) : Prop where
  freePages : s'.freePages = s.freePages ∪ Set.Ico base (base + n)
  nrFree : s'.nrFree = s.nrFree + n
  ref : ∀ q, (s'.page q).ref = (s.page q).ref

theorem ico_one (p : ℕ) : Set.Ico p (p + 1) = {p} := by
  ext q
  rw [Set.mem_Ico, Set.mem_singleton_iff]
  omega

theorem Takes.one {s s' : Pmm} {page : ℕ} (h : s.Takes 1 page s') :
    page ∈ s.freePages ∧ s'.freePages = s.freePages \ {page} := by
  have hfree := h.wasFree
  have htaken := h.freePages
  rw [ico_one] at hfree htaken
  exact ⟨Set.singleton_subset_iff.mp hfree, htaken⟩

/-- Two pages that are taken one after the other. -/
theorem Takes.apart {s s' s'' : Pmm} {page page' : ℕ} (h : s.Takes 1 page s')
    (h' : s'.Takes 1 page' s'') : page' ≠ page := by
  rintro rfl
  have hfree := h'.one.1
  rw [h.one.2] at hfree
  exact hfree.2 rfl

theorem Takes.freePages_subset {s s' : Pmm} {n page : ℕ} (h : s.Takes n page s') :
    s'.freePages ⊆ s.freePages :=
  h.freePages ▸ Set.sdiff_subset

theorem Gives.one {s s' : Pmm} {page : ℕ} (h : s.Gives page 1 s') :
    s'.freePages = s.freePages ∪ {page} := by
  rw [h.freePages, ico_one]

@[simp] theorem setRef_freePages (s : Pmm) (p : ℕ) (r : ℤ) :
    (s.setRef p r).freePages = s.freePages := by
  ext q
  simp [freePages, Listed, block]

theorem Inv.setRef {s : Pmm} {ram : Set ℕ} {bs : List Extent} (h : s.Inv ram bs) (page : ℕ)
    (r : ℤ) : (s.setRef page r).Inv ram bs := by
  refine ⟨⟨h.ring, fun e he => ?_, h.separate, h.nrFree⟩, h.inRam, fun p hp => ?_⟩
  · rw [setRef_property, h.property e he]
  · rw [pageReserved_setRef, h.reserved p hp]

/-- `alloc(n)` takes pages, or there is no block of `n` pages. -/
theorem Inv.alloc_cases {s : Pmm} {ram : Set ℕ} {bs : List Extent} (h : s.Inv ram bs) {n : ℕ}
    (hn : 1 ≤ n) : (s.alloc n = some (none, s) ∧ (n = 1 → s.freePages = ∅)) ∨
      ∃ page s', s.alloc n = some (some page, s') ∧ s.Takes n page s' := by
  obtain ⟨r, s', heq, hspec⟩ := alloc_spec h hn
  cases r with
  | none =>
    left
    obtain ⟨rfl, hall⟩ := hspec.fail rfl
    refine ⟨heq, ?_⟩
    rintro rfl
    rw [h.toRep.freePages_eq, Set.eq_empty_iff_forall_notMem]
    rintro q ⟨e, he, -⟩
    have hpos := h.separate.pos e he
    have hlt := hall e he
    omega
  | some page =>
    right
    obtain ⟨hfree, htaken⟩ := hspec.freePages_eq h
    obtain ⟨_, _, _, -, -, -, -, hinv', hnr, href, hsame⟩ := hspec.success page rfl
    refine ⟨page, s', heq, hfree, htaken, hnr, href, hsame, fun ram' bs' h' => ?_⟩
    -- the extents are determined by the list, the pages they lie in are not
    obtain ⟨r', s'', heq', hspec'⟩ := alloc_spec h' hn
    obtain ⟨rfl, rfl⟩ := Prod.mk.inj (Option.some.inj (heq'.symm.trans heq))
    obtain ⟨_, _, _, -, -, -, -, hinv'', -⟩ := hspec'.success page rfl
    exact ⟨_, hinv''⟩

theorem Inv.nrFree_eq_zero_iff {s : Pmm} {ram : Set ℕ} {bs : List Extent} (h : s.Inv ram bs) :
    s.nrFree = 0 ↔ s.freePages = ∅ := by
  rw [h.nrFree, h.toRep.freePages_eq]
  cases bs with
  | nil => simp
  | cons e bs =>
    have hpos := h.separate.pos e List.mem_cons_self
    rw [Extents.total_cons, Extents.cover_cons, Set.union_empty_iff]
    refine iff_of_false (by omega) fun hempty => ?_
    have hmem : e.base ∈ e.cells := Extent.mem_cells.mpr ⟨le_rfl, Nat.lt_add_of_pos_right hpos⟩
    exact (Set.eq_empty_iff_forall_notMem.mp hempty.1) e.base hmem

/-- One page is the first of the first block. -/
theorem Inv.next_of_alloc {s s' : Pmm} {ram : Set ℕ} {bs : List Extent} (h : s.Inv ram bs)
    {page : ℕ} (heq : s.alloc 1 = some (some page, s')) :
    listNext s.link .freeList = .pageLink page := by
  obtain ⟨r, s'', heq', hspec⟩ := alloc_spec h le_rfl
  obtain ⟨rfl, rfl⟩ := Prod.mk.inj (Option.some.inj (heq'.symm.trans heq))
  obtain ⟨as, e, cs, rfl, rfl, -, hsmall, -⟩ := hspec.success page rfl
  cases as with
  | nil => exact h.ring.next_head rfl
  | cons f as =>
    have hpos := h.separate.pos f (by simp)
    have hlt := hsmall f List.mem_cons_self
    omega

theorem Inv.takes_of_alloc {s s' : Pmm} {ram : Set ℕ} {bs : List Extent} (h : s.Inv ram bs)
    {n page : ℕ} (hn : 1 ≤ n) (heq : s.alloc n = some (some page, s')) : s.Takes n page s' := by
  rcases h.alloc_cases hn with ⟨heq', -⟩ | ⟨page', s'', heq', ht⟩
  · exact absurd (heq.symm.trans heq') (by simp)
  · obtain ⟨hp, rfl⟩ := Prod.mk.inj (Option.some.inj (heq.symm.trans heq'))
    rwa [Option.some.inj hp]

namespace Lists

variable {s : Pmm} {ram : Set ℕ} {qs : List ℕ}

theorem queue_nodup (h : s.Lists ram qs) : qs.Nodup :=
  List.Nodup.of_map _ h.queue.nodup_entries

/-- Edits of links that are not on the swap queue leave the queue alone. -/
theorem queue_frame (h : s.Lists ram qs) {pages : Set ℕ} {m : Links ListEntry}
    (hm : Links.SameOff (linksOf pages) s.link m) (hpages : ∀ p ∈ qs, p ∉ pages) :
    m.Ring .praListHead (qs.map .pageLink) := by
  refine h.queue.frame hm ?_ ?_
  · rintro (hh | ⟨p, -, hp⟩)
    · exact absurd hh (by simp)
    · exact absurd hp (by simp)
  · intro e he hmem
    obtain ⟨p, hp, rfl⟩ := List.mem_map.mp he
    rcases hmem with hh | ⟨q, hq, hpq⟩
    · exact absurd hh (by simp)
    · obtain rfl := ListEntry.pageLink.inj hpq
      exact hpages p hp hq

/-- The links of the queue are its head and links of pages that are not free. -/
theorem queue_notFree (h : s.Lists ram qs) {e : ListEntry}
    (he : e ∈ .praListHead :: qs.map ListEntry.pageLink) :
    e = .praListHead ∨ ∃ p, p ∉ s.freePages ∧ e = .pageLink p := by
  rcases List.mem_cons.mp he with rfl | he
  · exact Or.inl rfl
  · obtain ⟨p, hp, rfl⟩ := List.mem_map.mp he
    exact Or.inr ⟨p, h.notFree p hp, rfl⟩

/-- Edits of links that are not on the free list leave the free list alone. -/
theorem setLink (h : s.Lists ram qs) {S : Set ListEntry} {m : Links ListEntry} {qs' : List ℕ}
    (hm : Links.SameOff S s.link m)
    (hS : ∀ e ∈ S, e = .praListHead ∨ ∃ p, p ∉ s.freePages ∧ e = .pageLink p)
    (hqueue : m.Ring .praListHead (qs'.map .pageLink))
    (hqs' : ∀ p ∈ qs', p ∈ ram ∧ p ∉ s.freePages) :
    (s.setLink m).Lists ram qs' ∧ (s.setLink m).freePages = s.freePages := by
  obtain ⟨bs, hinv⟩ := h.free
  have hring : m.Ring .freeList (entries bs) := by
    refine hinv.ring.frame hm ?_ ?_
    · intro hmem
      rcases hS _ hmem with hh | ⟨p, -, hp⟩
      · exact absurd hh (by simp)
      · exact absurd hp (by simp)
    · intro e he hmem
      obtain ⟨b, hb, rfl⟩ := List.mem_map.mp he
      rcases hS _ hmem with hh | ⟨p, hp, hbp⟩
      · exact absurd hh (by simp)
      · obtain rfl := ListEntry.pageLink.inj hbp
        refine hp ?_
        rw [hinv.toRep.freePages_eq]
        exact base_mem_cover hinv.separate _ (List.mem_map.mpr ⟨b, hb, rfl⟩)
  have hinv' : (s.setLink m).Inv ram bs :=
    ⟨⟨hring, hinv.property, hinv.separate, hinv.nrFree⟩, hinv.inRam, hinv.reserved⟩
  have hfree : (s.setLink m).freePages = s.freePages := by
    rw [hinv'.toRep.freePages_eq, hinv.toRep.freePages_eq]
  refine ⟨⟨⟨bs, hinv'⟩, hqueue, fun p hp => (hqs' p hp).1, fun p hp => ?_⟩, hfree⟩
  rw [hfree]
  exact (hqs' p hp).2

theorem setRef (h : s.Lists ram qs) (page : ℕ) (r : ℤ) : (s.setRef page r).Lists ram qs := by
  obtain ⟨bs, hinv⟩ := h.free
  refine ⟨⟨bs, hinv.setRef page r⟩, h.queue, h.inRam, ?_⟩
  rw [setRef_freePages]
  exact h.notFree

theorem takes (h : s.Lists ram qs) {n page : ℕ} {s' : Pmm} (ht : s.Takes n page s') :
    s'.Lists ram qs := by
  obtain ⟨bs, hinv⟩ := h.free
  refine ⟨ht.inv ram bs hinv, h.queue_frame ht.sameOff h.notFree, h.inRam, fun p hp hp' => ?_⟩
  rw [ht.freePages] at hp'
  exact h.notFree p hp hp'.1

theorem free_ico (h : s.Lists ram qs) {base n : ℕ} (hn : 1 ≤ n)
    (hram : Set.Ico base (base + n) ⊆ ram) (hfree : Disjoint (Set.Ico base (base + n)) s.freePages)
    (hqs : ∀ p ∈ qs, p ∉ Set.Ico base (base + n)) :
    ∃ s', s.free base n = some s' ∧ s.Gives base n s' ∧ s'.Lists ram qs := by
  obtain ⟨bs, hinv⟩ := h.free
  obtain ⟨s', heq, hspec⟩ := free_spec hinv hn hram hfree
  have hout : ∀ p ∈ qs, p ∉ s.freePages ∪ Set.Ico base (base + n) := by
    rintro p hp (hp' | hp')
    · exact h.notFree p hp hp'
    · exact hqs p hp hp'
  refine ⟨s', heq, ⟨hspec.freePages_eq hinv, hspec.nrFree, hspec.ref⟩, ⟨_, hspec.inv⟩,
    h.queue_frame hspec.sameOff hout, h.inRam, ?_⟩
  rw [hspec.freePages_eq hinv]
  exact hout

/-- `pages_free(page, 1)` of an allocated page that is not queued. -/
theorem free_one (h : s.Lists ram qs) {page : ℕ} (hram : page ∈ ram)
    (hfree : page ∉ s.freePages) (hqs : page ∉ qs) :
    ∃ s', s.free page 1 = some s' ∧ s.Gives page 1 s' ∧ s'.Lists ram qs := by
  refine h.free_ico le_rfl ?_ ?_ ?_
  · rw [ico_one]
    exact Set.singleton_subset_iff.mpr hram
  · rw [ico_one]
    exact Set.disjoint_singleton_left.mpr hfree
  · rw [ico_one]
    rintro p hp rfl
    exact hqs hp

/-- The page that the head of the free list points to is free. -/
theorem mem_freePages_of_next (h : s.Lists ram qs) {page : ℕ}
    (hn : listNext s.link .freeList = .pageLink page) : page ∈ s.freePages := by
  obtain ⟨bs, hinv⟩ := h.free
  have hmem : ListEntry.pageLink page ∈ .freeList :: entries bs :=
    hn ▸ hinv.ring.next_mem List.mem_cons_self
  obtain ⟨b, hb, hpage⟩ := List.mem_map.mp (List.mem_of_ne_of_mem (by simp) hmem)
  rw [hinv.toRep.freePages_eq]
  refine base_mem_cover hinv.separate page (List.mem_map.mpr ⟨b, hb, ?_⟩)
  exact ListEntry.pageLink.inj hpage

/-! ## The swap queue -/

theorem next_nil (h : s.Lists ram []) : listNext s.link .praListHead = .praListHead :=
  h.queue.next_head rfl

theorem next_cons {page : ℕ} (h : s.Lists ram (page :: qs)) :
    listNext s.link .praListHead = .pageLink page :=
  h.queue.next_head rfl

/-- The entry after the head of the queue is its first page. -/
theorem eq_cons_of_next {page : ℕ} (h : s.Lists ram qs)
    (hn : listNext s.link .praListHead = .pageLink page) : qs = page :: qs.tail := by
  cases qs with
  | nil => exact absurd (h.next_nil.symm.trans hn) (by simp)
  | cons p ps => rw [ListEntry.pageLink.inj (h.next_cons.symm.trans hn), List.tail_cons]

/-- `list_add_before(pra_list_head, page_link)`: the page becomes the last of the queue. -/
theorem enqueue (h : s.Lists ram qs) {page : ℕ} (hram : page ∈ ram) (hfree : page ∉ s.freePages)
    (hqs : page ∉ qs) :
    (s.setLink (listAddBefore s.link .praListHead (.pageLink page))).Lists ram (qs ++ [page]) ∧
      (s.setLink (listAddBefore s.link .praListHead (.pageLink page))).freePages = s.freePages := by
  have hnew : ListEntry.pageLink page ∉ .praListHead :: qs.map .pageLink := by
    simpa using hqs
  have hqueue := listAddBefore_back h.queue hnew
  have hall : ∀ p ∈ qs ++ [page], p ∈ ram ∧ p ∉ s.freePages := by
    intro p hp
    rcases List.mem_append.mp hp with hp | hp
    · exact ⟨h.inRam p hp, h.notFree p hp⟩
    · rw [List.mem_singleton.mp hp]
      exact ⟨hram, hfree⟩
  refine h.setLink (listAddBefore_sameOff s.link _ _) ?_ (by simpa using hqueue) hall
  rintro e (rfl | rfl | rfl)
  · exact Or.inr ⟨page, hfree, rfl⟩
  · exact h.queue_notFree (h.queue.prev_mem (by simp))
  · exact Or.inl rfl

/-- `list_del` of the first page of the queue. -/
theorem dequeue {page : ℕ} (h : s.Lists ram (page :: qs)) :
    (s.setLink (listDel s.link (.pageLink page))).Lists ram qs ∧
      (s.setLink (listDel s.link (.pageLink page))).freePages = s.freePages := by
  have hring : s.link.Ring .praListHead ([] ++ .pageLink page :: qs.map .pageLink) := h.queue
  have hqueue := listDel_ring hring
  have hmem : ListEntry.pageLink page ∈ .praListHead :: (page :: qs).map ListEntry.pageLink := by
    simp
  have hall : ∀ p ∈ qs, p ∈ ram ∧ p ∉ s.freePages := fun p hp =>
    ⟨h.inRam p (List.mem_cons_of_mem _ hp), h.notFree p (List.mem_cons_of_mem _ hp)⟩
  refine h.setLink (listDel_sameOff s.link _) ?_ hqueue hall
  rintro e (rfl | rfl)
  · exact h.queue_notFree (h.queue.prev_mem hmem)
  · exact h.queue_notFree (h.queue.next_mem hmem)

end Lists
end Pmm
end Zonix
