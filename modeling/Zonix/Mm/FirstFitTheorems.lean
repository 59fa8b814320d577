import Zonix.Mm.FirstFit
import Zonix.Lib.Extents

/-!
# The first-fit allocator refines a list of extents

`Rep s bs` relates the state in memory to the extents its free list denotes; `alloc` takes
the first extent that fits (`Extent.rest`), and the loop of `free` is `Extents.absorb`.
Everything the rest of the kernel relies on is in `Inv` and in the specifications
`alloc_spec`, `free_spec` and `initMemmap_spec`, which also say what is *not* touched.
-/

namespace Zonix
open Lib

/-- The list entries of the descriptors that head the extents. -/
def entries (bs : List Extent) : List ListEntry := bs.map fun e => .pageLink e.base

@[simp] theorem entries_nil : entries [] = [] := rfl

@[simp] theorem entries_cons (e : Extent) (bs : List Extent) :
    entries (e :: bs) = .pageLink e.base :: entries bs := rfl

@[simp] theorem entries_append (as bs : List Extent) :
    entries (as ++ bs) = entries as ++ entries bs := List.map_append

@[simp] theorem pageLink_mem_entries {p : ℕ} {bs : List Extent} :
    ListEntry.pageLink p ∈ entries bs ↔ p ∈ bs.map Extent.base := by
  simp [entries]

@[simp] theorem freeList_notMem_entries (bs : List Extent) : ListEntry.freeList ∉ entries bs := by
  simp [entries]

namespace Pmm

/-- The free list of `s` denotes the extents `bs`, in list order. -/
structure Rep (s : Pmm) (bs : List Extent) : Prop where
  ring : s.link.Ring .freeList (entries bs)
  property : ∀ e ∈ bs, (s.page e.base).property = e.len
  separate : Extents.Separate bs
  nrFree : s.nrFree = Extents.total bs

/-- The allocator invariant over the initialised pages `ram`. -/
structure Inv (s : Pmm) (ram : Set ℕ) (bs : List Extent) : Prop extends Rep s bs where
  inRam : Extents.cover bs ⊆ ram
  reserved : ∀ p ∈ ram, s.pageReserved p ↔ p ∈ bs.map Extent.base

/-- The links of the free list and of the given pages. -/
def linksOf (pages : Set ℕ) : Set ListEntry := {e | e = .freeList ∨ ∃ p ∈ pages, e = .pageLink p}

theorem linksOf_mono {P Q : Set ℕ} (h : P ⊆ Q) : linksOf P ⊆ linksOf Q := by
  rintro e (rfl | ⟨p, hp, rfl⟩)
  · exact Or.inl rfl
  · exact Or.inr ⟨p, h hp, rfl⟩

theorem mem_linksOf_of_mem_entries {bs : List Extent} {e : ListEntry} {P : Set ℕ}
    (hP : ∀ p ∈ bs.map Extent.base, p ∈ P) (h : e ∈ .freeList :: entries bs) : e ∈ linksOf P := by
  rcases List.mem_cons.mp h with rfl | h
  · exact Or.inl rfl
  · obtain ⟨b, hb, rfl⟩ := List.mem_map.mp h
    exact Or.inr ⟨b.base, hP _ (List.mem_map.mpr ⟨b, hb, rfl⟩), rfl⟩

theorem base_mem_cover {bs : List Extent} (h : Extents.Separate bs) :
    ∀ p ∈ bs.map Extent.base, p ∈ Extents.cover bs := by
  intro p hp
  obtain ⟨e, he, rfl⟩ := List.mem_map.mp hp
  exact ⟨e, he, le_rfl, Nat.lt_add_of_pos_right (h.pos e he)⟩

/-- An extent that covers the base of another one is that one. -/
theorem base_notMem_of_mem_cells {bs : List Extent} (h : Extents.Separate bs) {e : Extent} {q : ℕ}
    (he : e ∈ bs) (hq : q ∈ e.cells) (hne : q ≠ e.base) : q ∉ bs.map Extent.base := by
  intro hmem
  obtain ⟨f, hf, rfl⟩ := List.mem_map.mp hmem
  have hfq : f.base ∈ f.cells := ⟨le_rfl, Nat.lt_add_of_pos_right (h.pos f hf)⟩
  rw [h.eq_of_mem_cells he hf hq hfq] at hne
  exact hne rfl

section Rep
variable {s : Pmm} {bs : List Extent}

theorem Rep.listed_iff (h : s.Rep bs) {p : ℕ} : s.Listed p ↔ p ∈ bs.map Extent.base := by
  rw [Listed, h.ring.onList_iff, pageLink_mem_entries]

theorem Rep.block_eq (h : s.Rep bs) {e : Extent} (he : e ∈ bs) : s.block e.base = e.cells := by
  rw [block, h.property e he]
  rfl

/-- The free pages are the cells of the extents. -/
theorem Rep.freePages_eq (h : s.Rep bs) : s.freePages = Extents.cover bs := by
  ext q
  constructor
  · rintro ⟨p, hp, hq⟩
    obtain ⟨e, he, rfl⟩ := List.mem_map.mp (h.listed_iff.mp hp)
    rw [h.block_eq he] at hq
    exact ⟨e, he, hq⟩
  · rintro ⟨e, he, hq⟩
    refine ⟨e.base, h.listed_iff.mpr (List.mem_map.mpr ⟨e, he, rfl⟩), ?_⟩
    rwa [h.block_eq he]

/-- Only usable memory is free. -/
theorem Inv.mem_ram {ram : Set ℕ} (h : s.Inv ram bs) {p : ℕ} (hp : p ∈ s.freePages) :
    p ∈ ram := by
  rw [h.toRep.freePages_eq] at hp
  exact h.inRam hp

end Rep

/-! ## The search of `alloc` -/

theorem allocSearch_eq {s : Pmm} {n : ℕ} {pre post : List Extent} {le : ListEntry} {k : ℕ}
    (hring : s.link.Ring .freeList (entries (pre ++ post)))
    (hprop : ∀ e ∈ post, (s.page e.base).property = e.len)
    (hle : (ListEntry.freeList :: entries pre).getLast? = some le) (hk : post.length < k) :
    s.allocSearch n k le = some ((post.find? fun e => decide (n ≤ e.len)).map fun e =>
      (.pageLink e.base, e.base)) := by
  -- on the blocks still ahead; `le` is the last of those that were too small
  induction post generalizing pre le k with
  | nil =>
    obtain ⟨k, rfl⟩ : ∃ j, k = j + 1 := ⟨k - 1, by simp at hk; omega⟩
    have hnext : s.link.next le = .freeList := by
      rw [entries_append] at hring
      exact hring.next_eq hle rfl
    simp [allocSearch, listNext, hnext]
  | cons p ps ih =>
    obtain ⟨k, rfl⟩ : ∃ j, k = j + 1 := ⟨k - 1, by simp at hk; omega⟩
    have hnext : s.link.next le = .pageLink p.base := by
      rw [entries_append] at hring
      exact hring.next_eq hle rfl
    have hp := hprop p (by simp)
    rw [allocSearch]
    simp only [listNext, hnext, reduceCtorEq, if_false, le2page, Option.bind_eq_bind,
      Option.bind_some, hp]
    by_cases hn : n ≤ p.len
    · simp [hn]
    · have hring' : s.link.Ring .freeList (entries ((pre ++ [p]) ++ ps)) := by
        rwa [List.append_assoc]
      have hlast : (ListEntry.freeList :: entries (pre ++ [p])).getLast? =
          some (.pageLink p.base) := by
        rw [entries_append]
        exact Links.getLast?_cons_concat _ _ _
      rw [if_neg hn, ih hring' (fun e he => hprop e (by simp [he])) hlast (by simp at hk; omega)]
      simp [hn]

/-! ## The block `alloc` takes -/

section AllocTake
variable (s : Pmm) (n page q : ℕ) (le : ListEntry)

theorem allocTake_property : ((s.allocTake n le page).page q).property =
    if n < (s.page page).property ∧ q = page + n then (s.page page).property - n
    else (s.page q).property := by
  unfold allocTake
  by_cases hlt : n < (s.page page).property
  · simp [hlt]
  · simp [hlt]

theorem allocTake_ref : ((s.allocTake n le page).page q).ref = (s.page q).ref := by
  unfold allocTake
  by_cases hlt : n < (s.page page).property
  · simp [hlt]
  · simp [hlt]

theorem allocTake_nrFree : (s.allocTake n le page).nrFree = s.nrFree - n := by
  unfold allocTake
  by_cases hlt : n < (s.page page).property
  · simp [hlt]
  · simp [hlt]

theorem allocTake_reserved : (s.allocTake n le page).pageReserved q ↔
    q ≠ page ∧ ((n < (s.page page).property ∧ q = page + n) ∨ s.pageReserved q) := by
  unfold allocTake
  by_cases hlt : n < (s.page page).property
  · simp [hlt]
  · simp [hlt]

theorem allocTake_link : (s.allocTake n le page).link =
    if n < (s.page page).property then listDel (listAdd s.link le (.pageLink (page + n))) le
    else listDel s.link le := by
  unfold allocTake
  by_cases hlt : n < (s.page page).property
  · simp [hlt]
  · simp [hlt]

end AllocTake

section Take
variable {s : Pmm} {as bs : List Extent} {e : Extent} {n : ℕ}

/-- The remainder of a block heads no other block. -/
theorem Rep.remainder_notMem (h : s.Rep (as ++ e :: bs)) (hn : 1 ≤ n) (hlt : n < e.len) :
    e.base + n ∉ (as ++ e :: bs).map Extent.base := by
  refine base_notMem_of_mem_cells h.separate (e := e) (by simp) ?_ (by omega)
  rw [Extent.mem_cells, Extent.stop]
  omega

theorem Rep.base_notMem (h : s.Rep (as ++ e :: bs)) : e.base ∉ (as ++ bs).map Extent.base := by
  have hnd := (h.separate.perm List.perm_middle).bases_nodup
  rw [List.map_cons, List.nodup_cons] at hnd
  exact hnd.1

/-- The list while `alloc` splits: the remainder stands right after the block. -/
theorem Rep.split_ring (h : s.Rep (as ++ e :: bs)) (hn : 1 ≤ n) (hlt : n < e.len) :
    (listAdd s.link (.pageLink e.base) (.pageLink (e.base + n))).Ring .freeList
      (entries as ++ .pageLink e.base :: .pageLink (e.base + n) :: entries bs) := by
  have hring : s.link.Ring .freeList ((entries as ++ [.pageLink e.base]) ++ entries bs) := by
    simpa using h.ring
  have hnew : ListEntry.pageLink (e.base + n) ∉
      .freeList :: ((entries as ++ [.pageLink e.base]) ++ entries bs) := by
    simpa using h.remainder_notMem hn hlt
  have hadd := listAdd_ring hring hnew (Links.getLast?_cons_concat _ _ _)
  rwa [List.append_assoc] at hadd

/-- The remainder takes the place of the block in the list. -/
theorem Rep.take_ring (h : s.Rep (as ++ e :: bs)) (hn : 1 ≤ n) :
    (s.allocTake n (.pageLink e.base) e.base).link.Ring .freeList
      (entries (as ++ e.rest n ++ bs)) := by
  rw [allocTake_link, h.property e (by simp)]
  by_cases hlt : n < e.len
  · simpa [hlt, Extent.rest] using listDel_ring (h.split_ring hn hlt)
  · have hring : s.link.Ring .freeList (entries as ++ .pageLink e.base :: entries bs) := by
      simpa using h.ring
    simpa [hlt, Extent.rest] using listDel_ring hring

/-- Taking `n` pages off the extent `e`: what is left of it stays in its place. -/
theorem Rep.take (h : s.Rep (as ++ e :: bs)) (hn : 1 ≤ n) (hne : n ≤ e.len) :
    (s.allocTake n (.pageLink e.base) e.base).Rep (as ++ e.rest n ++ bs) := by
  refine ⟨h.take_ring hn, ?_, h.separate.take, ?_⟩
  · intro f hf
    rw [allocTake_property, h.property e (by simp)]
    have hcases : f ∈ as ++ bs ∨ f ∈ e.rest n := by
      simp only [List.mem_append] at hf ⊢
      tauto
    rcases hcases with hf | hf
    · have hfmem : f ∈ as ++ e :: bs := by
        simp only [List.mem_append, List.mem_cons] at hf ⊢
        tauto
      rw [if_neg, h.property f hfmem]
      rintro ⟨hlt, hbase⟩
      exact h.remainder_notMem hn hlt (hbase ▸ List.mem_map.mpr ⟨f, hfmem, rfl⟩)
    · unfold Extent.rest at hf
      split_ifs at hf with hlt
      · obtain rfl : f = ⟨e.base + n, e.len - n⟩ := by simpa using hf
        rw [if_pos ⟨hlt, rfl⟩]
      · simp at hf
  · rw [allocTake_nrFree, h.nrFree]
    simp only [Extents.total_append, Extents.total_cons, Extents.rest_total hne]
    omega

/-- `alloc` clears the flag of the page it returns and sets that of the remainder. -/
theorem Inv.take_reserved {ram : Set ℕ} (h : s.Inv ram (as ++ e :: bs)) (hn : 1 ≤ n) {p : ℕ}
    (hp : p ∈ ram) : (s.allocTake n (.pageLink e.base) e.base).pageReserved p ↔
      p ∈ (as ++ e.rest n ++ bs).map Extent.base := by
  rw [allocTake_reserved, h.property e (by simp), h.reserved p hp]
  have hbase := h.base_notMem
  unfold Extent.rest
  by_cases hlt : n < e.len
  · rw [if_pos hlt]
    simp only [List.map_append, List.map_cons, List.mem_append, List.mem_cons, List.map_nil,
      List.not_mem_nil, or_false, not_or] at hbase ⊢
    constructor
    · tauto
    · rintro ((hp | rfl) | hp)
      · exact ⟨by rintro rfl; exact hbase.1 hp, by tauto⟩
      · exact ⟨by omega, by tauto⟩
      · exact ⟨by rintro rfl; exact hbase.2 hp, by tauto⟩
  · rw [if_neg hlt]
    simp only [List.map_append, List.map_cons, List.mem_append, List.mem_cons, List.append_nil,
      not_or] at hbase ⊢
    constructor
    · tauto
    · rintro (hp | hp)
      · exact ⟨by rintro rfl; exact hbase.1 hp, by tauto⟩
      · exact ⟨by rintro rfl; exact hbase.2 hp, by tauto⟩

theorem Inv.take {ram : Set ℕ} (h : s.Inv ram (as ++ e :: bs)) (hn : 1 ≤ n) (hne : n ≤ e.len) :
    (s.allocTake n (.pageLink e.base) e.base).Inv ram (as ++ e.rest n ++ bs) := by
  refine ⟨h.toRep.take hn hne, ?_, fun p hp => h.take_reserved hn hp⟩
  have hin := h.inRam
  simp only [Extents.cover_append, Extents.cover_cons, Extents.rest_cover hne,
    Set.union_subset_iff] at hin ⊢
  exact ⟨⟨hin.1, Set.sdiff_subset.trans hin.2.1⟩, hin.2.2⟩

/-- The links `alloc` writes are those of the free list and of the remainder. -/
theorem Rep.take_sameOff (h : s.Rep (as ++ e :: bs)) (hn : 1 ≤ n) :
    Links.SameOff (linksOf s.freePages) s.link
      (s.allocTake n (.pageLink e.base) e.base).link := by
  have hin : ∀ x ∈ ListEntry.freeList :: entries (as ++ e :: bs), x ∈ linksOf s.freePages := by
    intro x hx
    rw [h.freePages_eq]
    exact mem_linksOf_of_mem_entries (base_mem_cover h.separate) hx
  have he : ListEntry.pageLink e.base ∈ .freeList :: entries (as ++ e :: bs) := by simp
  rw [allocTake_link, h.property e (by simp)]
  by_cases hlt : n < e.len
  · rw [if_pos hlt]
    have hcell : ListEntry.pageLink (e.base + n) ∈ linksOf s.freePages := by
      refine Or.inr ⟨_, ?_, rfl⟩
      rw [h.freePages_eq]
      refine ⟨e, by simp, ?_⟩
      rw [Extent.mem_cells, Extent.stop]
      omega
    have hsplit := h.split_ring hn hlt
    have hin' : ∀ x ∈ ListEntry.freeList ::
        (entries as ++ .pageLink e.base :: .pageLink (e.base + n) :: entries bs),
        x ∈ linksOf s.freePages := by
      intro x hx
      by_cases hxn : x = .pageLink (e.base + n)
      · exact hxn ▸ hcell
      · refine hin x ?_
        simp only [entries_append, entries_cons, List.mem_cons, List.mem_append] at hx ⊢
        tauto
    -- first the remainder goes behind the block, then the block comes off
    refine ((listAdd_sameOff s.link _ _).mono ?_).trans ((listDel_sameOff _ _).mono ?_)
    · rintro x (rfl | rfl | rfl)
      · exact hcell
      · exact hin _ he
      · exact hin _ (h.ring.next_mem he)
    · rintro x (rfl | rfl)
      · exact hin' _ (hsplit.prev_mem (by simp))
      · exact hin' _ (hsplit.next_mem (by simp))
  · rw [if_neg hlt]
    refine (listDel_sameOff s.link _).mono ?_
    rintro x (rfl | rfl)
    · exact hin _ (h.ring.prev_mem he)
    · exact hin _ (h.ring.next_mem he)

end Take

/-! ## `alloc` -/

/-- What `alloc(n)` returns and leaves behind. -/
structure AllocSpec (s : Pmm) (ram : Set ℕ) (bs : List Extent) (n : ℕ) (r : Option ℕ)
    (s' : Pmm) : Prop where
  /-- Nothing happens to a request that no block satisfies. -/
  fail : r = none → s' = s ∧ ∀ e ∈ bs, e.len < n
  /-- The pages come off the first block that fits. -/
  success : ∀ p, r = some p → ∃ as e cs, bs = as ++ e :: cs ∧ e.base = p ∧ n ≤ e.len ∧
    (∀ f ∈ as, f.len < n) ∧ s'.Inv ram (as ++ e.rest n ++ cs) ∧
    s'.nrFree = s.nrFree - n ∧ (∀ q, (s'.page q).ref = (s.page q).ref) ∧
    Links.SameOff (linksOf s.freePages) s.link s'.link

theorem alloc_eq {s : Pmm} {bs : List Extent} (h : s.Rep bs) (n : ℕ) :
    s.alloc n = some (match bs.find? fun e => decide (n ≤ e.len) with
      | none => (none, s)
      | some e => (some e.base, s.allocTake n (.pageLink e.base) e.base)) := by
  have hlen := h.separate.length_le_total
  rw [← h.nrFree] at hlen
  rw [alloc]
  by_cases hlt : s.nrFree < n
  · -- the early test refuses nothing that some block could satisfy
    have hnone : bs.find? (fun e => decide (n ≤ e.len)) = none := by
      rw [List.find?_eq_none]
      intro e he
      have hle := Extents.le_total_of_mem he
      rw [← h.nrFree] at hle
      simp only [decide_eq_true_eq]
      omega
    rw [if_pos hlt, hnone]
  · have hring : s.link.Ring .freeList (entries ([] ++ bs)) := h.ring
    have hlast : (ListEntry.freeList :: entries []).getLast? = some .freeList := rfl
    rw [if_neg hlt, allocSearch_eq hring h.property hlast (Nat.lt_succ_of_le hlen)]
    cases bs.find? fun e => decide (n ≤ e.len) <;> rfl

theorem alloc_spec {s : Pmm} {ram : Set ℕ} {bs : List Extent} (h : s.Inv ram bs) {n : ℕ}
    (hn : 1 ≤ n) : ∃ r s', s.alloc n = some (r, s') ∧ AllocSpec s ram bs n r s' := by
  rw [alloc_eq h.toRep]
  cases hfind : bs.find? fun e => decide (n ≤ e.len) with
  | none =>
    refine ⟨none, s, rfl, ⟨fun _ => ⟨rfl, ?_⟩, fun p hp => (nomatch hp)⟩⟩
    intro e he
    have := List.find?_eq_none.mp hfind e he
    simpa using this
  | some e =>
    obtain ⟨hfit, as, cs, rfl, hfirst⟩ := List.find?_eq_some_iff_append.mp hfind
    rw [decide_eq_true_eq] at hfit
    refine ⟨_, _, rfl, ⟨(nomatch ·), ?_⟩⟩
    rintro p ⟨rfl⟩
    refine ⟨as, e, cs, rfl, rfl, hfit, fun f hf => by simpa using hfirst f hf, h.take hn hfit,
      allocTake_nrFree .., fun q => allocTake_ref .., h.toRep.take_sameOff hn⟩

/-- `alloc` takes free pages, and no others leave the free list. -/
theorem AllocSpec.freePages_eq {s s' : Pmm} {ram : Set ℕ} {bs : List Extent} {n p : ℕ}
    (h : s.Inv ram bs) (ha : AllocSpec s ram bs n (some p) s') :
    Set.Ico p (p + n) ⊆ s.freePages ∧ s'.freePages = s.freePages \ Set.Ico p (p + n) := by
  obtain ⟨as, e, cs, rfl, rfl, hfit, -, hinv, -⟩ := ha.success p rfl
  rw [h.toRep.freePages_eq, hinv.toRep.freePages_eq]
  exact h.separate.cover_take hfit

/-! ## The merging loop of `free` -/

/-- The state before an iteration: `kept` is the part of the list already passed, `rest` the
part to come, and `b` the block being freed, as far as it has grown. -/
structure Merging (s : Pmm) (b : Extent) (kept rest : List Extent) (le prev : ListEntry) :
    Prop where
  ring : s.link.Ring .freeList (entries (kept ++ rest))
  next : (entries rest ++ [ListEntry.freeList]).head? = some (s.link.next le)
  prev : (ListEntry.freeList :: entries kept).getLast? = some prev
  property : ∀ e ∈ b :: (kept ++ rest), (s.page e.base).property = e.len
  separate : Extents.Separate (b :: (kept ++ rest))

/-- What the loop leaves: `r` is the merged block, `ks` the blocks of `rest` it kept. -/
structure Merged (s : Pmm) (b : Extent) (kept rest : List Extent) (r : Extent)
    (ks : List Extent) (s' : Pmm) (prev : ListEntry) : Prop where
  ring : s'.link.Ring .freeList (entries (kept ++ ks))
  prev : (ListEntry.freeList :: entries (kept ++ ks)).getLast? = some prev
  property : ∀ e ∈ r :: (kept ++ ks), (s'.page e.base).property = e.len
  nrFree : s'.nrFree = s.nrFree
  ref : ∀ q, (s'.page q).ref = (s.page q).ref
  /-- A block loses its flag exactly when it stops being the head of a block. -/
  reserved : ∀ q, s'.pageReserved q ↔
    s.pageReserved q ∧ (q ∈ (b :: rest).map Extent.base → q ∈ (r :: ks).map Extent.base)
  sameOff : Links.SameOff (linksOf {q | q ∈ (kept ++ rest).map Extent.base}) s.link s'.link

/-- One iteration on a block `p` that touches `b`: `keep` is the header that survives with
the joint size, `lose` the one that is merged away. -/
def mergeStep (s : Pmm) (keep lose size : ℕ) (le : ListEntry) : Pmm :=
  ((s.setProperty keep size).clearPageReserved lose).setLink (listDel s.link le)

theorem Merging.step {s : Pmm} {b p : Extent} {kept ps : List Extent} {le prev : ListEntry}
    (h : s.Merging b kept (p :: ps) le prev) (ht : b.Touch p) {lose : ℕ} :
    (s.mergeStep (b.join p).base lose (b.len + p.len) (.pageLink p.base)).Merging (b.join p)
      kept ps (.pageLink p.base) prev := by
  have hring : s.link.Ring .freeList (entries kept ++ .pageLink p.base :: entries ps) := by
    simpa using h.ring
  have hperm : (b :: (kept ++ p :: ps)).Perm (b :: p :: (kept ++ ps)) :=
    List.Perm.cons b List.perm_middle
  have hsep := h.separate.perm hperm
  obtain ⟨hb, hps⟩ := List.pairwise_cons.mp hsep.apart
  obtain ⟨hp, -⟩ := List.pairwise_cons.mp hps
  have hsep' : Extents.Separate (b.join p :: (kept ++ ps)) := by
    refine Extents.Separate.cons ?_ (fun f hf => ?_) hsep.tail.tail
    · exact Nat.add_pos_left (hsep.pos b (by simp)) _
    · exact Extent.join_apart ht (hb f (List.mem_cons_of_mem _ hf)) (hp f hf)
        (hsep.pos f (by simp [hf]))
  refine ⟨?_, ?_, h.prev, ?_, hsep'⟩
  · simpa [mergeStep] using listDel_ring hring
  · -- the deleted entry still points to its old successor, from which the loop goes on
    have hnext := listDel_next_self hring
    obtain ⟨x, hx⟩ : ∃ x, (entries ps ++ [ListEntry.freeList]).head? = some x :=
      ⟨_, List.head?_eq_some_head (by simp)⟩
    rw [hx, mergeStep, setLink_link, hnext, hring.next_entry hx]
  · intro f hf
    rw [mergeStep, setLink_page, clearPageReserved_property, setProperty_property]
    rcases List.mem_cons.mp hf with rfl | hf
    · rw [if_pos rfl]
      rfl
    · have hnd := hsep'.bases_nodup
      rw [List.map_cons, List.nodup_cons] at hnd
      have hne : f.base ≠ (b.join p).base := fun heq =>
        hnd.1 (heq ▸ List.mem_map.mpr ⟨f, hf, rfl⟩)
      have hmem : f ∈ b :: (kept ++ p :: ps) := hperm.mem_iff.mpr (by simp [hf])
      rw [if_neg hne, h.property f hmem]

theorem Merging.keep {s : Pmm} {b p : Extent} {kept ps : List Extent} {le prev : ListEntry}
    (h : s.Merging b kept (p :: ps) le prev) :
    s.Merging b (kept ++ [p]) ps (.pageLink p.base) (.pageLink p.base) := by
  have hring : s.link.Ring .freeList (entries kept ++ .pageLink p.base :: entries ps) := by
    simpa using h.ring
  obtain ⟨x, hx⟩ : ∃ x, (entries ps ++ [ListEntry.freeList]).head? = some x :=
    ⟨_, List.head?_eq_some_head (by simp)⟩
  have hassoc : kept ++ [p] ++ ps = kept ++ p :: ps := List.append_cons kept p ps ▸ rfl
  refine ⟨hassoc ▸ h.ring, by rw [hx, hring.next_entry hx], ?_, hassoc ▸ h.property,
    hassoc ▸ h.separate⟩
  rw [entries_append]
  exact Links.getLast?_cons_concat _ _ _

section Iteration
variable {s : Pmm} {b p : Extent} {kept ps : List Extent} {le prev : ListEntry}

/-- One iteration of the loop, on the block `p`. -/
theorem freeMerge_succ (h : s.Merging b kept (p :: ps) le prev) (k : ℕ) :
    s.freeMerge (k + 1) b.base le prev =
      if b.stop = p.base then
        (s.mergeStep b.base p.base (b.len + p.len) (.pageLink p.base)).freeMerge k b.base
          (.pageLink p.base) prev
      else if p.stop = b.base then
        (s.mergeStep p.base b.base (b.len + p.len) (.pageLink p.base)).freeMerge k p.base
          (.pageLink p.base) prev
      else s.freeMerge k b.base (.pageLink p.base) (.pageLink p.base) := by
  have hnext : s.link.next le = .pageLink p.base := by simpa using h.next.symm
  have hb : (s.page b.base).property = b.len := h.property b (by simp)
  have hp : (s.page p.base).property = p.len := h.property p (by simp)
  rw [freeMerge]
  simp only [listNext, hnext, reduceCtorEq, if_false, le2page, Option.bind_eq_bind,
    Option.bind_some, hb, hp, Nat.add_comm p.len b.len]
  rfl

/-- A block that touches is merged, whichever side it is on: the lower of the two headers
survives. -/
theorem freeMerge_touch (h : s.Merging b kept (p :: ps) le prev) (ht : b.Touch p) (k : ℕ) :
    ∃ lose, lose ≠ (b.join p).base ∧ ({b.base, p.base} : Set ℕ) = {(b.join p).base, lose} ∧
      s.freeMerge (k + 1) b.base le prev =
        (s.mergeStep (b.join p).base lose (b.len + p.len) (.pageLink p.base)).freeMerge k
          (b.join p).base (.pageLink p.base) prev := by
  have hb := h.separate.pos b (by simp)
  have hp := h.separate.pos p (by simp)
  have hjoin : (b.join p).base = min b.base p.base := rfl
  rw [freeMerge_succ h]
  by_cases hr : b.stop = p.base
  · have hlt : b.base < p.base := by
      unfold Extent.stop at hr
      omega
    rw [if_pos hr, hjoin, min_eq_left hlt.le]
    exact ⟨p.base, hlt.ne', rfl, rfl⟩
  · have hl : p.stop = b.base := ht.resolve_left hr
    have hlt : p.base < b.base := by
      unfold Extent.stop at hl
      omega
    rw [if_neg hr, if_pos hl, hjoin, min_eq_right hlt.le]
    exact ⟨b.base, hlt.ne', Set.pair_comm _ _, rfl⟩

theorem freeMerge_keep (h : s.Merging b kept (p :: ps) le prev) (ht : ¬ b.Touch p) (k : ℕ) :
    s.freeMerge (k + 1) b.base le prev =
      s.freeMerge k b.base (.pageLink p.base) (.pageLink p.base) := by
  unfold Extent.Touch at ht
  rw [not_or] at ht
  rw [freeMerge_succ h, if_neg ht.1, if_neg ht.2]

/-- What is true after the loop went on from a merge step is true of the whole loop. -/
theorem Merged.of_step (h : s.Merging b kept (p :: ps) le prev) {lose : ℕ}
    (hlose : lose ≠ (b.join p).base)
    (hpair : ({b.base, p.base} : Set ℕ) = {(b.join p).base, lose}) {s' : Pmm} {prev' : ListEntry}
    (hm : (s.mergeStep (b.join p).base lose (b.len + p.len) (.pageLink p.base)).Merged (b.join p)
      kept ps (Extents.absorb (b.join p) ps).1 (Extents.absorb (b.join p) ps).2 s' prev') :
    s.Merged b kept (p :: ps) (Extents.absorb (b.join p) ps).1 (Extents.absorb (b.join p) ps).2
      s' prev' := by
  have hmem : ∀ q, q = b.base ∨ q = p.base ↔ q = (b.join p).base ∨ q = lose := by
    intro q
    have := Set.ext_iff.mp hpair q
    simpa only [Set.mem_insert_iff, Set.mem_singleton_iff] using this
  refine ⟨hm.ring, hm.prev, hm.property, hm.nrFree.trans rfl, fun q => ?_, fun q => ?_, ?_⟩
  · rw [hm.ref, mergeStep, setLink_page, clearPageReserved_ref, setProperty_ref]
  · have hsub := Extents.absorb_bases (b.join p) ps q
    -- the header that is merged away heads none of the blocks still to come
    have hloseps : lose ∉ ps.map Extent.base := by
      have hnd := (h.separate.perm (List.Perm.cons b List.perm_middle)).bases_nodup
      simp only [List.map_cons, List.map_append, List.nodup_cons, List.mem_cons, List.mem_append,
        not_or] at hnd
      rcases (hmem lose).mpr (Or.inr rfl) with rfl | rfl
      · exact hnd.1.2.2
      · exact hnd.2.1.2
    have hq := hmem q
    rw [hm.reserved, mergeStep, pageReserved_setLink, pageReserved_clearPageReserved,
      pageReserved_setProperty]
    simp only [List.map_cons, List.mem_cons] at hsub ⊢
    by_cases hql : q = lose
    · subst hql
      refine iff_of_false (fun hn => hn.1.1 rfl) fun hn => ?_
      have hhead : q = b.base ∨ q = p.base := hq.mpr (Or.inr rfl)
      rcases hsub (hn.2 (hhead.imp_right Or.inl)) with hr | hr
      · exact hlose hr
      · exact hloseps hr
    · rw [or_iff_left hql] at hq
      rw [and_iff_right hql, ← or_assoc, hq]
  · have hp : ListEntry.pageLink p.base ∈ .freeList :: entries (kept ++ p :: ps) := by simp
    have hin : ∀ x ∈ ListEntry.freeList :: entries (kept ++ p :: ps),
        x ∈ linksOf {q | q ∈ (kept ++ p :: ps).map Extent.base} :=
      fun x hx => mem_linksOf_of_mem_entries (fun _ hq => hq) hx
    refine ((listDel_sameOff s.link _).mono ?_).trans (hm.sameOff.mono (linksOf_mono ?_))
    · rintro x (rfl | rfl)
      · exact hin _ (h.ring.prev_mem hp)
      · exact hin _ (h.ring.next_mem hp)
    · intro q hq
      simp only [List.map_append, List.map_cons, List.mem_append, List.mem_cons,
        Set.mem_ofPred_eq] at hq ⊢
      tauto

theorem Merged.of_keep {r : Extent} {ks : List Extent} {s' : Pmm} {prev' : ListEntry}
    (h : s.Merging b kept (p :: ps) le prev)
    (hm : s.Merged b (kept ++ [p]) ps r ks s' prev') :
    s.Merged b kept (p :: ps) r (p :: ks) s' prev' := by
  have hassoc : ∀ cs, kept ++ [p] ++ cs = kept ++ p :: cs := fun cs =>
    List.append_cons kept p cs ▸ rfl
  have hbp : p.base ∉ (b :: ps).map Extent.base := by
    have hnd := (h.separate.perm (List.Perm.cons b List.perm_middle)).bases_nodup
    simp only [List.map_cons, List.map_append, List.nodup_cons, List.mem_cons, List.mem_append,
      not_or] at hnd ⊢
    exact ⟨fun hpb => hnd.1.1 hpb.symm, hnd.2.1.2⟩
  refine ⟨hassoc ks ▸ hm.ring, hassoc ks ▸ hm.prev, hassoc ks ▸ hm.property, hm.nrFree, hm.ref,
    fun q => ?_, hassoc ps ▸ hm.sameOff⟩
  rw [hm.reserved]
  simp only [List.map_cons, List.mem_cons, not_or] at hbp ⊢
  by_cases hqp : q = p.base
  · subst hqp
    tauto
  · tauto

end Iteration

theorem freeMerge_spec {s : Pmm} {b : Extent} {kept rest : List Extent} {le prev : ListEntry}
    (h : s.Merging b kept rest le prev) {k : ℕ} (hk : rest.length < k) :
    ∃ s' prev', s.freeMerge k b.base le prev =
        some (s', (Extents.absorb b rest).1.base, prev') ∧
      s.Merged b kept rest (Extents.absorb b rest).1 (Extents.absorb b rest).2 s' prev' := by
  induction rest generalizing s b kept le prev k with
  | nil =>
    obtain ⟨k, rfl⟩ : ∃ j, k = j + 1 := ⟨k - 1, by simp at hk; omega⟩
    have hnext : s.link.next le = .freeList := by simpa using h.next.symm
    refine ⟨s, prev, by simp [freeMerge, listNext, hnext, Extents.absorb], ?_⟩
    exact ⟨h.ring, by simpa [Extents.absorb] using h.prev, h.property, rfl, fun _ => rfl,
      fun q => by simp [Extents.absorb], Links.SameOff.refl _ _⟩
  | cons p ps ih =>
    obtain ⟨k, rfl⟩ : ∃ j, k = j + 1 := ⟨k - 1, by simp at hk; omega⟩
    have hk' : ps.length < k := by simp at hk; omega
    by_cases ht : b.Touch p
    · obtain ⟨lose, hlose, hpair, hstep⟩ := freeMerge_touch h ht k
      obtain ⟨s', prev', heq, hm⟩ := ih (h.step ht) hk'
      rw [Extents.absorb_cons_touch ht, hstep]
      exact ⟨s', prev', heq, hm.of_step h hlose hpair⟩
    · obtain ⟨s', prev', heq, hm⟩ := ih h.keep hk'
      rw [Extents.absorb_cons_keep ht, freeMerge_keep h ht]
      exact ⟨s', prev', heq, hm.of_keep h⟩

/-! ## `free` -/

section ClearFlags
variable (s : Pmm) (base n q : ℕ)

theorem clearFlags_succ : s.clearFlags base (n + 1) =
    (s.setFlags base 0#32).clearFlags (base + 1) n := rfl

theorem clearFlags_link : (s.clearFlags base n).link = s.link := by
  induction n generalizing s base with
  | zero => rfl
  | succ n ih => rw [clearFlags_succ, ih, setFlags_link]

theorem clearFlags_nrFree : (s.clearFlags base n).nrFree = s.nrFree := by
  induction n generalizing s base with
  | zero => rfl
  | succ n ih => rw [clearFlags_succ, ih, setFlags_nrFree]

theorem clearFlags_property :
    ((s.clearFlags base n).page q).property = (s.page q).property := by
  induction n generalizing s base with
  | zero => rfl
  | succ n ih => rw [clearFlags_succ, ih, setFlags_property]

theorem clearFlags_ref : ((s.clearFlags base n).page q).ref = (s.page q).ref := by
  induction n generalizing s base with
  | zero => rfl
  | succ n ih => rw [clearFlags_succ, ih, setFlags_ref]

theorem clearFlags_reserved : (s.clearFlags base n).pageReserved q ↔
    q ∉ Set.Ico base (base + n) ∧ s.pageReserved q := by
  induction n generalizing s base with
  | zero => simp [clearFlags]
  | succ n ih =>
    rw [clearFlags_succ, ih, pageReserved_setFlags_zero, ← and_assoc]
    refine and_congr_left fun _ => ?_
    simp only [Set.mem_Ico]
    omega

end ClearFlags

/-- What `free(base, n)` leaves behind. -/
structure FreeSpec (s : Pmm) (ram : Set ℕ) (bs : List Extent) (base n : ℕ) (s' : Pmm) :
    Prop where
  inv : s'.Inv ram ((Extents.absorb ⟨base, n⟩ bs).2 ++ [(Extents.absorb ⟨base, n⟩ bs).1])
  nrFree : s'.nrFree = s.nrFree + n
  ref : ∀ q, (s'.page q).ref = (s.page q).ref
  sameOff : Links.SameOff (linksOf (s.freePages ∪ Set.Ico base (base + n))) s.link s'.link

section Free
variable {s : Pmm} {ram : Set ℕ} {bs : List Extent} {base n : ℕ}

/-- The freed block is apart from the listed ones when its pages are not free. -/
theorem Rep.separate_cons (h : s.Rep bs) (hn : 1 ≤ n)
    (hfree : Disjoint (Set.Ico base (base + n)) s.freePages) :
    Extents.Separate (⟨base, n⟩ :: bs) := by
  refine Extents.Separate.cons hn (fun f hf => ?_) h.separate
  refine Extent.apart_of_disjoint hn (h.separate.pos f hf) ?_
  rw [h.freePages_eq] at hfree
  exact hfree.mono_right (Extents.cells_subset_cover hf)

/-- The state in which the merging loop of `free` starts. -/
theorem Rep.merging (h : s.Rep bs) (hsep : Extents.Separate (⟨base, n⟩ :: bs)) :
    (((s.clearFlags base n).setProperty base n).setPageReserved base).Merging ⟨base, n⟩ [] bs
      .freeList .freeList := by
  have hlink : (((s.clearFlags base n).setProperty base n).setPageReserved base).link = s.link := by
    rw [setPageReserved_link, setProperty_link, clearFlags_link]
  refine ⟨hlink ▸ h.ring, ?_, rfl, ?_, hsep⟩
  · obtain ⟨x, hx⟩ : ∃ x, (entries bs ++ [ListEntry.freeList]).head? = some x :=
      ⟨_, List.head?_eq_some_head (by simp)⟩
    rw [hlink, hx, h.ring.next_head hx]
  · intro e he
    rw [setPageReserved_property, setProperty_property, clearFlags_property]
    rcases List.mem_cons.mp he with rfl | he
    · rw [if_pos rfl]
    · have hnd := hsep.bases_nodup
      rw [List.map_cons, List.nodup_cons] at hnd
      have hne : e.base ≠ base := fun heq =>
        hnd.1 (List.mem_map.mpr ⟨e, he, heq⟩)
      rw [if_neg hne, h.property e he]

/-- After the merging loop the flags are those of the heads of the blocks. -/
theorem Inv.merged_reserved (h : s.Inv ram bs) (hsep : Extents.Separate (⟨base, n⟩ :: bs))
    {s' : Pmm} {prev : ListEntry}
    (hm : (((s.clearFlags base n).setProperty base n).setPageReserved base).Merged ⟨base, n⟩ [] bs
      (Extents.absorb ⟨base, n⟩ bs).1 (Extents.absorb ⟨base, n⟩ bs).2 s' prev) {p : ℕ}
    (hp : p ∈ ram) : s'.pageReserved p ↔
      p = (Extents.absorb ⟨base, n⟩ bs).1.base ∨
        p ∈ (Extents.absorb ⟨base, n⟩ bs).2.map Extent.base := by
  have hsub := Extents.absorb_bases ⟨base, n⟩ bs p
  have hout : p ∈ bs.map Extent.base → p ∉ Set.Ico base (base + n) := by
    intro hpb hin
    obtain ⟨e, he, rfl⟩ := List.mem_map.mp hpb
    have hpos := hsep.pos e (by simp [he])
    have hap := (List.pairwise_cons.mp hsep.apart).1 e he
    refine Set.disjoint_left.mp hap.disjoint hin ?_
    exact ⟨le_rfl, Nat.lt_add_of_pos_right hpos⟩
  rw [hm.reserved, pageReserved_setPageReserved, pageReserved_setProperty, clearFlags_reserved,
    h.reserved p hp]
  simp only [List.map_cons, List.mem_cons] at hsub ⊢
  tauto

/-- Only links of pages that are free afterwards are written, and the head's. -/
theorem Inv.merged_sameOff (h : s.Inv ram bs) (hsep : Extents.Separate (⟨base, n⟩ :: bs))
    {s' : Pmm} {prev : ListEntry}
    (hm : (((s.clearFlags base n).setProperty base n).setPageReserved base).Merged ⟨base, n⟩ [] bs
      (Extents.absorb ⟨base, n⟩ bs).1 (Extents.absorb ⟨base, n⟩ bs).2 s' prev) :
    Links.SameOff (linksOf (s.freePages ∪ Set.Ico base (base + n))) s.link
      (listAdd s'.link prev (.pageLink (Extents.absorb ⟨base, n⟩ bs).1.base)) := by
  set r := (Extents.absorb ⟨base, n⟩ bs).1 with hr
  set ks := (Extents.absorb ⟨base, n⟩ bs).2 with hks
  have hcover : r.cells ∪ Extents.cover ks = Set.Ico base (base + n) ∪ Extents.cover bs :=
    Extents.absorb_cover ⟨base, n⟩ bs
  have hsep' : Extents.Separate (r :: ks) := Extents.absorb_separate hsep
  have hring : s'.link.Ring .freeList (entries ks) := by simpa using hm.ring
  rw [h.toRep.freePages_eq]
  have hbases : ∀ q ∈ (r :: ks).map Extent.base,
      q ∈ Extents.cover bs ∪ Set.Ico base (base + n) := by
    intro q hq
    rw [Set.union_comm, ← hcover, ← Extents.cover_cons]
    exact base_mem_cover hsep' q hq
  have hin : ∀ x ∈ ListEntry.freeList :: entries (r :: ks),
      x ∈ linksOf (Extents.cover bs ∪ Set.Ico base (base + n)) :=
    fun x hx => mem_linksOf_of_mem_entries hbases hx
  have hsub : ∀ x ∈ ListEntry.freeList :: entries ks,
      x ∈ ListEntry.freeList :: entries (r :: ks) := by
    intro x hx
    simp only [entries_cons, List.mem_cons] at hx ⊢
    tauto
  -- the loop deletes headers of old blocks
  have hmid : Links.SameOff (linksOf (Extents.cover bs ∪ Set.Ico base (base + n))) s.link
      s'.link := by
    have hsame := hm.sameOff
    rw [setPageReserved_link, setProperty_link, clearFlags_link] at hsame
    refine hsame.mono (linksOf_mono fun q hq => Or.inl ?_)
    exact base_mem_cover h.separate q hq
  -- `list_add` writes the new header and its two neighbours
  refine hmid.trans ((listAdd_sameOff s'.link _ _).mono ?_)
  have hprev : prev ∈ ListEntry.freeList :: entries ks :=
    List.mem_of_getLast? (by simpa using hm.prev)
  rintro x (rfl | rfl | rfl)
  · exact hin _ (by simp)
  · exact hin _ (hsub _ hprev)
  · exact hin _ (hsub _ (hring.next_mem hprev))

theorem free_spec (h : s.Inv ram bs) (hn : 1 ≤ n) (hram : Set.Ico base (base + n) ⊆ ram)
    (hfree : Disjoint (Set.Ico base (base + n)) s.freePages) :
    ∃ s', s.free base n = some s' ∧ FreeSpec s ram bs base n s' := by
  have hsep := h.toRep.separate_cons hn hfree
  have hmerging := h.toRep.merging hsep
  have hlen : bs.length < s.nrFree + 1 := by
    rw [h.nrFree]
    exact Nat.lt_succ_of_le h.separate.length_le_total
  obtain ⟨s', prev, heq, hm⟩ := freeMerge_spec hmerging hlen
  set r := (Extents.absorb ⟨base, n⟩ bs).1 with hr
  set ks := (Extents.absorb ⟨base, n⟩ bs).2 with hks
  have hcover : r.cells ∪ Extents.cover ks = Set.Ico base (base + n) ∪ Extents.cover bs :=
    Extents.absorb_cover ⟨base, n⟩ bs
  have hsep' : Extents.Separate (r :: ks) := Extents.absorb_separate hsep
  have hnd := hsep'.bases_nodup
  rw [List.map_cons, List.nodup_cons] at hnd
  have hring : s'.link.Ring .freeList (entries ks ++ []) := by
    simpa using hm.ring
  have hnew : ListEntry.pageLink r.base ∉ .freeList :: (entries ks ++ []) := by
    simpa using hnd.1
  refine ⟨(s'.setNrFree (s'.nrFree + n)).setLink (listAdd s'.link prev (.pageLink r.base)), ?_,
    ⟨⟨⟨?_, ?_, ?_, ?_⟩, ?_, ?_⟩, ?_, ?_, ?_⟩⟩
  · have hfuel : (((s.clearFlags base n).setProperty base n).setPageReserved base).nrFree =
        s.nrFree := by
      rw [setPageReserved_nrFree, setProperty_nrFree, clearFlags_nrFree]
    rw [free]
    simp only [hfuel, heq, Option.bind_eq_bind, Option.bind_some, setNrFree_link]
  · simpa using listAdd_ring hring hnew (by simpa using hm.prev)
  · intro e he
    refine hm.property e ?_
    simp only [List.mem_append, List.mem_cons, List.not_mem_nil, or_false, List.nil_append] at he ⊢
    tauto
  · exact hsep'.perm (List.perm_append_singleton r ks).symm
  · rw [setLink_nrFree, setNrFree_nrFree, hm.nrFree, setPageReserved_nrFree, setProperty_nrFree,
      clearFlags_nrFree, h.nrFree]
    have htotal := Extents.absorb_total ⟨base, n⟩ bs
    simp only [Extents.total_append, Extents.total_cons, Extents.total_nil, ← hr, ← hks] at htotal ⊢
    omega
  · rw [Extents.cover_append, Extents.cover_cons, Extents.cover_nil, Set.union_empty,
      Set.union_comm, hcover]
    exact Set.union_subset hram h.inRam
  · intro p hp
    rw [pageReserved_setLink, pageReserved_setNrFree, h.merged_reserved hsep hm hp]
    simp only [List.map_append, List.map_cons, List.map_nil, List.mem_append, List.mem_cons,
      List.not_mem_nil, or_false, ← hr, ← hks]
    exact or_comm
  · rw [setLink_nrFree, setNrFree_nrFree, hm.nrFree, setPageReserved_nrFree, setProperty_nrFree,
      clearFlags_nrFree]
  · intro q
    rw [setLink_page, setNrFree_page, hm.ref, setPageReserved_ref, setProperty_ref,
      clearFlags_ref]
  · exact h.merged_sameOff hsep hm

/-- `free` adds the pages that were freed, and no others. -/
theorem FreeSpec.freePages_eq {s' : Pmm} (h : s.Inv ram bs) (hf : FreeSpec s ram bs base n s') :
    s'.freePages = s.freePages ∪ Set.Ico base (base + n) := by
  rw [h.toRep.freePages_eq, hf.inv.toRep.freePages_eq, Extents.cover_append, Extents.cover_cons,
    Extents.cover_nil, Set.union_empty, Set.union_comm, Extents.absorb_cover, Set.union_comm]
  rfl

end Free

/-! ## `init` and `init_memmap` -/

section ClearPages
variable (s : Pmm) (base n q : ℕ)

theorem clearPages_succ : s.clearPages base (n + 1) =
    (s.setPage base ⟨0, 0#32, 0⟩).clearPages (base + 1) n := rfl

theorem clearPages_link : (s.clearPages base n).link = s.link := by
  induction n generalizing s base with
  | zero => rfl
  | succ n ih => rw [clearPages_succ, ih, setPage_link]

theorem clearPages_nrFree : (s.clearPages base n).nrFree = s.nrFree := by
  induction n generalizing s base with
  | zero => rfl
  | succ n ih => rw [clearPages_succ, ih, setPage_nrFree]

theorem clearPages_page : (s.clearPages base n).page q =
    if q ∈ Set.Ico base (base + n) then ⟨0, 0#32, 0⟩ else s.page q := by
  induction n generalizing s base with
  | zero => simp [clearPages]
  | succ n ih =>
    rw [clearPages_succ, ih, setPage_page]
    simp only [Set.mem_Ico]
    by_cases hq : q = base
    · rw [if_pos hq, ite_self, if_pos (by omega)]
    · rw [if_neg hq]
      exact if_congr (by omega) rfl rfl

end ClearPages

/-- What `init_memmap(base, n)` leaves behind. -/
structure InitMemmapSpec (s : Pmm) (ram : Set ℕ) (bs : List Extent) (base n : ℕ) (s' : Pmm) :
    Prop where
  inv : s'.Inv (ram ∪ Set.Ico base (base + n)) (bs ++ [⟨base, n⟩])
  nrFree : s'.nrFree = s.nrFree + n
  ref : ∀ q, (s'.page q).ref = if q ∈ Set.Ico base (base + n) then 0 else (s.page q).ref
  sameOff : Links.SameOff (linksOf (s.freePages ∪ Set.Ico base (base + n))) s.link s'.link

theorem init_inv (s : Pmm) : s.init.Inv ∅ [] := by
  refine ⟨⟨listInit_ring s.link .freeList, ?_, Extents.Separate.nil, rfl⟩, ?_, ?_⟩
  · simp
  · simp
  · simp

section InitMemmap
variable {s : Pmm} {ram : Set ℕ} {bs : List Extent} {base n : ℕ}

theorem initMemmap_property (q : ℕ) : ((s.initMemmap base n).page q).property =
    if q = base then n else if q ∈ Set.Ico base (base + n) then 0 else (s.page q).property := by
  rw [initMemmap, setLink_page, setNrFree_page, setPageReserved_property, setProperty_property,
    clearPages_page]
  split_ifs <;> rfl

theorem initMemmap_reserved (q : ℕ) : (s.initMemmap base n).pageReserved q ↔
    q = base ∨ (q ∉ Set.Ico base (base + n) ∧ s.pageReserved q) := by
  rw [initMemmap, pageReserved_setLink, pageReserved_setNrFree, pageReserved_setPageReserved,
    pageReserved_setProperty, pageReserved, clearPages_page]
  by_cases hq : q ∈ Set.Ico base (base + n)
  · simp [hq]
  · simp [hq, pageReserved]

theorem initMemmap_ref (q : ℕ) : ((s.initMemmap base n).page q).ref =
    if q ∈ Set.Ico base (base + n) then 0 else (s.page q).ref := by
  rw [initMemmap, setLink_page, setNrFree_page, setPageReserved_ref, setProperty_ref,
    clearPages_page]
  split_ifs <;> rfl

theorem initMemmap_link : (s.initMemmap base n).link =
    listAddBefore s.link .freeList (.pageLink base) := by
  rw [initMemmap, setLink_link, setNrFree_link, setPageReserved_link, setProperty_link,
    clearPages_link]

theorem initMemmap_nrFree : (s.initMemmap base n).nrFree = s.nrFree + n := by
  rw [initMemmap, setLink_nrFree, setNrFree_nrFree, setPageReserved_nrFree, setProperty_nrFree,
    clearPages_nrFree]

theorem initMemmap_spec (h : s.Inv ram bs) (hn : 1 ≤ n)
    (hnew : Disjoint (Set.Ico base (base + n)) ram) :
    InitMemmapSpec s ram bs base n (s.initMemmap base n) := by
  have hfree : Disjoint (Set.Ico base (base + n)) s.freePages := by
    rw [h.toRep.freePages_eq]
    exact hnew.mono_right h.inRam
  have hsep := h.toRep.separate_cons hn hfree
  have hnd := hsep.bases_nodup
  rw [List.map_cons, List.nodup_cons] at hnd
  have hin : base ∈ Set.Ico base (base + n) := ⟨le_rfl, by omega⟩
  have hbases : ∀ p ∈ bs.map Extent.base, p ∈ s.freePages := by
    rw [h.toRep.freePages_eq]
    exact base_mem_cover h.separate
  refine ⟨⟨⟨?_, ?_, ?_, ?_⟩, ?_, ?_⟩, initMemmap_nrFree, initMemmap_ref, ?_⟩
  · rw [initMemmap_link]
    simpa using listAddBefore_back h.ring (by simpa using hnd.1)
  · intro e he
    rw [initMemmap_property]
    rcases List.mem_append.mp he with he | he
    · have hmem : e.base ∈ bs.map Extent.base := List.mem_map.mpr ⟨e, he, rfl⟩
      have hout : e.base ∉ Set.Ico base (base + n) := fun hq =>
        Set.disjoint_left.mp hfree hq (hbases _ hmem)
      have hne : e.base ≠ base := fun hq => hnd.1 (hq ▸ hmem)
      rw [if_neg hne, if_neg hout, h.property e he]
    · obtain rfl : e = ⟨base, n⟩ := by simpa using he
      rw [if_pos rfl]
  · exact hsep.perm (List.perm_append_singleton _ bs).symm
  · rw [initMemmap_nrFree, h.nrFree]
    simp
  · rw [Extents.cover_append, Extents.cover_cons, Extents.cover_nil, Set.union_empty]
    exact Set.union_subset_union_left _ h.inRam
  · intro p hp
    rw [initMemmap_reserved, List.map_append, List.mem_append]
    simp only [List.map_cons, List.map_nil, List.mem_cons, List.not_mem_nil, or_false]
    by_cases hpn : p ∈ Set.Ico base (base + n)
    · have hpb : p ∉ bs.map Extent.base := fun hq => Set.disjoint_left.mp hfree hpn (hbases p hq)
      tauto
    · rw [h.reserved p (hp.resolve_right hpn)]
      tauto
  · have hmem : ∀ x ∈ ListEntry.freeList :: entries bs,
        x ∈ linksOf (s.freePages ∪ Set.Ico base (base + n)) :=
      fun x hx => mem_linksOf_of_mem_entries (fun p hp => Or.inl (hbases p hp)) hx
    rw [initMemmap_link]
    refine (listAddBefore_sameOff s.link _ _).mono ?_
    rintro x (rfl | rfl | rfl)
    · exact Or.inr ⟨base, Or.inr hin, rfl⟩
    · exact hmem _ (h.ring.prev_mem (by simp))
    · exact Or.inl rfl

theorem InitMemmapSpec.freePages_eq {s' : Pmm} (h : s.Inv ram bs)
    (hi : InitMemmapSpec s ram bs base n s') :
    s'.freePages = s.freePages ∪ Set.Ico base (base + n) := by
  rw [h.toRep.freePages_eq, hi.inv.toRep.freePages_eq, Extents.cover_append, Extents.cover_cons,
    Extents.cover_nil, Set.union_empty]
  rfl

end InitMemmap

end Pmm
end Zonix
