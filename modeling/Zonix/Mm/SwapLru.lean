import Zonix.Lib.Recency
import Zonix.Lib.Rings
import Zonix.Mm.SwapFifo

/-!
# The archived LRU manager: `kern/mm/archived/swap_lru.c`

`swap_lru_map_swappable` takes the links of a page for its membership: a page whose links are not
null is deleted from the list before it joins it again. But `list_del` leaves the links of a victim
as they are, so a page that was handed out is deleted once more when it comes back. That cuts the
list off at its front, up to the entry that followed the page when it left.
-/

namespace Zonix
open Lib

/-- The links of the entries at each address. `none` is the null pointer: nothing is read or written
there, since the functions test the links of a page and `list_init` sets those of the head. -/
abbrev LruLinks := Links (Option ListEntry)

def lruHead : Option ListEntry := some .praListHead

def lruEntry (page : ℕ) : Option ListEntry := some (.pageLink page)

def swapLruInitMm (link : LruLinks) (mm : MmStruct) : LruLinks × MmStruct :=
  (listInit link lruHead, { mm with swapList := .praListHead })

/-- `swap_lru_map_swappable(mm, addr, page, swap_in)`, which uses neither `addr` nor `swap_in` and
always returns 0. -/
def swapLruMapSwappable (link : LruLinks) (mm : MmStruct) (page : ℕ) : LruLinks :=
  let head := some mm.swapList
  let entry := lruEntry page
  let link := if link.prev entry ≠ none ∧ link.next entry ≠ none then listDel link entry else link
  listAddBefore link head entry

/-- `swap_lru_swap_out_victim(mm, &page, in_tick)`: what it returns, and `page`. -/
def swapLruSwapOutVictim (link : LruLinks) (mm : MmStruct) : Option (ℤ × Option ℕ × LruLinks) :=
  let victim := listNext link (some mm.swapList)
  if victim = some mm.swapList then some (-1, none, link)
  else do
    let page ← victim.bind le2page
    some (0, some page, listDel link victim)

/-- A call of the manager: what it returns, the page that it stores, and the links after it. -/
def execLru (mm : MmStruct) (link : LruLinks) : FifoOp → Option ((ℤ × Option ℕ) × LruLinks)
  | .mapSwappable page => some ((0, none), swapLruMapSwappable link mm page)
  | .swapOutVictim => do
    let (r, page, link) ← swapLruSwapOutVictim link mm
    some ((r, page), link)

/-- A run of the manager on one address space: when each page was last made swappable, unless it was
handed out since then, and the number of calls so far. -/
structure LruRun where
  link : LruLinks
  mapped : ℕ → Option ℕ
  now : ℕ

namespace LruRun

/-- A call makes a page swappable now, or hands one out. -/
def record (s : LruRun) (victim : Option ℕ) : FifoOp → ℕ → Option ℕ
  | .mapSwappable page => Function.update s.mapped page (some s.now)
  | .swapOutVictim =>
    match victim with
    | none => s.mapped
    | some page => Function.update s.mapped page none

def exec (mm : MmStruct) (s : LruRun) (op : FifoOp) : Option LruRun := do
  let (r, link) ← execLru mm s.link op
  some ⟨link, s.record r.2 op, s.now + 1⟩

/-- `swap_lru_swap_out_victim` hands out the queued page whose last `swap_lru_map_swappable` is the
oldest, and no page where none is queued. -/
def Ordered (mm : MmStruct) (s : LruRun) : Prop :=
  ∃ r victim link, swapLruSwapOutVictim s.link mm = some (r, victim, link) ∧
    Oldest s.mapped victim

/-- The call comes back, and the next victim is the right one. -/
def KeepsOrder (mm : MmStruct) (s : LruRun) (op : FifoOp) : Prop :=
  ∃ t, s.exec mm op = some t ∧ t.Ordered mm

/-- A page that is made swappable is queued, or was never linked; or nothing is queued, or the page
was followed by the entry that is the first one now. -/
def Clean (mm : MmStruct) (s : LruRun) : FifoOp → Prop
  | .mapSwappable page =>
    s.mapped page ≠ none ∨ s.link.prev (lruEntry page) = none ∨ s.link.next (lruEntry page) = none ∨
      listNext s.link (some mm.swapList) = some mm.swapList ∨
      s.link.next (lruEntry page) = listNext s.link (some mm.swapList)
  | .swapOutVictim => True

instance Clean.decidable (mm : MmStruct) (s : LruRun) : ∀ op, Decidable (Clean mm s op)
  | .mapSwappable _ => inferInstanceAs (Decidable (_ ∨ _))
  | .swapOutVictim => isTrue trivial

/-! ## Stale links -/

section Links
variable {m m' : LruLinks} {q q' : List ℕ} {p v : ℕ}

/-- Neither link of the page is null. -/
def Linked (m : LruLinks) (p : ℕ) : Prop :=
  m.prev (lruEntry p) ≠ none ∧ m.next (lruEntry p) ≠ none

/-- The links that a page keeps when it leaves the front of the list. -/
def Stale (m : LruLinks) (p : ℕ) : Prop :=
  m.prev (lruEntry p) = lruHead ∧
    (m.next (lruEntry p) = lruHead ∨ ∃ p', m.next (lruEntry p) = lruEntry p' ∧ Linked m p')

theorem lruEntry_inj {p p' : ℕ} : lruEntry p = lruEntry p' ↔ p = p' := by simp [lruEntry]

theorem lruEntry_ne_head (p : ℕ) : lruEntry p ≠ lruHead := by simp [lruEntry, lruHead]

theorem mem_entries {p : ℕ} : lruEntry p ∈ q.map lruEntry ↔ p ∈ q := by simp [lruEntry_inj]

theorem mem_ring {p : ℕ} : lruEntry p ∈ lruHead :: q.map lruEntry ↔ p ∈ q := by
  rw [List.mem_cons, mem_entries]
  exact or_iff_right (lruEntry_ne_head p)

theorem ne_none_of_mem_ring {e : Option ListEntry} (he : e ∈ lruHead :: q.map lruEntry) :
    e ≠ none := by
  rcases List.mem_cons.mp he with rfl | he
  · simp [lruHead]
  · obtain ⟨p, -, rfl⟩ := List.mem_map.mp he
    simp [lruEntry]

/-- A queued page has neighbours. -/
theorem linked_of_mem (hr : m.Ring lruHead (q.map lruEntry)) (hp : p ∈ q) : Linked m p :=
  ⟨ne_none_of_mem_ring (hr.prev_mem (mem_ring.mpr hp)),
    ne_none_of_mem_ring (hr.next_mem (mem_ring.mpr hp))⟩

/-- The links of the pages that are not queued stay stale when they are not touched. -/
theorem stale_of_same (hr : m'.Ring lruHead (q'.map lruEntry))
    (hsame : ∀ p ∉ q', m'.next (lruEntry p) = m.next (lruEntry p) ∧
      m'.prev (lruEntry p) = m.prev (lruEntry p))
    (hstale : ∀ p ∉ q', Linked m p → Stale m p) : ∀ p ∉ q', Linked m' p → Stale m' p := by
  have hlinked : ∀ p, Linked m p → Linked m' p := by
    intro p hp
    by_cases hq : p ∈ q'
    · exact linked_of_mem hr hq
    · rw [Linked, (hsame p hq).1, (hsame p hq).2]
      exact hp
  intro p hq hp
  obtain ⟨hnext, hprev⟩ := hsame p hq
  have hp' : Linked m p := by rwa [Linked, hnext, hprev] at hp
  obtain ⟨hhead, hfollow⟩ := hstale p hq hp'
  refine ⟨hprev.trans hhead, ?_⟩
  rw [hnext]
  exact hfollow.imp id fun ⟨p', heq, hl⟩ => ⟨p', heq, hlinked p' hl⟩

end Links

/-! ## The list on a run -/

section
variable {mm : MmStruct} {s t : LruRun} {q : List ℕ} {p v : ℕ}

/-- The list leads to the queued pages, the one that was used the longest ago at the front. The
links of the other pages are null or stale. -/
structure Kept (mm : MmStruct) (s : LruRun) (q : List ℕ) : Prop where
  head : some mm.swapList = lruHead
  ring : s.link.Ring lruHead (q.map lruEntry)
  recency : Recency s.mapped s.now q
  stale : ∀ p ∉ q, Linked s.link p → Stale s.link p

/-- The page behind the head is handed out, whatever else the links lead to. -/
theorem swapOutVictim_entry {m : LruLinks} (hmm : some mm.swapList = lruHead)
    (hv : listNext m lruHead = lruEntry v) :
    swapLruSwapOutVictim m mm = some (0, some v, listDel m (lruEntry v)) := by
  unfold swapLruSwapOutVictim
  rw [hmm, hv, if_neg (lruEntry_ne_head v)]
  rfl

theorem Kept.swapOutVictim_nil (h : Kept mm s []) :
    swapLruSwapOutVictim s.link mm = some (-1, none, s.link) := by
  have hnext : listNext s.link lruHead = lruHead := h.ring.next_head rfl
  unfold swapLruSwapOutVictim
  rw [h.head, hnext, if_pos rfl]

theorem Kept.swapOutVictim_cons (h : Kept mm s (v :: q)) :
    swapLruSwapOutVictim s.link mm = some (0, some v, listDel s.link (lruEntry v)) :=
  swapOutVictim_entry h.head (h.ring.next_head rfl)

theorem Kept.ordered (h : Kept mm s q) : s.Ordered mm := by
  cases q with
  | nil => exact ⟨-1, none, s.link, h.swapOutVictim_nil, h.recency.oldest_head⟩
  | cons v q => exact ⟨0, some v, _, h.swapOutVictim_cons, h.recency.oldest_head⟩

/-! ### A victim leaves -/

theorem Kept.stale_victim (h : Kept mm s (v :: q)) : Stale s.link v := by
  have hring : s.link.Ring lruHead ([] ++ lruEntry v :: q.map lruEntry) := h.ring
  refine ⟨hring.prev_eq rfl rfl, ?_⟩
  cases q with
  | nil => exact Or.inl (hring.next_entry rfl)
  | cons w q => exact Or.inr ⟨w, hring.next_entry rfl, linked_of_mem h.ring (by simp)⟩

/-- `list_del` writes to the neighbours of an entry, and not to the entry itself. -/
theorem listDel_same {m : LruLinks} (hr : m.Ring lruHead (q.map lruEntry)) (hp : p ∈ q) {r : ℕ}
    (hq : r ∉ q.erase p) : (listDel m (lruEntry p)).next (lruEntry r) = m.next (lruEntry r) ∧
      (listDel m (lruEntry p)).prev (lruEntry r) = m.prev (lruEntry r) := by
  refine listDel_sameOff m (lruEntry p) (lruEntry r) ?_
  by_cases hrp : r = p
  · rw [hrp]
    exact hr.notMem_neighbours (mem_entries.mpr hp)
  · rw [List.mem_erase_of_ne hrp] at hq
    rintro (heq | heq)
    · exact hq (mem_ring.mp (heq ▸ hr.prev_mem (mem_ring.mpr hp)))
    · exact hq (mem_ring.mp (heq ▸ hr.next_mem (mem_ring.mpr hp)))

theorem listDel_entries {m : LruLinks} (hr : m.Ring lruHead (q.map lruEntry)) (hp : p ∈ q) :
    (listDel m (lruEntry p)).Ring lruHead ((q.erase p).map lruEntry) :=
  listDel_erase_map (fun _ _ => lruEntry_inj.mp) hr hp

theorem Kept.swapOutVictim (h : Kept mm s (v :: q)) :
    Kept mm ⟨listDel s.link (lruEntry v), Function.update s.mapped v none, s.now + 1⟩ q := by
  have hafter := listDel_entries h.ring List.mem_cons_self
  have hsame := fun r => @listDel_same _ v _ h.ring List.mem_cons_self r
  rw [List.erase_cons_head] at hafter hsame
  refine ⟨h.head, hafter, h.recency.pop, stale_of_same hafter hsame fun p hp hl => ?_⟩
  by_cases hpv : p = v
  · rw [hpv]
    exact h.stale_victim
  · exact h.stale p (by simp [hpv, hp]) hl

/-! ### A page joins the list -/

/-- What `list_add_before` leaves alone. -/
theorem listAddBefore_same {m : LruLinks} (hr : m.Ring lruHead (q.map lruEntry)) {r : ℕ}
    (hq : r ∉ q ++ [p]) : (listAddBefore m lruHead (lruEntry p)).next (lruEntry r) =
        m.next (lruEntry r) ∧
      (listAddBefore m lruHead (lruEntry p)).prev (lruEntry r) = m.prev (lruEntry r) := by
  rw [List.mem_append, List.mem_singleton, not_or] at hq
  refine listAddBefore_sameOff m lruHead (lruEntry p) (lruEntry r) ?_
  rintro (heq | heq | heq)
  · exact hq.2 (lruEntry_inj.mp heq)
  · exact hq.1 (mem_ring.mp (heq ▸ hr.prev_mem List.mem_cons_self))
  · exact lruEntry_ne_head r heq

theorem listAddBefore_entries {m : LruLinks} (hr : m.Ring lruHead (q.map lruEntry))
    (hp : p ∉ q) :
    (listAddBefore m lruHead (lruEntry p)).Ring lruHead ((q ++ [p]).map lruEntry) := by
  rw [List.map_append]
  exact listAddBefore_back hr (mem_ring.not.mpr hp)

/-- A page joins the list at its end, when it was taken off the list or was not on it. -/
theorem Kept.joins (h : Kept mm s q) {m : LruLinks}
    (hr : m.Ring lruHead ((q.erase p).map lruEntry))
    (hsame : ∀ r ∉ q.erase p, m.next (lruEntry r) = s.link.next (lruEntry r) ∧
      m.prev (lruEntry r) = s.link.prev (lruEntry r)) :
    Kept mm ⟨listAddBefore m lruHead (lruEntry p), Function.update s.mapped p (some s.now),
      s.now + 1⟩ (q.erase p ++ [p]) := by
  have hp : p ∉ q.erase p := h.recency.nodup.not_mem_erase
  have hafter := listAddBefore_entries hr hp
  have hkept : ∀ r ∉ q.erase p ++ [p],
      (listAddBefore m lruHead (lruEntry p)).next (lruEntry r) = s.link.next (lruEntry r) ∧
        (listAddBefore m lruHead (lruEntry p)).prev (lruEntry r) = s.link.prev (lruEntry r) := by
    intro r hq
    have hadd := listAddBefore_same hr hq
    rw [List.mem_append, not_or] at hq
    have hbefore := hsame r hq.1
    exact ⟨hadd.1.trans hbefore.1, hadd.2.trans hbefore.2⟩
  refine ⟨h.head, hafter, h.recency.touch p, stale_of_same hafter hkept fun r hq hl => ?_⟩
  rw [List.mem_append, List.mem_singleton, not_or] at hq
  rw [List.mem_erase_of_ne hq.2] at hq
  exact h.stale r hq.1 hl

/-- `list_del` of an entry whose successor points back to the head writes one link. -/
theorem listDel_stale {m : LruLinks} {e : Option ListEntry} (hprev : m.prev e = lruHead)
    (hback : m.prev (m.next e) = lruHead) : listDel m e = m.setNext lruHead (m.next e) := by
  have hself : Function.update m.prev (m.next e) lruHead = m.prev :=
    Function.update_eq_self_iff.mpr hback.symm
  simp only [listDel, listDelRaw, Links.setNext, Links.setPrev, hprev, hself]

theorem Kept.next_eq_head_iff (h : Kept mm s q) : listNext s.link lruHead = lruHead ↔ q = [] :=
  h.ring.next_eq_head_iff.trans List.map_eq_nil_iff

/-- Deleting the page again only writes what is there already, or what is overwritten. -/
theorem Kept.relinked (h : Kept mm s q) (hp : p ∉ q) (hl : Linked s.link p)
    (hclean : listNext s.link lruHead = lruHead ∨
      s.link.next (lruEntry p) = listNext s.link lruHead) :
    listAddBefore (listDel s.link (lruEntry p)) lruHead (lruEntry p) =
      listAddBefore s.link lruHead (lruEntry p) := by
  obtain ⟨hprev, hnext⟩ := h.stale p hp hl
  have hfirst : s.link.prev (listNext s.link lruHead) = lruHead :=
    h.ring.prev_next List.mem_cons_self
  rcases hclean with hempty | hsucc
  · have hnil := h.next_eq_head_iff.mp hempty
    rw [hempty] at hfirst
    have hback : s.link.prev (s.link.next (lruEntry p)) = lruHead := by
      rcases hnext with hhead | ⟨p', heq, hl'⟩
      · rw [hhead, hfirst]
      · rw [heq]
        exact (h.stale p' (by simp [hnil]) hl').1
    rw [listDel_stale hprev hback]
    simp only [listAddBefore, listAddRaw, Links.setNext, Links.setPrev, hfirst,
      Function.update_idem]
  · have hsame : s.link.setNext lruHead (s.link.next (lruEntry p)) = s.link := by
      rw [hsucc, Links.setNext, listNext, Function.update_eq_self]
    rw [listDel_stale hprev (hsucc ▸ hfirst), hsame]

theorem Kept.queued_iff (h : Kept mm s q) (p : ℕ) : s.mapped p ≠ none ↔ p ∈ q :=
  (h.recency.held p).symm

theorem mapSwappable_linked {m : LruLinks} (hmm : some mm.swapList = lruHead) (hl : Linked m p) :
    swapLruMapSwappable m mm p = listAddBefore (listDel m (lruEntry p)) lruHead (lruEntry p) := by
  have htest : m.prev (lruEntry p) ≠ none ∧ m.next (lruEntry p) ≠ none := hl
  simp only [swapLruMapSwappable, hmm, if_pos htest]

theorem mapSwappable_unlinked {m : LruLinks} (hmm : some mm.swapList = lruHead)
    (hl : ¬ Linked m p) :
    swapLruMapSwappable m mm p = listAddBefore m lruHead (lruEntry p) := by
  have htest : ¬ (m.prev (lruEntry p) ≠ none ∧ m.next (lruEntry p) ≠ none) := hl
  simp only [swapLruMapSwappable, hmm, if_neg htest]

theorem Kept.mapSwappable (h : Kept mm s q) (hclean : s.Clean mm (.mapSwappable p)) :
    Kept mm ⟨swapLruMapSwappable s.link mm p, Function.update s.mapped p (some s.now), s.now + 1⟩
      (q.erase p ++ [p]) := by
  by_cases hp : p ∈ q
  · -- an access: the page is taken off the list
    rw [mapSwappable_linked h.head (linked_of_mem h.ring hp)]
    exact h.joins (listDel_entries h.ring hp) fun r hr => listDel_same h.ring hp hr
  · have hlink : swapLruMapSwappable s.link mm p = listAddBefore s.link lruHead (lruEntry p) := by
      by_cases hl : Linked s.link p
      · rw [Clean, h.head, h.queued_iff] at hclean
        rw [mapSwappable_linked h.head hl]
        exact h.relinked hp hl (((hclean.resolve_left hp).resolve_left hl.1).resolve_left hl.2)
      · exact mapSwappable_unlinked h.head hl
    have herase : q.erase p = q := List.erase_of_not_mem hp
    rw [hlink]
    exact h.joins (herase.symm ▸ h.ring) fun _ _ => ⟨rfl, rfl⟩

/-- Otherwise another page than the oldest one comes to stand behind the head. -/
theorem Kept.cut_off (h : Kept mm s q) (hclean : ¬ s.Clean mm (.mapSwappable p)) :
    p ∉ q ∧ q ≠ [] ∧ ∃ x, q.head? ≠ some x ∧
      listNext (swapLruMapSwappable s.link mm p) lruHead = lruEntry x := by
  rw [Clean, h.head, h.queued_iff, h.next_eq_head_iff] at hclean
  simp only [not_or] at hclean
  obtain ⟨hp, hl, hl', hne, hsucc⟩ := hclean
  have hlinked : Linked s.link p := ⟨hl, hl'⟩
  obtain ⟨hprev, hnext⟩ := h.stale p hp hlinked
  -- the head gets the successor of the page, and the page the last place
  have hdel : listDel s.link (lruEntry p) = s.link.bridge lruHead (s.link.next (lruEntry p)) := by
    rw [listDel, hprev, listDelRaw_eq]
  rw [mapSwappable_linked h.head hlinked, hdel, listNext, listAddBefore, listAddRaw_eq,
    Links.insertBetween_next, if_neg (Ne.symm (lruEntry_ne_head p)), Links.bridge_prev,
    Links.bridge_next, if_pos rfl]
  refine ⟨hp, hne, ?_⟩
  rcases hnext with hhead | ⟨p', heq, -⟩
  · exact ⟨p, fun hq => hp (List.mem_of_head? hq), by rw [hhead, if_pos rfl, if_pos rfl]⟩
  · have hlast : lruHead ≠ s.link.prev lruHead := by
      intro hself
      have hback : s.link.next (s.link.prev lruHead) = lruHead :=
        h.ring.next_prev List.mem_cons_self
      rw [← hself] at hback
      exact hne (h.next_eq_head_iff.mp hback)
    refine ⟨p', fun hq => ?_, by rw [heq, if_neg (Ne.symm (lruEntry_ne_head p')), if_neg hlast]⟩
    obtain ⟨q', rfl⟩ : ∃ q', q = p' :: q' := List.head?_eq_some_iff.mp hq
    exact hsucc (heq.trans (h.ring.next_head rfl).symm)

theorem Kept.mapSwappable_ordered_iff (h : Kept mm s q) :
    s.KeepsOrder mm (.mapSwappable p) ↔ s.Clean mm (.mapSwappable p) := by
  constructor
  · rintro ⟨t, ht, r, victim, link, hvictim, hold⟩
    obtain rfl := Option.some.inj ht
    by_contra hclean
    obtain ⟨hp, hne, x, hx, hnext⟩ := h.cut_off hclean
    rw [swapOutVictim_entry h.head hnext] at hvictim
    obtain rfl : some x = victim := congrArg (fun r => r.2.1) (Option.some.inj hvictim)
    have hfirst := (h.recency.touch p).oldest_unique hold
    rw [List.erase_of_not_mem hp] at hfirst
    cases q with
    | nil => exact hne rfl
    | cons f q => exact hx hfirst.symm
  · exact fun hclean => ⟨_, rfl, (h.mapSwappable hclean).ordered⟩

theorem Kept.exec_swapOutVictim (h : Kept mm s q) :
    ∃ t, s.exec mm .swapOutVictim = some t ∧ Kept mm t q.tail := by
  cases q with
  | nil =>
    refine ⟨⟨s.link, s.mapped, s.now + 1⟩, ?_, h.head, h.ring, h.recency.tick, h.stale⟩
    rw [LruRun.exec, execLru, h.swapOutVictim_nil]
    rfl
  | cons v q =>
    refine ⟨_, ?_, h.swapOutVictim⟩
    rw [LruRun.exec, execLru, h.swapOutVictim_cons]
    rfl

theorem Kept.ordered_iff (h : Kept mm s q) (op : FifoOp) :
    s.KeepsOrder mm op ↔ s.Clean mm op := by
  cases op with
  | mapSwappable page => exact h.mapSwappable_ordered_iff
  | swapOutVictim =>
    obtain ⟨t, ht, hkept⟩ := h.exec_swapOutVictim
    exact iff_of_true ⟨t, ht, hkept.ordered⟩ trivial

theorem Kept.exec (h : Kept mm s q) {op : FifoOp} (hclean : s.Clean mm op)
    (heq : s.exec mm op = some t) : ∃ q', Kept mm t q' := by
  cases op with
  | mapSwappable page =>
    obtain rfl := Option.some.inj heq
    exact ⟨_, h.mapSwappable hclean⟩
  | swapOutVictim =>
    obtain ⟨u, hu, hkept⟩ := h.exec_swapOutVictim
    obtain rfl := Option.some.inj (hu.symm.trans heq)
    exact ⟨_, hkept⟩

end

/-! ## Runs -/

/-- After `swap_lru_init_mm`. -/
def start (link : LruLinks) (mm : MmStruct) : LruRun :=
  ⟨(swapLruInitMm link mm).1, fun _ => none, 0⟩

/-- The links of every page are null. -/
def Null (link : LruLinks) : Prop :=
  ∀ page, link.next (lruEntry page) = none ∧ link.prev (lruEntry page) = none

theorem start_kept {link : LruLinks} (hnull : Null link) (mm : MmStruct) :
    Kept (swapLruInitMm link mm).2 (start link mm) [] := by
  refine ⟨rfl, listInit_ring link lruHead, Recency.empty 0, fun p _ hl => ?_⟩
  have hsame := (listInit_sameOff link lruHead (lruEntry p) (lruEntry_ne_head p)).1
  exact absurd (hsame.trans (hnull p).1) hl.2

/-- From the start, and after every call of a run, the next victim is the queued page that was used
the longest ago, exactly when every call is clean. -/
theorem keepsOrder_iff_clean {link : LruLinks} (hnull : Null link) (mm : MmStruct)
    (ops : List FifoOp) :
    (start link mm).Ordered (swapLruInitMm link mm).2 ∧
      (Allowed (exec (swapLruInitMm link mm).2) (KeepsOrder (swapLruInitMm link mm).2) ops
          (start link mm) ↔
        Allowed (exec (swapLruInitMm link mm).2) (Clean (swapLruInitMm link mm).2) ops
          (start link mm)) := by
  have hstart := start_kept hnull mm
  have hany : Allowed (exec (swapLruInitMm link mm).2) (fun _ _ => True) ops (start link mm) :=
    Allowed.trivial ops _
  refine ⟨hstart.ordered, allowed_iff (I := fun s => ∃ q, Kept (swapLruInitMm link mm).2 s q)
    (fun s op h _ => ?_) (fun s op t h _ hclean heq => ?_) ⟨[], hstart⟩ hany⟩
  · obtain ⟨q, hq⟩ := h
    exact hq.ordered_iff op
  · obtain ⟨q, hq⟩ := h
    exact hq.exec hclean heq

/-- A memory that was cleared. -/
def nullLinks : LruLinks := ⟨fun _ => none, fun _ => none⟩

theorem nullLinks_null : Null nullLinks := fun _ => ⟨rfl, rfl⟩

/-- Page 1 is accessed, and page 2 comes back while page 1, which followed it, is the first one. -/
def cleanOps : List FifoOp :=
  [.mapSwappable 1, .mapSwappable 2, .mapSwappable 1, .swapOutVictim, .mapSwappable 2,
    .swapOutVictim]

theorem keepsOrder_clean :
    Allowed (exec (swapLruInitMm nullLinks Vm.initMm).2)
      (KeepsOrder (swapLruInitMm nullLinks Vm.initMm).2) cleanOps (start nullLinks Vm.initMm) :=
  (keepsOrder_iff_clean nullLinks_null Vm.initMm cleanOps).2.mpr (by decide)

/-- Pages 1 and 2 are gone, and page 1 comes back. -/
def goneOps : List FifoOp :=
  [.mapSwappable 1, .mapSwappable 2, .mapSwappable 3, .swapOutVictim, .swapOutVictim]

def staleOps : List FifoOp := goneOps ++ [.mapSwappable 1, .swapOutVictim]

/-- Page 1 leads the head back to page 2, which is handed out again, while page 3 waits. -/
theorem staleOps_repeats_victim : Null nullLinks ∧
    (outputs (execLru (swapLruInitMm nullLinks Vm.initMm).2) staleOps
        (swapLruInitMm nullLinks Vm.initMm).1).map Prod.fst =
      some [(0, none), (0, none), (0, none), (0, some 1), (0, some 2), (0, none), (0, some 2)] ∧
    ¬ Allowed (exec (swapLruInitMm nullLinks Vm.initMm).2)
      (KeepsOrder (swapLruInitMm nullLinks Vm.initMm).2) staleOps (start nullLinks Vm.initMm) := by
  refine ⟨nullLinks_null, by decide, fun h => ?_⟩
  have hrun : (goneOps.foldlM (exec (swapLruInitMm nullLinks Vm.initMm).2)
      (start nullLinks Vm.initMm)).bind (fun s =>
        (s.exec (swapLruInitMm nullLinks Vm.initMm).2 (.mapSwappable 1)).map fun t =>
          (t.mapped 2, (swapLruSwapOutVictim t.link (swapLruInitMm nullLinks Vm.initMm).2).map
            fun r => r.2.1)) = some (none, some (some 2)) := by decide
  obtain ⟨s, hs, hrun⟩ := Option.bind_eq_some_iff.mp hrun
  obtain ⟨t, ht, hlast⟩ := Option.map_eq_some_iff.mp hrun
  obtain ⟨hmapped, hvictim⟩ := Prod.mk.inj hlast
  obtain ⟨u, hu, r, victim, link, hout, hold⟩ := Allowed.of_append h hs
  obtain rfl : t = u := Option.some.inj (ht.symm.trans hu)
  rw [hout] at hvictim
  obtain rfl : victim = some 2 := Option.some.inj hvictim
  obtain ⟨w, hw, -⟩ := hold
  exact Option.some_ne_none w (hw.symm.trans hmapped)

end LruRun
end Zonix
