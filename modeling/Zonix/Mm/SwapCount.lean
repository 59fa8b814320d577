import Zonix.Mm.SwapEntries
import Mathlib.Data.Finset.Card
import Mathlib.Data.Finset.Range

/-!
# What `swap_out` returns

The loop index is the result, and `continue` counts too. So the result is an upper bound of what
was done: it is at least the number of frames that were freed, and these are at least the pages
whose entries became swap entries. They are equal exactly when no iteration skipped its page.
-/

namespace Zonix
open Lib

namespace Vm

/-- The pages whose entries were present in `s` and are swap entries in `t`. -/
def swappedOutPages (s t : Vm) (pgdir : ℕ) : Finset ℕ :=
  (Finset.range (2 ^ 20)).filter fun n =>
    Present (s.pteAt pgdir (page2pa n)) ∧ t.SwappedOut pgdir (page2pa n)

/-- The queue is empty, or the page at its head is evicted, to a slot other than slot 0: the entry
of slot 0 is the empty entry. -/
def HeadEvicted (mm : MmStruct) (s : Vm) : Prop :=
  listNext s.pmm.link mm.swapList = mm.swapList ∨
    ∃ v, s.Evicts mm v ∧ s.swapOffset <<< 8 ≠ 0#32

section Pages
variable {s t u : Vm} {mm : MmStruct} {pgdir : ℕ}

theorem mem_swappedOutPages {la : Word} : pagNum la ∈ s.swappedOutPages t pgdir ↔
    Present (s.pteAt pgdir la) ∧ t.SwappedOut pgdir la := by
  have hpage : pagNum (page2pa (pagNum la)) = pagNum la := pagNum_page2pa (pagNum_lt la)
  rw [swappedOutPages, Finset.mem_filter, Finset.mem_range, SwappedOut, SwappedOut,
    pteAt_page s pgdir hpage, pteAt_page t pgdir hpage]
  exact and_iff_right (pagNum_lt la)

theorem swappedOutPages_lt {n : ℕ} (hn : n ∈ s.swappedOutPages t pgdir) : n < 2 ^ 20 :=
  Finset.mem_range.mp (Finset.mem_filter.mp hn).1

/-- Every page is the page of an address. -/
theorem swappedOutPages_ext {A : Finset ℕ} (hA : ∀ n ∈ A, n < 2 ^ 20)
    (h : ∀ la, Present (s.pteAt pgdir la) ∧ t.SwappedOut pgdir la ↔ pagNum la ∈ A) :
    s.swappedOutPages t pgdir = A := by
  ext n
  constructor
  · intro hn
    have hpage := pagNum_page2pa (swappedOutPages_lt hn)
    rw [← hpage] at hn ⊢
    exact (h _).mp (mem_swappedOutPages.mp hn)
  · intro hn
    have hpage := pagNum_page2pa (hA n hn)
    rw [← hpage] at hn ⊢
    exact mem_swappedOutPages.mpr ((h _).mpr hn)

theorem swappedOutPages_self : s.swappedOutPages s pgdir = ∅ := by
  refine swappedOutPages_ext (by simp) fun la => iff_of_false ?_ (by simp)
  rintro ⟨hp, -, hno⟩
  exact hno hp

/-- From a state with the same entries. -/
theorem swappedOutPages_congr (h : ∀ la, u.pteAt pgdir la = s.pteAt pgdir la) :
    s.swappedOutPages t pgdir = u.swappedOutPages t pgdir := by
  refine swappedOutPages_ext (fun n hn => swappedOutPages_lt hn) fun la => ?_
  rw [mem_swappedOutPages, h]

/-- The entry that an eviction stores is not present. -/
theorem Evicted.absent {v : ℕ} {addr : Word} (hev : Evicted s mm v addr u) :
    ¬ Present (u.pteAt mm.pgdir addr) := by
  rw [hev.pteAt, if_pos rfl]
  exact not_present_shiftLeft _

theorem Evicted.notMem_swappedOutPages {v : ℕ} {addr : Word} (hev : Evicted s mm v addr u) :
    pagNum addr ∉ u.swappedOutPages t mm.pgdir :=
  fun hmem => hev.absent (mem_swappedOutPages.mp hmem).1

/-- The first of the evictions adds its page, unless its slot is slot 0. -/
theorem Evicted.swappedOutPages {v : ℕ} {addr : Word} (hev : Evicted s mm v addr u)
    (hlast : t.pteAt mm.pgdir addr = u.pteAt mm.pgdir addr) :
    s.swappedOutPages t mm.pgdir = if s.swapOffset <<< 8 = 0#32 then u.swappedOutPages t mm.pgdir
      else insert (pagNum addr) (u.swappedOutPages t mm.pgdir) := by
  have hat : t.pteAt mm.pgdir addr = s.swapOffset <<< 8 := by
    rw [hlast, hev.pteAt, if_pos rfl]
  have hother : ∀ la, pagNum la ≠ pagNum addr →
      (Present (s.pteAt mm.pgdir la) ∧ t.SwappedOut mm.pgdir la ↔
        pagNum la ∈ u.swappedOutPages t mm.pgdir) := by
    intro la hla
    rw [mem_swappedOutPages, hev.pteAt, if_neg hla]
  have hself : ∀ la, pagNum la = pagNum addr →
      (Present (s.pteAt mm.pgdir la) ∧ t.SwappedOut mm.pgdir la ↔ s.swapOffset <<< 8 ≠ 0#32) := by
    intro la hla
    rw [SwappedOut, pteAt_page s _ hla, pteAt_page t _ hla, hat]
    exact ⟨fun hh => hh.2.1, fun hh => ⟨hev.maps.1, hh, not_present_shiftLeft _⟩⟩
  -- the entry of slot 0 is zero, and no entry of a page that is swapped out
  by_cases hz : s.swapOffset <<< 8 = 0#32
  · rw [if_pos hz]
    refine swappedOutPages_ext (fun n hn => swappedOutPages_lt hn) fun la => ?_
    by_cases hla : pagNum la = pagNum addr
    · rw [hself la hla, hla]
      exact iff_of_false (fun hh => hh hz) hev.notMem_swappedOutPages
    · exact hother la hla
  · rw [if_neg hz]
    refine swappedOutPages_ext (fun n hn => ?_) fun la => ?_
    · rcases Finset.mem_insert.mp hn with rfl | hn
      · exact pagNum_lt addr
      · exact swappedOutPages_lt hn
    · rw [Finset.mem_insert]
      by_cases hla : pagNum la = pagNum addr
      · rw [hself la hla]
        exact iff_of_true hz (Or.inl hla)
      · rw [hother la hla]
        exact (or_iff_right hla).symm

end Pages

section Loop
variable {s t : Vm} {mm : MmStruct} {ram : Set ℕ} {qs : List ℕ} {o : Outcome}

/-- An iteration leaves entries alone that are not present. -/
theorem Space.iteration_absent (h : s.Space mm ram qs) (heq : s.swapOutOne mm = some (o, t))
    {la : Word} (hp : ¬ Present (s.pteAt mm.pgdir la)) :
    t.pteAt mm.pgdir la = s.pteAt mm.pgdir la := by
  rcases h.iteration heq with ⟨v, addr, -, hev⟩ | ⟨-, hsame⟩
  · rw [hev.pteAt, if_neg]
    exact fun hla => hp ((maps_congr hla).mpr hev.maps).1
  · exact hsame.pteAt h la

theorem Space.loop_absent (h : s.Space mm ram qs) {k : ℕ} {i r : ℤ}
    (heq : swapOutLoop mm k i s = some (r, t)) {la : Word} (hp : ¬ Present (s.pteAt mm.pgdir la)) :
    t.pteAt mm.pgdir la = s.pteAt mm.pgdir la := by
  refine (h.loop_keeps (I := fun u => u.pteAt mm.pgdir la = s.pteAt mm.pgdir la)
    (fun hu hsame hone => ?_) rfl heq).2
  exact (hu.iteration_absent hone (hsame ▸ hp)).trans hsame

/-- An iteration that evicts no page frees none. -/
theorem SwapOutOne.nrFree (ho : SwapOutOne s mm o t) (hno : ∀ v addr, o ≠ .evicted v addr) :
    t.pmm.nrFree = s.pmm.nrFree := by
  cases ho with
  | stop | notFound => rfl
  | @writeFailed v r t hn hfind hp hw hr =>
    have hpmm := (s.dequeued v).swapfsWrite_pmm (s.swapOffset <<< 8) v
    rw [hw] at hpmm
    rw [hpmm]
    rfl
  | evicted => exact absurd rfl (hno _ _)

/-- When the head of the queue is to be evicted, the iteration does not skip it. -/
theorem HeadEvicted.ne_skip (h : s.Space mm ram qs) (hs : HeadEvicted mm s)
    (heq : s.swapOutOne mm = some (o, t)) : o ≠ .skip := by
  rintro rfl
  obtain ⟨ho, -⟩ := h.swapOutOne_eq heq
  rcases hs with hempty | ⟨v, hev, -⟩
  · rw [h.head] at hempty
    cases ho with
    | notFound hn | writeFailed hn =>
      rw [h.head] at hn
      exact absurd (hempty.symm.trans hn) (by simp)
  · have hfreed := (hev.evicted h heq).1.nrFree
    have hsame := ho.nrFree (by simp)
    omega

theorem iterations_succ {P : Vm → Prop} {k : ℕ} (heq : s.swapOutOne mm = some (o, t)) :
    Iterations mm P (k + 1) s ↔ P s ∧ (o ≠ .stop → Iterations mm P k t) := by
  refine and_congr_right fun _ => ⟨fun hrest => hrest o t heq, fun hrest o' t' heq' => ?_⟩
  obtain ⟨rfl, rfl⟩ := Prod.mk.inj (Option.some.inj (heq.symm.trans heq'))
  exact hrest

/-- The iteration that stops finds the queue empty. -/
theorem SwapOutOne.headEvicted_stop (ho : SwapOutOne s mm .stop t) : HeadEvicted mm s := by
  cases ho with
  | stop hn => exact Or.inl hn

/-- After an eviction, what decides is whether the entry that was stored is one of a slot. -/
theorem Space.headEvicted_iff (h : s.Space mm ram qs) {v : ℕ} {addr : Word}
    (hev : Evicted s mm v addr t) : HeadEvicted mm s ↔ s.swapOffset <<< 8 ≠ 0#32 := by
  refine ⟨fun hh => ?_, fun hne => Or.inr ⟨v, hev.evicts, hne⟩⟩
  rcases hh with hempty | ⟨-, -, hne⟩
  · rw [hev.next, h.head] at hempty
    exact absurd hempty (by simp)
  · exact hne

/-- The pages that were swapped out, the frames that were freed, and the iterations: the first
are at most the second, and these at most the third. -/
theorem Space.loop_counts (h : s.Space mm ram qs) {k : ℕ} {i r : ℤ}
    (heq : swapOutLoop mm k i s = some (r, t)) :
    ((s.swappedOutPages t mm.pgdir).card : ℤ) ≤ t.pmm.nrFree - s.pmm.nrFree ∧
      (t.pmm.nrFree - s.pmm.nrFree : ℤ) ≤ r - i ∧
      (((s.swappedOutPages t mm.pgdir).card : ℤ) = r - i ↔
        Iterations mm (HeadEvicted mm) k s) := by
  induction k generalizing i s qs with
  | zero =>
    obtain ⟨rfl, rfl⟩ := Prod.mk.inj (Option.some.inj heq)
    rw [swappedOutPages_self]
    simp [Iterations]
  | succ k ih =>
    obtain ⟨o, u, hone, -, -, hstop⟩ := swapOutOne_spec h.lists h.head
    obtain ⟨ho, hu⟩ := h.swapOutOne_eq hone
    have hiter := iterations_succ (P := HeadEvicted mm) (k := k) hone
    cases o with
    | stop =>
      rw [swapOutLoop_stop hone] at heq
      obtain ⟨rfl, rfl⟩ := Prod.mk.inj (Option.some.inj heq)
      have hentries := swappedOutPages_congr (t := u) ((ho.same h (by simp)).pteAt h)
      rw [swappedOutPages_self] at hentries
      have hfree := ho.nrFree (by simp)
      rw [hentries, hfree, hiter]
      simp [ho.headEvicted_stop]
    | skip =>
      rw [swapOutLoop_next hone (by simp)] at heq
      obtain ⟨hpages, hfrees, -⟩ := ih hu heq
      have hfree := ho.nrFree (by simp)
      rw [swappedOutPages_congr ((ho.same h (by simp)).pteAt h), hiter]
      -- this iteration is counted, and nothing is freed in it
      refine ⟨by omega, by omega, iff_of_false (by omega) fun hh => ?_⟩
      exact hh.1.ne_skip h hone rfl
    | evicted v addr =>
      rw [swapOutLoop_next hone (by simp)] at heq
      obtain ⟨hpages, hfrees, hequal⟩ := ih hu heq
      have hev := h.iteration_evicted hone
      have hfree := hev.nrFree
      -- the loop leaves the entry that was stored as it is
      rw [hev.swappedOutPages (hu.loop_absent heq hev.absent), hiter, h.headEvicted_iff hev]
      by_cases hz : s.swapOffset <<< 8 = 0#32
      · rw [if_pos hz]
        exact ⟨by omega, by omega, iff_of_false (by omega) fun hh => hh.1 hz⟩
      · rw [if_neg hz, Finset.card_insert_of_notMem hev.notMem_swappedOutPages]
        refine ⟨by push_cast; omega, by omega, ?_⟩
        have hgo : (Outcome.evicted v addr ≠ .stop → Iterations mm (HeadEvicted mm) k u) ↔
            Iterations mm (HeadEvicted mm) k u := imp_iff_right (by simp)
        rw [hgo, and_iff_right hz, ← hequal]
        push_cast
        omega

/-- `swap_out` returns the number of pages that it swapped out, and as many frames were freed,
exactly when no iteration skips the page that it took off the queue. -/
theorem swapOut_counts_iff (h : s.Space mm ram qs) (n : ℤ) :
    ∃ r t, s.swapOut mm n = some (r, t) ∧
      ((r = (s.swappedOutPages t mm.pgdir).card ∧
        ((s.swappedOutPages t mm.pgdir).card : ℤ) = t.pmm.nrFree - s.pmm.nrFree) ↔
          Iterations mm (HeadEvicted mm) n.toNat s) := by
  obtain ⟨r, t, heq, -⟩ := swapOut_lists h.lists h.head n
  obtain ⟨hpages, hfrees, hequal⟩ := h.loop_counts heq
  refine ⟨r, t, heq, ?_⟩
  rw [← hequal]
  omega

end Loop

/-! ## On the small machine -/

/-- The disk refuses the next write. -/
def failing (s : Vm) : Vm := s.setIde { s.ide with status := fun _ _ => IDE_DRDY ||| IDE_ERR }

theorem Space.failing {s : Vm} {mm : MmStruct} {ram : Set ℕ} {qs : List ℕ}
    (h : s.Space mm ram qs) : s.failing.Space mm ram qs :=
  h.congr h.lists (fun _ => rfl) h.pgdir.notFree h.data

/-- The write fails: `swap_out` returns 1, and no frame was freed. -/
theorem swapOut_counts_skipped : ∃ (s : Vm) (qs : List ℕ),
    s.Space initMm (Set.Ico 4 (4 + 8)) qs ∧ ∃ t : Vm, s.swapOut initMm 1 = some (1, t) ∧
      t.pmm.nrFree = s.pmm.nrFree ∧
      ¬ ((1 : ℤ) = (s.swappedOutPages t initMm.pgdir).card ∧
        ((s.swappedOutPages t initMm.pgdir).card : ℤ) = t.pmm.nrFree - s.pmm.nrFree) := by
  have heq : ((unmappedOps.foldlM (exec initMm) (booted 8 1024#32)).bind fun u =>
      (u.failing.swapOut initMm 1).map fun x => (x.1, x.2.pmm.nrFree, u.failing.pmm.nrFree)) =
      some (1, 7, 7) := by decide +kernel
  obtain ⟨u, hexec, heq⟩ := Option.bind_eq_some_iff.mp heq
  obtain ⟨⟨r, t⟩, hout, heq⟩ := Option.map_eq_some_iff.mp heq
  obtain ⟨hr, hfree⟩ := Prod.mk.inj heq
  obtain ⟨ht, hu⟩ := Prod.mk.inj hfree
  dsimp only at hr ht
  subst hr
  obtain ⟨qs, hspace⟩ := run_space (booted_space (by decide) 1024#32 (by decide))
    (Run.of_foldlM unmappedOps_allowed hexec)
  refine ⟨u.failing, qs, hspace.failing, t, hout, ht.trans hu.symm, ?_⟩
  rw [ht, hu]
  omega

/-- Three pages are swapped out, and the queue is empty then. -/
theorem swapOut_counts_three : ∃ (u : Vm) (r : ℤ) (t : Vm),
    threeOps.foldlM (exec initMm) (booted 8 1024#32) = some u ∧
    u.swapOut initMm 4 = some (r, t) ∧
      ((r = (u.swappedOutPages t initMm.pgdir).card ∧
        ((u.swappedOutPages t initMm.pgdir).card : ℤ) = t.pmm.nrFree - u.pmm.nrFree) ↔
          Iterations initMm (HeadEvicted initMm) 4 u) := by
  have heq : ∃ u, threeOps.foldlM (exec initMm) (booted 8 1024#32) = some u := ⟨_, rfl⟩
  obtain ⟨u, heq⟩ := heq
  obtain ⟨qs, hspace⟩ := run_space (booted_space (by decide) 1024#32 (by decide))
    (Run.of_foldlM threeOps_allowed heq)
  obtain ⟨r, t, hout, hiff⟩ := swapOut_counts_iff hspace 4
  exact ⟨u, r, t, heq, hout, hiff⟩

end Vm
end Zonix
