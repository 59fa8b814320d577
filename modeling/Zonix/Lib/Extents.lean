import Mathlib.Data.Set.Lattice
import Mathlib.Data.List.Pairwise
import Mathlib.Order.Interval.Set.Basic
import Mathlib.Algebra.BigOperators.Group.List.Basic
import Mathlib.Algebra.GroupWithZero.Nat
import Mathlib.Order.CompletePartialOrder

/-!
# Sets of numbers as lists of extents

An extent is a nonempty interval `[base, base + len)`; a list of extents that are pairwise
apart denotes the set `cover es`. The list need not be in address order. This file is the
arithmetic behind any allocator that keeps its free space as such a list:

* `rest` is what is left of an extent when its first `n` cells are taken;
* `absorb` merges a new extent with the ones it touches, in one pass over the list, and
  keeps the others; `absorb_cover` says it adds exactly the new cells;
* `Coalesced` says that no two extents touch. One pass of `absorb` preserves it, and a
  coalesced list that covers an interval is that interval (`eq_singleton_of_cover`).
-/

namespace Zonix.Lib

/-- The interval `[base, base + len)`. -/
structure Extent where
  base : ℕ
  len : ℕ
deriving DecidableEq

namespace Extent

def stop (e : Extent) : ℕ := e.base + e.len

def cells (e : Extent) : Set ℕ := Set.Ico e.base e.stop

/-- The two intervals have no common cell. -/
def Apart (e f : Extent) : Prop := e.stop ≤ f.base ∨ f.stop ≤ e.base

/-- One interval ends exactly where the other begins. -/
def Touch (e f : Extent) : Prop := e.stop = f.base ∨ f.stop = e.base

/-- The smallest interval that holds both, for two that touch. -/
def join (e f : Extent) : Extent := ⟨min e.base f.base, e.len + f.len⟩

/-- What is left when the first `n` cells are taken. -/
def rest (e : Extent) (n : ℕ) : List Extent :=
  if n < e.len then [⟨e.base + n, e.len - n⟩] else []

@[simp] theorem mem_cells {e : Extent} {q : ℕ} : q ∈ e.cells ↔ e.base ≤ q ∧ q < e.stop := Iff.rfl

theorem Apart.symm {e f : Extent} (h : e.Apart f) : f.Apart e := Or.symm h

instance (e f : Extent) : Decidable (e.Touch f) :=
  inferInstanceAs (Decidable (_ ∨ _))

instance : Std.Symm Apart := ⟨fun _ _ => Apart.symm⟩

theorem Apart.disjoint {e f : Extent} (h : e.Apart f) : Disjoint e.cells f.cells := by
  rw [Set.disjoint_left]
  intro q he hf
  rw [mem_cells] at he hf
  unfold Apart at h
  omega

theorem apart_of_disjoint {e f : Extent} (he : 0 < e.len) (hf : 0 < f.len)
    (h : Disjoint e.cells f.cells) : e.Apart f := by
  by_contra hna
  unfold Apart at hna
  rw [Set.disjoint_left] at h
  refine h (a := max e.base f.base) ?_ ?_
  · rw [mem_cells]
    unfold stop at *
    omega
  · rw [mem_cells]
    unfold stop at *
    omega

theorem join_stop {e f : Extent} (h : e.Touch f) : (e.join f).stop = max e.stop f.stop := by
  unfold Touch at h
  simp only [stop, join] at *
  omega

theorem join_cells {e f : Extent} (h : e.Touch f) : (e.join f).cells = e.cells ∪ f.cells := by
  have hstop := join_stop h
  have hbase : (e.join f).base = min e.base f.base := rfl
  have he : e.base ≤ e.stop := Nat.le_add_right _ _
  have hf : f.base ≤ f.stop := Nat.le_add_right _ _
  unfold Touch at h
  ext q
  simp only [Set.mem_union, mem_cells]
  omega

theorem join_apart {e f g : Extent} (h : e.Touch f) (heg : e.Apart g) (hfg : f.Apart g)
    (hg : 0 < g.len) : (e.join f).Apart g := by
  have hstop := join_stop h
  have hbase : (e.join f).base = min e.base f.base := rfl
  have he : e.base ≤ e.stop := Nat.le_add_right _ _
  have hf : f.base ≤ f.stop := Nat.le_add_right _ _
  have hg' : g.base < g.stop := Nat.lt_add_of_pos_right hg
  unfold Apart Touch at *
  omega

theorem join_not_touch {e f g : Extent} (h : e.Touch f) (heg : ¬ e.Touch g) (hfg : ¬ f.Touch g) :
    ¬ (e.join f).Touch g := by
  have hstop := join_stop h
  have hbase : (e.join f).base = min e.base f.base := rfl
  unfold Touch at *
  omega

end Extent

/-! ## Lists of extents -/

namespace Extents
open Extent

/-- The cells of all the extents. -/
def cover (es : List Extent) : Set ℕ := {q | ∃ e ∈ es, q ∈ e.cells}

/-- The number of cells, when no cell is in two extents. -/
def total (es : List Extent) : ℕ := (es.map Extent.len).sum

/-- Nonempty extents, pairwise apart. -/
structure Separate (es : List Extent) : Prop where
  pos : ∀ e ∈ es, 0 < e.len
  apart : es.Pairwise Apart

/-- No extent ends where another begins. -/
def Coalesced (es : List Extent) : Prop := es.Pairwise fun e f => ¬ e.Touch f

theorem mem_cover {es : List Extent} {q : ℕ} : q ∈ cover es ↔ ∃ e ∈ es, q ∈ e.cells := Iff.rfl

@[simp] theorem cover_nil : cover [] = ∅ := by
  ext q
  simp [mem_cover]

@[simp] theorem cover_cons (e : Extent) (es : List Extent) :
    cover (e :: es) = e.cells ∪ cover es := by
  ext q
  simp [mem_cover]

@[simp] theorem cover_append (es fs : List Extent) : cover (es ++ fs) = cover es ∪ cover fs := by
  ext q
  simp only [mem_cover, List.mem_append, Set.mem_union, or_and_right, exists_or]

theorem cells_subset_cover {e : Extent} {es : List Extent} (h : e ∈ es) : e.cells ⊆ cover es :=
  fun _ hq => ⟨e, h, hq⟩

@[simp] theorem total_nil : total [] = 0 := rfl

@[simp] theorem total_cons (e : Extent) (es : List Extent) : total (e :: es) = e.len + total es :=
  rfl

@[simp] theorem total_append (es fs : List Extent) : total (es ++ fs) = total es + total fs := by
  simp [total]

theorem le_total_of_mem {e : Extent} {es : List Extent} (h : e ∈ es) : e.len ≤ total es := by
  obtain ⟨as, bs, rfl⟩ := List.append_of_mem h
  rw [total_append, total_cons]
  omega

theorem Separate.length_le_total {es : List Extent} (h : Separate es) : es.length ≤ total es := by
  obtain ⟨hpos, -⟩ := h
  induction es with
  | nil => simp
  | cons e es ih =>
    have he := hpos e (by simp)
    have hes := ih fun f hf => hpos f (by simp [hf])
    rw [List.length_cons, total_cons]
    omega

theorem Separate.nil : Separate [] := ⟨by simp, List.Pairwise.nil⟩

theorem Separate.cons {e : Extent} {es : List Extent} (he : 0 < e.len)
    (hap : ∀ f ∈ es, e.Apart f) (h : Separate es) : Separate (e :: es) := by
  refine ⟨?_, List.Pairwise.cons hap h.apart⟩
  intro f hf
  rcases List.mem_cons.mp hf with rfl | hf
  · exact he
  · exact h.pos f hf

theorem Separate.tail {e : Extent} {es : List Extent} (h : Separate (e :: es)) : Separate es :=
  ⟨fun f hf => h.pos f (by simp [hf]), (List.pairwise_cons.mp h.apart).2⟩

theorem Separate.perm {es fs : List Extent} (h : Separate es) (hp : es.Perm fs) : Separate fs :=
  ⟨fun e he => h.pos e (hp.mem_iff.mpr he), h.apart.perm hp Apart.symm⟩

theorem Coalesced.not_touch {es : List Extent} (h : Coalesced es) {e f : Extent} (he : e ∈ es)
    (hf : f ∈ es) (hne : e ≠ f) : ¬ e.Touch f := by
  have : Std.Symm fun e f : Extent => ¬ e.Touch f := ⟨fun _ _ hn ht => hn ht.symm⟩
  exact List.Pairwise.forall h he hf hne

theorem Coalesced.perm {es fs : List Extent} (h : Coalesced es) (hp : es.Perm fs) :
    Coalesced fs :=
  List.Pairwise.perm h hp fun hn ht => hn ht.symm

/-- Distinct extents of a separate list have distinct bases. -/
theorem Separate.bases_nodup {es : List Extent} (h : Separate es) :
    (es.map Extent.base).Nodup := by
  induction es with
  | nil => simp
  | cons e es ih =>
    rw [List.map_cons, List.nodup_cons]
    refine ⟨?_, ih h.tail⟩
    intro hmem
    obtain ⟨f, hf, hbase⟩ := List.mem_map.mp hmem
    have hap := (List.pairwise_cons.mp h.apart).1 f hf
    have he := h.pos e (by simp)
    have hfp := h.pos f (by simp [hf])
    unfold Apart stop at hap
    omega

/-- A cell lies in one extent of a separate list only. -/
theorem Separate.eq_of_mem_cells {es : List Extent} (h : Separate es) {e f : Extent} {q : ℕ}
    (he : e ∈ es) (hf : f ∈ es) (hqe : q ∈ e.cells) (hqf : q ∈ f.cells) : e = f := by
  by_contra hne
  exact Set.disjoint_left.mp (h.apart.forall he hf hne).disjoint hqe hqf

/-! ## Taking cells from an extent -/

/-- What is left of one extent of a list when its first `n` cells are taken. -/
theorem rest_cover {e : Extent} {n : ℕ} (hn : n ≤ e.len) :
    cover (e.rest n) = e.cells \ Set.Ico e.base (e.base + n) := by
  ext q
  unfold Extent.rest
  split_ifs with h
  · simp only [cover_cons, cover_nil, Set.union_empty, mem_cells, Set.mem_sdiff, Set.mem_Ico, stop]
    omega
  · have hlen : e.len = n := by omega
    simp [cells, stop, hlen]

theorem rest_total {e : Extent} {n : ℕ} (hn : n ≤ e.len) : total (e.rest n) = e.len - n := by
  unfold Extent.rest
  split_ifs with h
  · rfl
  · rw [total_nil]
    omega

/-- Taking cells from one extent leaves the list separate. -/
theorem Separate.take {as bs : List Extent} {e : Extent} {n : ℕ} (h : Separate (as ++ e :: bs)) :
    Separate (as ++ e.rest n ++ bs) := by
  have hp : (as ++ e.rest n ++ bs).Perm (e.rest n ++ (as ++ bs)) := by
    rw [List.append_assoc]
    exact List.perm_append_comm_assoc _ _ _
  refine Separate.perm ?_ hp.symm
  have he := h.perm List.perm_middle
  have hap := (List.pairwise_cons.mp he.apart).1
  unfold Extent.rest
  split_ifs with hlt
  · refine Separate.cons ?_ (fun f hf => ?_) he.tail
    · show 0 < e.len - n
      omega
    · have hef := hap f hf
      unfold Apart stop at *
      simp only at *
      omega
  · exact he.tail

/-- The cells taken are cells of the list, and the others stay. -/
theorem Separate.cover_take {as bs : List Extent} {e : Extent} {n : ℕ}
    (h : Separate (as ++ e :: bs)) (hn : n ≤ e.len) :
    Set.Ico e.base (e.base + n) ⊆ cover (as ++ e :: bs) ∧
      cover (as ++ e.rest n ++ bs) = cover (as ++ e :: bs) \ Set.Ico e.base (e.base + n) := by
  have hsub : Set.Ico e.base (e.base + n) ⊆ e.cells :=
    Set.Ico_subset_Ico_right (Nat.add_le_add_left hn _)
  refine ⟨hsub.trans (cells_subset_cover (by simp)), ?_⟩
  -- a cell of another extent is none of those taken
  have hout : ∀ f ∈ as ++ bs, ∀ q ∈ f.cells, q ∉ Set.Ico e.base (e.base + n) := by
    intro f hf q hqf hq
    have hap := (List.pairwise_cons.mp (h.perm List.perm_middle).apart).1 f hf
    exact Set.disjoint_left.mp hap.disjoint (hsub hq) hqf
  ext q
  simp only [cover_append, cover_cons, rest_cover hn, Set.mem_union, Set.mem_sdiff, mem_cover]
  constructor
  · rintro ((⟨f, hf, hq⟩ | hq) | ⟨f, hf, hq⟩)
    · exact ⟨Or.inl ⟨f, hf, hq⟩, hout f (by simp [hf]) q hq⟩
    · exact ⟨Or.inr (Or.inl hq.1), hq.2⟩
    · exact ⟨Or.inr (Or.inr ⟨f, hf, hq⟩), hout f (by simp [hf]) q hq⟩
  · rintro ⟨hq | hq | hq, hn⟩
    · exact Or.inl (Or.inl hq)
    · exact Or.inl (Or.inr ⟨hq, hn⟩)
    · exact Or.inr hq

/-- Taking cells from one extent makes no new neighbours. -/
theorem Coalesced.take {as bs : List Extent} {e : Extent} {n : ℕ} (hs : Separate (as ++ e :: bs))
    (h : Coalesced (as ++ e :: bs)) : Coalesced (as ++ e.rest n ++ bs) := by
  have hp : (as ++ e.rest n ++ bs).Perm (e.rest n ++ (as ++ bs)) := by
    rw [List.append_assoc]
    exact List.perm_append_comm_assoc _ _ _
  refine Coalesced.perm ?_ hp.symm
  have hap := (List.pairwise_cons.mp (hs.perm List.perm_middle).apart).1
  have hpos := (hs.perm List.perm_middle).pos
  obtain ⟨hnt, hc⟩ := List.pairwise_cons.mp (h.perm List.perm_middle)
  unfold Extent.rest
  split_ifs with hlt
  · refine List.Pairwise.cons (fun f hf => ?_) hc
    -- the remainder ends where `e` did, and begins inside `e`, where nothing else can end
    have hef := hap f hf
    have hnef := hnt f hf
    have hfpos := hpos f (List.mem_cons_of_mem _ hf)
    unfold Apart Touch stop at *
    simp only at *
    omega
  · exact hc

/-! ## Merging an extent with the ones it touches -/

/-- One pass over the list: an extent that touches `b` becomes part of `b`, and the growing
`b` is compared with the extents that follow; the others are kept. -/
def absorb (b : Extent) : List Extent → Extent × List Extent
  | [] => (b, [])
  | p :: ps =>
    if b.Touch p then absorb (b.join p) ps
    else ((absorb b ps).1, p :: (absorb b ps).2)

theorem absorb_cons_touch {b p : Extent} (h : b.Touch p) (ps : List Extent) :
    absorb b (p :: ps) = absorb (b.join p) ps := if_pos h

theorem absorb_cons_keep {b p : Extent} (h : ¬ b.Touch p) (ps : List Extent) :
    absorb b (p :: ps) = ((absorb b ps).1, p :: (absorb b ps).2) := if_neg h

/-- The extents that are kept are some of the list, in its order. -/
theorem absorb_sublist (b : Extent) (es : List Extent) : (absorb b es).2.Sublist es := by
  induction es generalizing b with
  | nil => exact List.Sublist.refl []
  | cons p ps ih =>
    by_cases h : b.Touch p
    · rw [absorb_cons_touch h]
      exact (ih _).cons p
    · rw [absorb_cons_keep h]
      exact (ih _).cons_cons p

/-- A merged extent begins where one of its parts did. -/
theorem absorb_bases (b : Extent) (es : List Extent) :
    ∀ q ∈ ((absorb b es).1 :: (absorb b es).2).map Extent.base, q ∈ (b :: es).map Extent.base := by
  induction es generalizing b with
  | nil => exact fun q hq => hq
  | cons p ps ih =>
    intro q hq
    by_cases h : b.Touch p
    · rw [absorb_cons_touch h] at hq
      have hjoin : (b.join p).base = b.base ∨ (b.join p).base = p.base := by
        show min b.base p.base = b.base ∨ min b.base p.base = p.base
        omega
      have hq' := ih _ q hq
      simp only [List.map_cons, List.mem_cons] at hq' ⊢
      rcases hjoin with hjoin | hjoin
      · rw [hjoin] at hq'
        tauto
      · rw [hjoin] at hq'
        tauto
    · rw [absorb_cons_keep h] at hq
      have hq' := ih b q
      simp only [List.map_cons, List.mem_cons] at hq hq' ⊢
      tauto

/-- Merging adds the cells of the new extent and no others. -/
theorem absorb_cover (b : Extent) (es : List Extent) :
    (absorb b es).1.cells ∪ cover (absorb b es).2 = b.cells ∪ cover es := by
  induction es generalizing b with
  | nil => rfl
  | cons p ps ih =>
    by_cases h : b.Touch p
    · rw [absorb_cons_touch h, ih, Extent.join_cells h, cover_cons, Set.union_assoc]
    · rw [absorb_cons_keep h, cover_cons, cover_cons, Set.union_left_comm, ih,
        Set.union_left_comm]

theorem absorb_total (b : Extent) (es : List Extent) :
    (absorb b es).1.len + total (absorb b es).2 = b.len + total es := by
  induction es generalizing b with
  | nil => rfl
  | cons p ps ih =>
    by_cases h : b.Touch p
    · rw [absorb_cons_touch h, ih, total_cons, ← Nat.add_assoc]
      rfl
    · rw [absorb_cons_keep h, total_cons, total_cons, Nat.add_left_comm, ih, Nat.add_left_comm]

/-- The result of merging is separate again. -/
theorem absorb_separate {b : Extent} {es : List Extent} (h : Separate (b :: es)) :
    Separate ((absorb b es).1 :: (absorb b es).2) := by
  induction es generalizing b with
  | nil => exact h
  | cons p ps ih =>
    have hpos := h.pos
    obtain ⟨hb, hps⟩ := List.pairwise_cons.mp h.apart
    obtain ⟨hp, hps⟩ := List.pairwise_cons.mp hps
    by_cases ht : b.Touch p
    · rw [absorb_cons_touch ht]
      refine ih (Separate.cons ?_ (fun f hf => ?_) h.tail.tail)
      · exact Nat.add_pos_left (hpos b (by simp)) _
      · exact Extent.join_apart ht (hb f (by simp [hf])) (hp f hf) (hpos f (by simp [hf]))
    · rw [absorb_cons_keep ht]
      have hbps : Separate (b :: ps) :=
        Separate.cons (hpos b (by simp)) (fun f hf => hb f (by simp [hf])) h.tail.tail
      have hih := ih hbps
      -- `p` is apart from what `b` grew into, whose cells are those of `b` and of `ps`
      have hpr : ∀ f ∈ (absorb b ps).1 :: (absorb b ps).2, p.Apart f := by
        intro f hf
        refine Extent.apart_of_disjoint (hpos p (by simp)) (hih.pos f hf) ?_
        rw [Set.disjoint_left]
        intro q hqp hqf
        have hq : q ∈ b.cells ∪ cover ps := by
          rw [← absorb_cover, ← cover_cons]
          exact cells_subset_cover hf hqf
        rcases hq with hq | ⟨g, hg, hq⟩
        · exact Set.disjoint_left.mp (hb p (by simp)).disjoint hq hqp
        · exact Set.disjoint_left.mp (hp g hg).disjoint hqp hq
      exact (Separate.cons (hpos p (by simp)) hpr hih).perm (List.Perm.swap _ _ _)

/-- An extent that touches neither `b` nor the list does not touch what `b` grows into. -/
theorem absorb_not_touch {b k : Extent} {es : List Extent} (hb : ¬ b.Touch k)
    (hes : ∀ p ∈ es, ¬ p.Touch k) : ¬ (absorb b es).1.Touch k := by
  induction es generalizing b with
  | nil => exact hb
  | cons p ps ih =>
    have hps : ∀ f ∈ ps, ¬ f.Touch k := fun f hf => hes f (by simp [hf])
    by_cases h : b.Touch p
    · rw [absorb_cons_touch h]
      exact ih (Extent.join_not_touch h hb (hes p (by simp))) hps
    · rw [absorb_cons_keep h]
      exact ih hb hps

/-- One pass is enough: if no two extents of the list touched, then none touch afterwards,
in whatever order the pass met the neighbours of `b`. -/
theorem absorb_coalesced {b : Extent} {es : List Extent} (h : Coalesced es) :
    Coalesced ((absorb b es).1 :: (absorb b es).2) := by
  refine List.Pairwise.cons ?_ (h.sublist (absorb_sublist b es))
  induction es generalizing b with
  | nil => simp [absorb]
  | cons p ps ih =>
    obtain ⟨hp, hps⟩ := List.pairwise_cons.mp h
    by_cases ht : b.Touch p
    · rw [absorb_cons_touch ht]
      exact ih hps
    · rw [absorb_cons_keep ht]
      intro f hf
      rcases List.mem_cons.mp hf with rfl | hf
      · exact absorb_not_touch ht fun g hg htouch => hp g hg htouch.symm
      · exact ih hps f hf

/-- A coalesced list that covers an interval is that one interval. -/
theorem eq_singleton_of_cover {es : List Extent} {b n : ℕ} (hs : Separate es)
    (hc : Coalesced es) (hn : 0 < n) (hcover : cover es = Set.Ico b (b + n)) :
    es = [⟨b, n⟩] := by
  have hmem : ∀ q, (∃ e ∈ es, e.base ≤ q ∧ q < e.stop) ↔ b ≤ q ∧ q < b + n := fun q => by
    rw [← Set.mem_Ico, ← hcover]
    exact Iff.rfl
  have hin : ∀ e ∈ es, b ≤ e.base ∧ e.base < e.stop ∧ e.stop ≤ b + n := by
    intro e he
    have hpos : e.base < e.stop := Nat.lt_add_of_pos_right (hs.pos e he)
    have hfirst := (hmem e.base).mp ⟨e, he, le_rfl, hpos⟩
    have hlast := (hmem (e.stop - 1)).mp ⟨e, he, by omega, by omega⟩
    omega
  -- the extent that holds `b` begins there, and has no right neighbour to stop short of
  obtain ⟨e, he, hbe, hbs⟩ := (hmem b).mpr (by omega)
  have hbase : e.base = b := le_antisymm hbe (hin e he).1
  have hstop : e.stop = b + n := by
    by_contra hne
    obtain ⟨f, hf, hfb, hfs⟩ := (hmem e.stop).mpr (by have := hin e he; omega)
    have hef : e ≠ f := by
      rintro rfl
      omega
    have hap : e.Apart f := hs.apart.forall he hf hef
    have hnt : ¬ e.Touch f := hc.not_touch he hf hef
    have := (hin e he).2.1
    unfold Apart Touch at *
    omega
  have hall : ∀ f ∈ es, f = e := by
    intro f hf
    have hf' := hin f hf
    refine hs.eq_of_mem_cells hf he (q := f.base) ⟨le_rfl, hf'.2.1⟩ ?_
    rw [mem_cells]
    omega
  have hlen : e.len = n := by
    unfold stop at hstop
    omega
  obtain rfl : e = ⟨b, n⟩ := by
    cases e
    simp_all
  have hnd := hs.bases_nodup
  match es, he, hall, hnd with
  | [f], _, hall, _ => rw [hall f (by simp)]
  | f :: g :: fs, _, hall, hnd =>
    rw [hall f (by simp), hall g (by simp)] at hnd
    simp at hnd

/-! ## The cells in the order of the list -/

/-- The cells, as they are taken one by one from the first extent. -/
def inOrder (es : List Extent) : List ℕ := es.flatMap fun e => List.range' e.base e.len

@[simp] theorem inOrder_cons (e : Extent) (es : List Extent) :
    inOrder (e :: es) = List.range' e.base e.len ++ inOrder es := rfl

theorem mem_inOrder {es : List Extent} {q : ℕ} : q ∈ inOrder es ↔ q ∈ cover es := by
  rw [inOrder, List.mem_flatMap]
  exact exists_congr fun e => and_congr_right fun _ => List.mem_range'_1

/-- The first cell of the first extent is the first cell, and the others stay in order. -/
theorem inOrder_rest {e : Extent} (h : 0 < e.len) (es : List Extent) :
    inOrder (e :: es) = e.base :: inOrder (e.rest 1 ++ es) := by
  rw [inOrder_cons]
  unfold Extent.rest
  split_ifs with hlt
  · rw [List.singleton_append, inOrder_cons, show e.len = (e.len - 1) + 1 by omega,
      List.range'_succ]
    rfl
  · rw [show e.len = 1 by omega]
    rfl

end Extents
end Zonix.Lib
