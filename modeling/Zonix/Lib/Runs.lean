import Mathlib.Data.Nat.Notation
import Mathlib.Order.Basic
import Mathlib.Tactic.TypeStar

/-!
# Maximal runs

The positions of a window either have a key or have none. A maximal run is an interval of positions
with one key that cannot be longer in either direction. `Split` cuts a window into its runs from the
left to the right, each one up to the first position that does not continue it; and these are the
maximal runs of the window.
-/

namespace Zonix.Lib

/-- The positions from `left` up to `right`, and their key. -/
@[ext] structure Span (κ : Type*) where
  left : ℕ
  right : ℕ
  key : κ

namespace Span
variable {κ : Type*} {key : ℕ → Option κ} {start limit : ℕ} {run : Span κ} {runs : List (Span κ)}

/-- A maximal run of the positions from `start` up to `limit`. -/
structure Maximal (key : ℕ → Option κ) (start limit : ℕ) (run : Span κ) : Prop where
  nonempty : run.left < run.right
  start_le : start ≤ run.left
  le_limit : run.right ≤ limit
  same : ∀ i, run.left ≤ i → i < run.right → key i = some run.key
  leftEnd : run.left = start ∨ key (run.left - 1) ≠ some run.key
  rightEnd : run.right = limit ∨ key run.right ≠ some run.key

/-- The first run of a window: nothing in front of it has a key. -/
structure First (key : ℕ → Option κ) (start limit : ℕ) (run : Span κ) : Prop where
  nonempty : run.left < run.right
  start_le : start ≤ run.left
  le_limit : run.right ≤ limit
  absent : ∀ i, start ≤ i → i < run.left → key i = none
  same : ∀ i, run.left ≤ i → i < run.right → key i = some run.key
  rightEnd : run.right = limit ∨ key run.right ≠ some run.key

/-- A window, run after run. -/
inductive Split (key : ℕ → Option κ) (limit : ℕ) : ℕ → List (Span κ) → Prop
  | done {start : ℕ} : (∀ i, start ≤ i → i < limit → key i = none) → Split key limit start []
  | next {start : ℕ} {run : Span κ} {runs : List (Span κ)} :
    First key start limit run → Split key limit run.right runs → Split key limit start (run :: runs)

theorem First.maximal (h : First key start limit run) : Maximal key start limit run := by
  refine ⟨h.nonempty, h.start_le, h.le_limit, h.same, ?_, h.rightEnd⟩
  rcases Nat.eq_or_lt_of_le h.start_le with heq | hlt
  · exact Or.inl heq.symm
  · right
    rw [h.absent (run.left - 1) (by omega) (by omega)]
    simp

/-- A maximal run does not begin before the first one. -/
theorem First.left_le {other : Span κ} (h : First key start limit run)
    (ho : Maximal key start limit other) : run.left ≤ other.left := by
  by_contra hlt
  have hkey := ho.same other.left (Nat.le_refl _) ho.nonempty
  rw [h.absent _ ho.start_le (by omega)] at hkey
  simp at hkey

/-- A maximal run that begins in the first one is the first one. -/
theorem First.eq_of_lt {other : Span κ} (h : First key start limit run)
    (ho : Maximal key start limit other) (hin : other.left < run.right) : other = run := by
  have hleft := h.left_le ho
  have hnonempty := ho.nonempty
  have hstart := h.start_le
  have hsame : run.key = other.key :=
    Option.some.inj ((h.same _ hleft hin).symm.trans (ho.same _ (Nat.le_refl _) hnonempty))
  have hbegin : other.left = run.left := by
    rcases ho.leftEnd with heq | hne
    · omega
    · by_contra hlt
      rw [h.same (other.left - 1) (by omega) (by omega), hsame] at hne
      exact hne rfl
  have hend : other.right = run.right := by
    have hle := h.le_limit
    have hle' := ho.le_limit
    rcases Nat.lt_trichotomy other.right run.right with hlt | heq | hgt
    · have hne := ho.rightEnd.resolve_left (by omega)
      rw [h.same other.right (by omega) hlt, hsame] at hne
      exact absurd rfl hne
    · exact heq
    · have hne := h.rightEnd.resolve_left (by omega)
      rw [ho.same run.right (by omega) hgt, hsame] at hne
      exact absurd rfl hne
  exact Span.ext hbegin hend hsame.symm

/-- The other maximal runs are those of the window behind the first one. -/
theorem First.maximal_iff {other : Span κ} (h : First key start limit run) :
    Maximal key start limit other ↔ other = run ∨ Maximal key run.right limit other := by
  have hstart := h.start_le
  have hnonempty := h.nonempty
  constructor
  · intro ho
    rcases Nat.lt_or_ge other.left run.right with hin | hbehind
    · exact Or.inl (h.eq_of_lt ho hin)
    · right
      refine ⟨ho.nonempty, hbehind, ho.le_limit, ho.same, ?_, ho.rightEnd⟩
      exact Or.inr (ho.leftEnd.resolve_left (by omega))
  · rintro (rfl | ho)
    · exact h.maximal
    · have hbehind := ho.start_le
      refine ⟨ho.nonempty, by omega, ho.le_limit, ho.same, Or.inr ?_, ho.rightEnd⟩
      rcases ho.leftEnd with heq | hne
      · -- right behind the first run there is another key
        have hle := ho.le_limit
        have hnonempty' := ho.nonempty
        have hend := h.rightEnd.resolve_left (by omega)
        rw [← heq, ho.same other.left (Nat.le_refl _) hnonempty'] at hend
        rw [h.same (other.left - 1) (by omega) (by omega)]
        exact Ne.symm hend
      · exact hne

theorem Split.maximal_iff (h : Split key limit start runs) (run : Span κ) :
    run ∈ runs ↔ Maximal key start limit run := by
  induction h with
  | @done start habsent =>
    simp only [List.not_mem_nil, false_iff]
    intro hm
    have hkey := hm.same run.left (Nat.le_refl _) hm.nonempty
    have hle := hm.le_limit
    have hnonempty := hm.nonempty
    rw [habsent run.left hm.start_le (by omega)] at hkey
    simp at hkey
  | next hfirst _ ih => rw [List.mem_cons, ih, hfirst.maximal_iff]

/-- The runs come in order, and none of them twice. -/
theorem Split.ordered (h : Split key limit start runs) :
    runs.Pairwise fun a b => a.right ≤ b.left := by
  induction h with
  | done => exact List.Pairwise.nil
  | next hfirst hrest ih =>
    refine List.Pairwise.cons (fun run hrun => ?_) ih
    exact ((hrest.maximal_iff run).mp hrun).start_le

theorem Split.length_le (h : Split key limit start runs) : runs.length ≤ limit - start := by
  induction h with
  | done => exact Nat.zero_le _
  | next hfirst _ ih =>
    have hstart := hfirst.start_le
    have hnonempty := hfirst.nonempty
    have hle := hfirst.le_limit
    rw [List.length_cons]
    omega

end Span
end Zonix.Lib
