import Mathlib.Logic.Function.Basic
import Mathlib.Data.Nat.Basic
import Mathlib.Tactic.Common

/-!
# Terminals that print on a roll

A roll has cells without end, in lines of `cols` cells. Printing moves along it; `rows` lines
are in the window, and a new line at its lower edge moves the window down by one. What has
left the window is never printed over, so the roll is a record of everything that was shown.
-/

namespace Zonix.Lib

structure Roll (α : Type*) where
  cells : ℕ → α
  pos : ℕ
  /-- The first line of the window. -/
  top : ℕ

/-- What a character does to the terminal. -/
inductive Key (α : Type*)
  /-- The cell before the cursor is replaced. -/
  | back (a : α)
  | newline
  | ret
  | write (a : α)

namespace Roll

variable {α : Type*} {rows cols : ℕ} {blank : α} {r : Roll α} {k : Key α}

section Steps
variable (rows cols : ℕ) (blank : α)

/-- The cursor at the start of its line. -/
def ret (r : Roll α) : Roll α := { r with pos := r.pos / cols * cols }

/-- The window one line down; the new line is blank. -/
def advance (r : Roll α) : Roll α where
  cells i := if i / cols = r.top + rows then blank else r.cells i
  pos := r.pos
  top := r.top + 1

/-- The cursor one line down. -/
def feed (r : Roll α) : Roll α :=
  let r := { r with pos := r.pos + cols }
  if (r.top + rows) * cols ≤ r.pos then r.advance rows cols blank else r

def step (r : Roll α) : Key α → Roll α
  | .back a =>
    if r.top * cols < r.pos then
      { r with cells := Function.update r.cells (r.pos - 1) a, pos := r.pos - 1 }
    else r
  | .newline => (r.feed rows cols blank).ret cols
  | .ret => r.ret cols
  | .write a => { r with cells := Function.update r.cells r.pos a, pos := r.pos + 1 }

end Steps

/-- The cursor is in the window. -/
structure InWindow (rows cols : ℕ) (r : Roll α) : Prop where
  low : r.top * cols ≤ r.pos
  high : r.pos < (r.top + rows) * cols

/-- The key writes to the last cell of the window. -/
def Overruns (rows cols : ℕ) (r : Roll α) (k : Key α) : Prop :=
  (∃ a, k = .write a) ∧ r.pos + 1 = (r.top + rows) * cols

/-- The start of its line is in the window as well. -/
theorem InWindow.ret (h : r.InWindow rows cols) : (r.ret cols).InWindow rows cols := by
  have hle : r.pos / cols * cols ≤ r.pos := Nat.div_mul_le_self _ _
  refine ⟨?_, lt_of_le_of_lt hle h.high⟩
  show r.top * cols ≤ r.pos / cols * cols
  rcases Nat.eq_zero_or_pos cols with rfl | hpos
  · simp
  · exact Nat.mul_le_mul_right cols ((Nat.le_div_iff_mul_le hpos).mpr h.low)

/-- One line down, where the window may have to move. -/
theorem InWindow.feed (h : r.InWindow rows cols) : (r.feed rows cols blank).InWindow rows cols := by
  have hlow := h.low
  have hhigh := h.high
  rw [Roll.feed]
  split_ifs with hlast
  · refine ⟨?_, ?_⟩
    · show (r.top + 1) * cols ≤ r.pos + cols
      rw [Nat.add_mul, Nat.one_mul]
      exact Nat.add_le_add_right hlow cols
    · show r.pos + cols < (r.top + 1 + rows) * cols
      rw [Nat.add_right_comm, Nat.add_mul, Nat.one_mul]
      exact Nat.add_lt_add_right hhigh cols
  · exact ⟨le_trans hlow (Nat.le_add_right _ _), not_le.mp hlast⟩

theorem InWindow.step (h : r.InWindow rows cols) (hk : ¬ r.Overruns rows cols k) :
    (r.step rows cols blank k).InWindow rows cols := by
  cases k with
  | back a =>
    rw [Roll.step]
    split_ifs with hpos
    · exact ⟨Nat.le_sub_one_of_lt hpos, lt_of_le_of_lt (Nat.sub_le _ _) h.high⟩
    · exact h
  | newline => exact h.feed.ret
  | ret => exact h.ret
  | write a =>
    have hhigh := h.high
    have hne : r.pos + 1 ≠ (r.top + rows) * cols := fun heq => hk ⟨⟨a, rfl⟩, heq⟩
    refine ⟨le_trans h.low (Nat.le_succ _), ?_⟩
    show r.pos + 1 < (r.top + rows) * cols
    omega

/-- The window never moves up. -/
theorem top_le_step (r : Roll α) (k : Key α) : r.top ≤ (r.step rows cols blank k).top := by
  cases k with
  | back a =>
    rw [step]
    split_ifs <;> exact le_rfl
  | newline =>
    show r.top ≤ (r.feed rows cols blank).top
    rw [feed]
    split_ifs
    · exact Nat.le_succ _
    · exact le_rfl
  | ret | write => exact le_rfl

/-- What is above the window stays as it is. -/
theorem step_above (h : r.InWindow rows cols) {i : ℕ} (hi : i < r.top * cols) :
    (r.step rows cols blank k).cells i = r.cells i := by
  have hlow := h.low
  cases k with
  | back a =>
    rw [step]
    split_ifs with hpos
    · exact Function.update_of_ne (by omega) ..
    · rfl
  | newline =>
    have hpos : 0 < cols := Nat.pos_of_ne_zero (by rintro rfl; simp at hi)
    show (r.feed rows cols blank).cells i = _
    rw [feed]
    split_ifs with hlast
    · have hrow : i / cols < r.top := (Nat.div_lt_iff_lt_mul hpos).mpr hi
      exact if_neg (by show ¬ i / cols = r.top + rows; omega)
    · rfl
  | ret => rfl
  | write a => exact Function.update_of_ne (by omega) ..

/-! ## Runs -/

section Runs
variable (rows cols blank)

/-- No key of the run writes to the last cell of the window. -/
def Fits : Roll α → List (Key α) → Prop
  | _, [] => True
  | r, k :: ks => ¬ r.Overruns rows cols k ∧ Fits (r.step rows cols blank k) ks

def run (r : Roll α) (ks : List (Key α)) : Roll α := ks.foldl (step rows cols blank) r

end Runs

theorem InWindow.run {ks : List (Key α)} (h : r.InWindow rows cols)
    (hks : Fits rows cols blank r ks) : (r.run rows cols blank ks).InWindow rows cols := by
  induction ks generalizing r with
  | nil => exact h
  | cons k ks ih => exact ih (h.step hks.1) hks.2

/-- What has left the window is never printed over. -/
theorem run_above {ks : List (Key α)} (h : r.InWindow rows cols)
    (hks : Fits rows cols blank r ks) {i : ℕ} (hi : i < r.top * cols) :
    (r.run rows cols blank ks).cells i = r.cells i := by
  induction ks generalizing r with
  | nil => rfl
  | cons k ks ih =>
    have htop : r.top ≤ (r.step rows cols blank k).top := top_le_step r k
    have hi' := lt_of_lt_of_le hi (Nat.mul_le_mul_right cols htop)
    rw [run, List.foldl_cons]
    exact (ih (h.step hks.1) hks.2 hi').trans (step_above h hi)

/-! ## Lines -/

section Lines

theorem run_append (r : Roll α) (ks ks' : List (Key α)) :
    r.run rows cols blank (ks ++ ks') = (r.run rows cols blank ks).run rows cols blank ks' :=
  List.foldl_append

theorem fits_append (r : Roll α) (ks ks' : List (Key α)) :
    Fits rows cols blank r (ks ++ ks') ↔
      Fits rows cols blank r ks ∧ Fits rows cols blank (r.run rows cols blank ks) ks' := by
  induction ks generalizing r with
  | nil => exact (and_iff_right trivial).symm
  | cons k ks ih => exact (and_congr_right fun _ => ih _).trans and_assoc.symm

/-- A text that does not reach the last column of its line. -/
theorem run_writes {text : List α} {row : ℕ} (h : r.InWindow rows cols)
    (hlow : row * cols ≤ r.pos) (hshort : r.pos + text.length < (row + 1) * cols) :
    Fits rows cols blank r (text.map .write) ∧
      (r.run rows cols blank (text.map .write)).top = r.top ∧
      (r.run rows cols blank (text.map .write)).pos = r.pos + text.length ∧
      (∀ i a, text[i]? = some a →
        (r.run rows cols blank (text.map .write)).cells (r.pos + i) = a) ∧
      ∀ i < r.pos, (r.run rows cols blank (text.map .write)).cells i = r.cells i := by
  induction text generalizing r with
  | nil => exact ⟨trivial, rfl, rfl, fun i a hi => absurd hi (by simp), fun _ _ => rfl⟩
  | cons a text ih =>
    rw [List.length_cons] at hshort
    have hover : ¬ r.Overruns rows cols (.write a) := by
      rintro ⟨-, hlast⟩
      -- the window ends at the end of a line, the text before it
      have hle : row + 1 ≤ r.top + rows := by
        have hhigh := h.high
        by_contra hlt
        have hle := Nat.mul_le_mul_right cols (show r.top + rows ≤ row by omega)
        omega
      have hle := Nat.mul_le_mul_right cols hle
      omega
    have hstep : (r.step rows cols blank (.write a)).InWindow rows cols := h.step hover
    obtain ⟨hfits, htop, hpos, hline, hbefore⟩ := ih hstep
      (show row * cols ≤ r.pos + 1 by omega)
      (show r.pos + 1 + text.length < (row + 1) * cols by omega)
    refine ⟨⟨hover, hfits⟩, htop, ?_, fun i b hi => ?_, fun i hi => ?_⟩
    · rw [List.length_cons]
      exact hpos.trans (show r.pos + 1 + text.length = _ by omega)
    · cases i with
      | zero =>
        obtain rfl : a = b := by simpa using hi
        have hcell := hbefore r.pos (Nat.lt_succ_self _)
        exact hcell.trans (Function.update_self ..)
      | succ i =>
        have hcell := hline i b (by simpa using hi)
        rw [show r.pos + (i + 1) = r.pos + 1 + i by omega]
        exact hcell
    · exact (hbefore i (Nat.lt_succ_of_lt hi)).trans (Function.update_of_ne (by omega) ..)

/-- The keys of a line, with its newline. -/
def line (l : List α) : List (Key α) := l.map .write ++ [.newline]

theorem run_line {l : List α} {row : ℕ} (h : r.InWindow rows cols) (hpos : r.pos = row * cols)
    (hshort : l.length < cols) :
    Fits rows cols blank r (line l) ∧
      (r.run rows cols blank (line l)).pos = (row + 1) * cols ∧
      (r.run rows cols blank (line l)).top ≤ max r.top (row + 2 - rows) ∧
      (∀ i a, l[i]? = some a → (r.run rows cols blank (line l)).cells (row * cols + i) = a) ∧
      ∀ i < row * cols, (r.run rows cols blank (line l)).cells i = r.cells i := by
  have hcols : 0 < cols := Nat.zero_lt_of_lt hshort
  have hend : r.pos + l.length < (row + 1) * cols := by
    rw [hpos, Nat.add_mul]
    omega
  have hwrites : Fits rows cols blank r (l.map .write) ∧ _ := run_writes h (le_of_eq hpos.symm) hend
  obtain ⟨hfits, htop, hend, htext, hbefore⟩ := hwrites
  have hwindow := h.run hfits
  rw [line, run_append]
  generalize r.run rows cols blank (l.map .write) = t at *
  -- the line that may be cleared is below the text
  have hkeeps : ∀ i ≤ t.pos, (t.step rows cols blank .newline).cells i = t.cells i := by
    intro i hi
    show (t.feed rows cols blank).cells i = _
    rw [feed]
    split_ifs with hlast
    · have hrow : i / cols < t.top + rows :=
        (Nat.div_lt_iff_lt_mul hcols).mpr (lt_of_le_of_lt hi hwindow.high)
      exact if_neg (show ¬ i / cols = t.top + rows by omega)
    · rfl
  refine ⟨(fits_append r _ _).mpr ⟨hfits, ?_⟩, ?_, ?_, fun i a hi => ?_, fun i hi => ?_⟩
  · exact ⟨fun hh => by simp [Overruns] at hh, trivial⟩
  · show (t.feed rows cols blank).pos / cols * cols = _
    have hfeed : (t.feed rows cols blank).pos = t.pos + cols := by
      rw [feed]
      split_ifs <;> rfl
    rw [hfeed, hend, hpos, Nat.add_right_comm, ← Nat.succ_mul, Nat.add_comm,
      Nat.add_mul_div_right _ _ hcols, Nat.div_eq_of_lt hshort, Nat.zero_add]
  · show (t.feed rows cols blank).top ≤ _
    rw [← htop, feed]
    split_ifs with hlast
    · -- the window ends with the new line
      have hrow : t.top + rows < row + 2 := by
        by_contra hge
        have hle := Nat.mul_le_mul_right cols (not_lt.mp hge)
        have h₁ := Nat.add_mul row 1 cols
        have h₂ := Nat.add_mul row 2 cols
        have h₃ : (t.top + rows) * cols ≤ t.pos + cols := hlast
        omega
      show t.top + 1 ≤ max t.top (row + 2 - rows)
      omega
    · exact le_max_left ..
  · have hlt := (List.getElem?_eq_some_iff.mp hi).1
    rw [← hpos]
    exact (hkeeps _ (by omega)).trans (htext i a hi)
  · exact (hkeeps i (by omega)).trans (hbefore i (by omega))

/-- Lines shorter than the roll is wide are printed one below the other. -/
theorem run_lines {ls : List (List α)} {row : ℕ} (h : r.InWindow rows cols)
    (hpos : r.pos = row * cols) (hshort : ∀ l ∈ ls, l.length < cols) :
    Fits rows cols blank r (ls.flatMap line) ∧
      (r.run rows cols blank (ls.flatMap line)).pos = (row + ls.length) * cols ∧
      (r.run rows cols blank (ls.flatMap line)).top ≤ max r.top (row + ls.length + 1 - rows) ∧
      (∀ k l, ls[k]? = some l → ∀ i a, l[i]? = some a →
        (r.run rows cols blank (ls.flatMap line)).cells ((row + k) * cols + i) = a) ∧
      ∀ i < row * cols, (r.run rows cols blank (ls.flatMap line)).cells i = r.cells i := by
  induction ls generalizing r row with
  | nil => exact ⟨trivial, hpos, le_max_left .., fun k l hk => absurd hk (by simp), fun _ _ => rfl⟩
  | cons l ls ih =>
    have hline : Fits rows cols blank r (line l) ∧ _ :=
      run_line h hpos (hshort l List.mem_cons_self)
    obtain ⟨hfits, hend, htop, htext, hbefore⟩ := hline
    obtain ⟨hfits', hend', htop', htext', hbefore'⟩ := ih (h.run hfits) hend fun l' hl' =>
      hshort l' (List.mem_cons_of_mem l hl')
    have hcut : ∀ i < (row + 1) * cols, (r.run rows cols blank ((l :: ls).flatMap line)).cells i =
        (r.run rows cols blank (line l)).cells i := by
      intro i hi
      rw [List.flatMap_cons, run_append]
      exact hbefore' i hi
    refine ⟨?_, ?_, ?_, fun k l' hk i a hi => ?_, fun i hi => ?_⟩
    · rw [List.flatMap_cons, fits_append]
      exact ⟨hfits, hfits'⟩
    · rw [List.flatMap_cons, run_append, hend', List.length_cons]
      congr 1
      omega
    · rw [List.flatMap_cons, run_append, List.length_cons]
      omega
    · cases k with
      | zero =>
        obtain rfl : l = l' := by simpa using hk
        have hlt := (List.getElem?_eq_some_iff.mp hi).1
        have hshort' := hshort l List.mem_cons_self
        have hmul := Nat.add_mul row 1 cols
        rw [Nat.add_zero, hcut _ (by omega)]
        exact htext i a hi
      | succ k =>
        rw [List.flatMap_cons, run_append, show row + (k + 1) = row + 1 + k by omega]
        exact htext' k l' (by simpa using hk) i a hi
    · have hmul := Nat.add_mul row 1 cols
      exact (hcut i (by omega)).trans (hbefore i hi)

end Lines

end Roll
end Zonix.Lib
