import Mathlib.Data.Nat.Notation
import Mathlib.Tactic.SplitIfs

/-!
# Line editors

A line is typed character by character: some characters are appended while there is room, one erases
the last character, and one completes the line. Which they are is up to the editor.
-/

namespace Zonix.Lib

structure LineEditor (α : Type) where
  submits : α → Bool
  erases : α → Bool
  accepts : α → Bool
  capacity : ℕ

/-- The line that is being typed, and the lines that are complete, the oldest first. -/
structure Typed (α : Type) where
  line : List α
  lines : List (List α)

namespace LineEditor
variable {α : Type} {e : LineEditor α} {t : Typed α} {c : α}

def start : Typed α := ⟨[], []⟩

/-- What is left of a line, when the character does not complete it. -/
def edit (e : LineEditor α) (line : List α) (c : α) : List α :=
  if e.erases c then line.dropLast
  else if e.accepts c ∧ line.length < e.capacity then line ++ [c]
  else line

def type (e : LineEditor α) (t : Typed α) (c : α) : Typed α :=
  if e.submits c then ⟨[], t.lines ++ [t.line]⟩ else ⟨e.edit t.line c, t.lines⟩

/-- Only accepted characters get into a line. -/
theorem forall_mem_edit {P : α → Prop} {line : List α} (h : ∀ b ∈ line, P b)
    (hc : e.accepts c → P c) : ∀ b ∈ e.edit line c, P b := by
  intro b hb
  unfold edit at hb
  split_ifs at hb with herases haccepts
  · exact h b ((List.dropLast_sublist line).subset hb)
  · rcases List.mem_append.mp hb with hold | hnew
    · exact h b hold
    · rw [List.mem_singleton.mp hnew]
      exact hc haccepts.1
  · exact h b hb

theorem type_submit (h : e.submits c) : e.type t c = ⟨[], t.lines ++ [t.line]⟩ := if_pos h

theorem type_edit (h : e.submits c = false) : e.type t c = ⟨e.edit t.line c, t.lines⟩ :=
  if_neg (by rw [h]; decide)

end LineEditor
end Zonix.Lib
