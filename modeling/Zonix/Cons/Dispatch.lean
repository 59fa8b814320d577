import Zonix.Cons.ShellTheorems

/-!
# Lines and their commands

When each command returns before the next character comes, `cmd_buffer` is a line editor for any
characters whatsoever. And the first name in the table that a line begins with is the longest one,
since no name comes before a longer one that begins with it.
-/

namespace Zonix
open Lib Lib.Format

/-! ## Editing -/

namespace Shell
variable {s t : Shell} {c : BitVec 8}

/-- `shell_handle_char(c)`, with the command that it calls. -/
def handleChar (s : Shell) (c : BitVec 8) : Option Shell := do
  let t ← s.shellHandleChar c
  if t.running.length = s.running.length then some t else t.commandReturned

/-- The test in `irq_kbd` is made again. -/
theorem irqKbd_eq (s : Shell) (c : BitVec 8) : s.irqKbd c = s.shellHandleChar c := by
  unfold irqKbd
  by_cases hpositive : (0#8).slt c
  · rw [if_pos hpositive]
  · have hsle : c.sle 0#8 = true := by
      rw [BitVec.sle_eq_not_slt, Bool.eq_false_iff.mpr hpositive]
      rfl
    rw [if_neg hpositive, shellHandleChar, if_pos hsle]

end Shell

namespace Session
variable {s : Session}

/-- With no command running, every character is handled, and nothing runs behind it. -/
theorem Inv.handleChar (h : s.Inv) (hidle : s.shell.running = []) (c : BitVec 8) :
    ∃ t, s.shell.handleChar c = some t ∧ t.running = [] ∧ Inv ⟨t, lineEditor.type s.typed c⟩ := by
  have hquiet : s.Quiet (.key c) := Or.inl hidle
  obtain ⟨u, hu, hrunning⟩ : ∃ u, s.shell.shellHandleChar c = some u ∧
      (u.running = [] ∨ ∃ f, u.running = [f] ∧ lineEditor.submits c = true) := by
    by_cases hpositive : (0#8).slt c
    · cases hsubmits : lineEditor.submits c with
      | true =>
        have hnul : 0#8 ∉ s.shell.text := by
          rw [h.line hidle]
          exact fun hmem => h.nonzero _ hmem rfl
        obtain ⟨u, hu, -, -, -, hrunning⟩ :=
          Shell.shellHandleChar_submit h.pos hpositive hsubmits hnul
        rw [hidle] at hrunning
        exact ⟨u, hu, hrunning.imp_right fun ⟨f, hf⟩ => ⟨f, hf, rfl⟩⟩
      | false =>
        obtain ⟨u, hu, -, -, hrunning, -⟩ := Shell.shellHandleChar_edit h.pos hpositive hsubmits
        exact ⟨u, hu, Or.inl (hrunning.trans hidle)⟩
    · rw [← Shell.irqKbd_eq, Shell.irqKbd, if_neg hpositive]
      exact ⟨s.shell, rfl, Or.inl hidle⟩
  have hkey : s.exec (.key c) = some ⟨u, lineEditor.type s.typed c⟩ := by
    rw [exec, Shell.irqKbd_eq, hu, Option.map_some]
  have hinv := h.key hquiet hkey
  rcases hrunning with hrunning | ⟨f, hrunning, hsubmits⟩
  · refine ⟨u, ?_, hrunning, hinv⟩
    rw [Shell.handleChar, hu, Option.bind_eq_bind, Option.bind_some,
      if_pos (by rw [hrunning, hidle])]
  · -- the command returns to an empty line
    obtain ⟨v, hv, hnone⟩ : ∃ v, u.commandReturned = some v ∧ v.running = [] := by
      rw [Shell.commandReturned, hrunning]
      exact ⟨_, rfl, rfl⟩
    have hline : (lineEditor.type s.typed c).line = [] := by rw [LineEditor.type_submit hsubmits]
    have hret : exec ⟨u, lineEditor.type s.typed c⟩ .ret =
        some ⟨v, lineEditor.type s.typed c⟩ := by
      rw [exec, hv, Option.map_some]
    refine ⟨v, ?_, hnone, hinv.ret hline hret⟩
    rw [Shell.handleChar, hu, Option.bind_eq_bind, Option.bind_some,
      if_neg (by rw [hrunning, hidle]; simp), hv]

/-- For every sequence of characters, and so for every initial part of it: the buffer is written
inside of its bounds, `cmd_pos` is less than its size, and `execute_command` has been called with
the lines of the editor, once each and in order. -/
theorem handleChar_edits (cs : List (BitVec 8)) : ∃ t, cs.foldlM Shell.handleChar .init = some t ∧
    0 ≤ t.cmdPos.toInt ∧ t.cmdPos.toInt ≤ 127 ∧
    t.text = (cs.foldl lineEditor.type LineEditor.start).line ∧
    t.executed = (cs.foldl lineEditor.type LineEditor.start).lines := by
  have hrun : ∀ (s : Session), s.Inv → s.shell.running = [] → ∃ t,
      cs.foldlM Shell.handleChar s.shell = some t ∧ t.running = [] ∧
      Inv ⟨t, cs.foldl lineEditor.type s.typed⟩ := by
    induction cs with
    | nil => exact fun s hs hidle => ⟨s.shell, rfl, hidle, hs⟩
    | cons c cs ih =>
      intro s hs hidle
      obtain ⟨u, hu, hidle', hinv⟩ := hs.handleChar hidle c
      rw [List.foldlM_cons, hu]
      exact ih _ hinv hidle'
  obtain ⟨t, ht, hidle, hinv⟩ := hrun boot inv_boot rfl
  have hpos : t.cmdPos.toNat < CMD_BUF_SIZE := hinv.pos
  have hsize : CMD_BUF_SIZE = 128 := rfl
  have hint := Shell.pos_toInt hpos
  exact ⟨t, ht, by omega, by omega, hinv.line hidle, hinv.executed⟩

end Session

/-! ## Dispatch -/

/-- A name that the text begins with, and none of the others is longer. -/
structure Longest (t : Text) (c : ShellCmd) : Prop where
  listed : c ∈ commands
  names : c.Names t
  longest : ∀ d ∈ commands, d.Names t → d.name.length ≤ c.name.length

/-- No name comes before a longer one that begins with it. -/
theorem commands_ordered : commands.Pairwise fun c d => ¬ c.name <+: d.name := by decide

theorem first_longest {t : Text} {before behind : List ShellCmd} {c : ShellCmd}
    (heq : commands = before ++ c :: behind) (hbefore : ∀ d ∈ before, ¬ d.Names t)
    (hc : c.Names t) : Longest t c := by
  refine ⟨by rw [heq]; simp, hc, fun d hd hnames => ?_⟩
  have hordered := commands_ordered
  rw [heq] at hd hordered
  rcases List.mem_append.mp hd with hd | hd
  · exact absurd hnames (hbefore d hd)
  rcases List.mem_cons.mp hd with rfl | hd
  · exact Nat.le_refl _
  · have hnot := (List.pairwise_cons.mp (List.pairwise_append.mp hordered).2.1).1 d hd
    -- both are prefixes of the text
    rcases List.prefix_or_prefix_of_prefix hc.isPrefix hnames.isPrefix with hcd | hdc
    · exact absurd hcd hnot
    · exact hdc.length_le

/-- For every string: nothing behind its NUL is read, and behind its leading spaces the longest name
is the one whose command runs, if there is one. A blank line does nothing, and any other one is
reported. -/
theorem executeCommand_longest {t : Text} (ht : 0#8 ∉ t) :
    let rest := t.dropWhile (· = ascii ' ')
    ((∃ c ∈ commands, c.Names rest) →
      ∃ c, Longest rest c ∧ executeCommand (t ++ [0#8]) = some (.run c.func)) ∧
    (rest = [] → executeCommand (t ++ [0#8]) = some .empty) ∧
    (rest ≠ [] → (∀ c ∈ commands, ¬ c.Names rest) →
      executeCommand (t ++ [0#8]) = some (.unknown (rest ++ [0#8]))) := by
  intro rest
  have hrest : 0#8 ∉ rest := fun h => ht ((List.dropWhile_sublist _).subset h)
  have heq : executeCommand (t ++ [0#8]) =
      if (rest ++ [0#8]).head? = some 0#8 then some .empty
      else findCommand (rest ++ [0#8]) commands := by
    rw [executeCommand, skipSpaces_eq, Option.bind_eq_bind, Option.bind_some]
  rw [heq]
  rcases hline : rest with _ | ⟨b, bs⟩
  · -- no name is empty
    have hnonempty : ∀ c ∈ commands, c.name ≠ [] := by decide
    refine ⟨fun ⟨c, hc, hnames⟩ => ?_, fun _ => rfl, fun h => absurd rfl h⟩
    exact absurd (List.prefix_nil.mp hnames.isPrefix) (hnonempty c hc)
  · have hb : b ≠ 0#8 := by
      rintro rfl
      exact hrest (by rw [hline]; exact List.mem_cons_self)
    rw [← hline, if_neg (by rw [hline]; simpa using hb)]
    have hcases := findCommand_cases hrest commands_nonzero
    refine ⟨fun ⟨c, hc, hnames⟩ => ?_, fun h => ?_, fun _ hnone => ?_⟩
    · rcases hcases with ⟨before, d, behind, htable, hbefore, hd, hfound⟩ | ⟨hnone, -⟩
      · exact ⟨d, first_longest htable hbefore hd, hfound⟩
      · exact absurd hnames (hnone c hc)
    · rw [hline] at h
      exact absurd h (List.cons_ne_nil b bs)
    · rcases hcases with ⟨before, d, behind, htable, -, hd, -⟩ | ⟨-, hunknown⟩
      · exact absurd hd (hnone d (by rw [htable]; simp))
      · exact hunknown

/-- Behind a space, `uname -a` is not the command `uname`. -/
theorem executeCommand_longest_uname :
    ∃ c, Longest (['u', 'n', 'a', 'm', 'e', ' ', '-', 'a'].map ascii) c ∧ c.func = .unameA ∧
      executeCommand ([' ', 'u', 'n', 'a', 'm', 'e', ' ', '-', 'a'].map ascii ++ [0#8]) =
        some (.run c.func) := by
  have hrun : executeCommand ([' ', 'u', 'n', 'a', 'm', 'e', ' ', '-', 'a'].map ascii ++ [0#8]) =
      some (.run .unameA) := by
    decide
  obtain ⟨hfound, -⟩ := executeCommand_longest
    (t := [' ', 'u', 'n', 'a', 'm', 'e', ' ', '-', 'a'].map ascii) (by decide)
  obtain ⟨c, hc, heq⟩ := hfound ⟨⟨['u', 'n', 'a', 'm', 'e'].map ascii, .uname⟩, by simp [commands],
    ascii ' ', ['-', 'a', Char.ofNat 0].map ascii, by decide, Or.inr rfl⟩
  have hfunc : c.func = .unameA := Dispatch.run.inj (Option.some.inj (heq.symm.trans hrun))
  exact ⟨c, hc, hfunc, heq⟩

end Zonix
