import Zonix.Cons.Shell
import Zonix.Lib.Machine

/-!
# What the shell executes

At the prompt the command buffer holds what a line editor makes of the characters. While a command
runs it still holds the line of that command, and `cmd_pos` stands behind it: a character typed then
is appended to the old line, and thrown away with it when the command returns.
-/

namespace Zonix
open Lib Lib.Format

/-! ## Commands -/

theorem commands_nonzero : ∀ c ∈ commands, 0#8 ∉ c.name := by decide

theorem strncmp_some {t name : Text} {n : ℕ} (ht : 0#8 ∉ t) (hname : 0#8 ∉ name)
    (hn : n ≤ name.length) :
    ∃ z, strncmp (t ++ [0#8]) (name ++ [0#8]) n = some z ∧ (z = 0 ↔ name.take n <+: t) := by
  induction n generalizing t name with
  | zero => exact ⟨0, by cases t <;> cases name <;> rfl, by simp⟩
  | succ n ih =>
    cases name with
    | nil => exact absurd hn (by simp)
    | cons d name =>
      have hd : d ≠ 0#8 := fun h => hname (by rw [h]; exact List.mem_cons_self)
      cases t with
      | nil =>
        have hnat : d.toNat ≠ 0 := fun h => hd (BitVec.eq_of_toNat_eq h)
        refine ⟨(0#8).toNat - d.toNat, ?_, iff_of_false ?_ (by simp)⟩
        · show (if 0#8 ≠ 0#8 ∧ 0#8 = d then _ else _) = _
          rw [if_neg (by simp)]
        · show ((0 : ℕ) : ℤ) - d.toNat ≠ 0
          omega
      | cons c t =>
        have hc : c ≠ 0#8 := fun h => ht (by rw [h]; exact List.mem_cons_self)
        show ∃ z, (if c ≠ 0#8 ∧ c = d then strncmp (t ++ [0#8]) (name ++ [0#8]) n
          else some ((c.toNat : ℤ) - d.toNat)) = some z ∧ _
        by_cases hcd : c = d
        · rw [if_pos ⟨hc, hcd⟩, List.take_succ_cons, List.cons_prefix_cons, hcd,
            and_iff_right rfl]
          exact ih (fun h => ht (List.mem_cons_of_mem c h))
            (fun h => hname (List.mem_cons_of_mem d h)) (Nat.le_of_succ_le_succ hn)
        · have hnat : c.toNat ≠ d.toNat := fun h => hcd (BitVec.eq_of_toNat_eq h)
          rw [if_neg fun h => hcd h.2, List.take_succ_cons, List.cons_prefix_cons]
          refine ⟨_, rfl, iff_of_false ?_ fun h => hcd h.1.symm⟩
          omega

/-- The text begins with the name, and the word ends there. -/
def ShellCmd.Names (c : ShellCmd) (t : Text) : Prop :=
  ∃ b more, t ++ [0#8] = c.name ++ b :: more ∧ (b = 0#8 ∨ b = ascii ' ')

theorem ShellCmd.names_iff {c : ShellCmd} {t : Text} (h : c.name <+: t) :
    ∃ b, (t ++ [0#8])[c.name.length]? = some b ∧ (c.Names t ↔ b = 0#8 ∨ b = ascii ' ') := by
  obtain ⟨more, rfl⟩ := h
  have hrest : more ++ [0#8] ≠ [] := by simp
  obtain ⟨b, bs, hb⟩ := List.exists_cons_of_ne_nil hrest
  refine ⟨b, ?_, ?_⟩
  · rw [List.append_assoc, hb, List.getElem?_append_right (Nat.le_refl _), Nat.sub_self]
    rfl
  · constructor
    · rintro ⟨b', more', heq, hend⟩
      rw [List.append_assoc, hb] at heq
      rwa [(List.cons.inj (List.append_cancel_left heq)).1]
    · exact fun hend => ⟨b, bs, by rw [List.append_assoc, hb], hend⟩

theorem ShellCmd.Names.isPrefix {c : ShellCmd} {t : Text} (h : c.Names t) : c.name <+: t := by
  obtain ⟨b, more, heq, -⟩ := h
  have hlen : c.name.length ≤ t.length := by
    have hlength := congrArg List.length heq
    simp only [List.length_append, List.length_cons, List.length_nil] at hlength
    omega
  exact List.prefix_of_prefix_length_le ⟨b :: more, heq.symm⟩ (List.prefix_append t [0#8]) hlen

/-- One entry of the table. No byte behind the NUL is read. -/
theorem findCommand_cons {t : Text} (ht : 0#8 ∉ t) {c : ShellCmd} (hc : 0#8 ∉ c.name)
    (cs : List ShellCmd) :
    (c.Names t ∧ findCommand (t ++ [0#8]) (c :: cs) = some (.run c.func)) ∨
    (¬ c.Names t ∧ findCommand (t ++ [0#8]) (c :: cs) = findCommand (t ++ [0#8]) cs) := by
  obtain ⟨z, hz, hmatch⟩ := strncmp_some ht hc (Nat.le_refl _)
  rw [List.take_length] at hmatch
  by_cases hzero : z = 0
  · obtain ⟨b, hb, hnames⟩ := ShellCmd.names_iff (hmatch.mp hzero)
    have heq : findCommand (t ++ [0#8]) (c :: cs) =
        if b = 0#8 ∨ b = ascii ' ' then some (.run c.func)
        else findCommand (t ++ [0#8]) cs := by
      rw [findCommand]
      simp only [hz, hb, Option.bind_eq_bind, Option.bind_some, if_pos hzero]
    by_cases hend : b = 0#8 ∨ b = ascii ' '
    · rw [if_pos hend] at heq
      exact Or.inl ⟨hnames.mpr hend, heq⟩
    · rw [if_neg hend] at heq
      exact Or.inr ⟨fun h => hend (hnames.mp h), heq⟩
  · have heq : findCommand (t ++ [0#8]) (c :: cs) = findCommand (t ++ [0#8]) cs := by
      rw [findCommand]
      simp only [hz, Option.bind_eq_bind, Option.bind_some, if_neg hzero]
    exact Or.inr ⟨fun h => hzero (hmatch.mpr h.isPrefix), heq⟩

/-- The search finds the first name in the table. -/
theorem findCommand_cases {t : Text} (ht : 0#8 ∉ t) {cs : List ShellCmd}
    (hcs : ∀ c ∈ cs, 0#8 ∉ c.name) :
    (∃ before c behind, cs = before ++ c :: behind ∧ (∀ d ∈ before, ¬ d.Names t) ∧ c.Names t ∧
      findCommand (t ++ [0#8]) cs = some (.run c.func)) ∨
    ((∀ c ∈ cs, ¬ c.Names t) ∧ findCommand (t ++ [0#8]) cs = some (.unknown (t ++ [0#8]))) := by
  induction cs with
  | nil => exact Or.inr ⟨fun c hc => absurd hc List.not_mem_nil, rfl⟩
  | cons c cs ih =>
    rcases findCommand_cons ht (hcs c List.mem_cons_self) cs with ⟨hc, heq⟩ | ⟨hno, heq⟩
    · exact Or.inl ⟨[], c, cs, rfl, fun d hd => absurd hd List.not_mem_nil, hc, heq⟩
    · rw [heq]
      rcases ih fun b hb => hcs b (List.mem_cons_of_mem c hb) with
        ⟨before, d, behind, rfl, hbefore, hd, hfound⟩ | ⟨hall, hunknown⟩
      · exact Or.inl ⟨c :: before, d, behind, rfl, List.forall_mem_cons.mpr ⟨hno, hbefore⟩, hd,
          hfound⟩
      · exact Or.inr ⟨List.forall_mem_cons.mpr ⟨hno, hall⟩, hunknown⟩

theorem findCommand_some {t : Text} (ht : 0#8 ∉ t) {cs : List ShellCmd}
    (hcs : ∀ c ∈ cs, 0#8 ∉ c.name) : ∃ d, findCommand (t ++ [0#8]) cs = some d := by
  rcases findCommand_cases ht hcs with ⟨_, c, _, -, -, -, heq⟩ | ⟨-, heq⟩
  · exact ⟨_, heq⟩
  · exact ⟨_, heq⟩

theorem skipSpaces_eq {t : Text} :
    skipSpaces (t ++ [0#8]) = some (t.dropWhile (· = ascii ' ') ++ [0#8]) := by
  induction t with
  | nil => rfl
  | cons c t ih =>
    rw [List.cons_append, skipSpaces]
    split_ifs with hc
    · rw [ih, List.dropWhile_cons_of_pos (by simpa using hc)]
    · rw [List.dropWhile_cons_of_neg (by simpa using hc), List.cons_append]

theorem executeCommand_some {t : Text} (ht : 0#8 ∉ t) :
    ∃ d, executeCommand (t ++ [0#8]) = some d := by
  unfold executeCommand
  simp only [skipSpaces_eq, Option.bind_eq_bind, Option.bind_some]
  split_ifs
  · exact ⟨_, rfl⟩
  · exact findCommand_some (fun h => ht ((List.dropWhile_sublist _).subset h)) commands_nonzero

/-! ## Keys -/

/-- The line editor of the shell. -/
def lineEditor : LineEditor (BitVec 8) where
  submits c := c = NEWLINE ∨ c = RETURN
  erases c := c = BACKSPACE
  accepts c := 0x20 ≤ c.toNat ∧ c.toNat < 0x7F
  capacity := CMD_BUF_SIZE - 1

namespace Shell
variable {s t : Shell} {c : BitVec 8}

/-- What is in front of `cmd_pos`. -/
def text (s : Shell) : Text := (List.range s.cmdPos.toNat).map s.cmdBuffer

/-- Characters are signed. -/
theorem positive_iff : (0#8).slt c ↔ 0 < c.toNat ∧ c.toNat < 128 := by
  have hzero : (0#8).toInt = 0 := rfl
  have hlt := c.isLt
  rw [BitVec.slt_iff_toInt_lt, hzero, BitVec.toInt_eq_toNat_cond]
  split_ifs <;> omega

theorem printable_iff : ASCII_PRINTABLE_MIN.sle c ∧ c.slt ASCII_PRINTABLE_MAX ↔
    0x20 ≤ c.toNat ∧ c.toNat < 0x7F := by
  have hmin : ASCII_PRINTABLE_MIN.toInt = 0x20 := rfl
  have hmax : ASCII_PRINTABLE_MAX.toInt = 0x7F := rfl
  have hlt := c.isLt
  rw [BitVec.sle_iff_toInt_le, BitVec.slt_iff_toInt_lt, hmin, hmax, BitVec.toInt_eq_toNat_cond]
  split_ifs <;> omega

theorem pos_toInt (h : s.cmdPos.toNat < CMD_BUF_SIZE) : s.cmdPos.toInt = s.cmdPos.toNat := by
  have hsize : CMD_BUF_SIZE = 128 := rfl
  rw [BitVec.toInt_eq_toNat_of_lt (by omega)]

theorem store_eq (h : s.cmdPos.toNat < CMD_BUF_SIZE) (c : BitVec 8) :
    s.store c = some { s with
      cmdBuffer := fun i => if i = s.cmdPos.toNat then c else s.cmdBuffer i } := by
  unfold store
  rw [pos_toInt h, if_pos (by omega)]

/-- The position behind a stored character. -/
theorem next_toNat (h : s.cmdPos.toNat < CMD_BUF_SIZE) :
    (s.cmdPos + 1#32).toNat = s.cmdPos.toNat + 1 := by
  have hsize : CMD_BUF_SIZE = 128 := rfl
  rw [BitVec.toNat_add, BitVec.toNat_ofNat]
  omega

theorem text_congr (hpos : t.cmdPos = s.cmdPos)
    (hbuffer : ∀ i < s.cmdPos.toNat, t.cmdBuffer i = s.cmdBuffer i) : t.text = s.text := by
  unfold text
  rw [hpos]
  exact List.map_congr_left fun i hi => hbuffer i (List.mem_range.mp hi)

theorem text_length (s : Shell) : s.text.length = s.cmdPos.toNat := by
  rw [text, List.length_map, List.length_range]

theorem pos_pos_iff (h : s.cmdPos.toNat < CMD_BUF_SIZE) :
    (0#32).slt s.cmdPos ↔ 0 < s.cmdPos.toNat := by
  have hzero : (0#32).toInt = 0 := rfl
  rw [BitVec.slt_iff_toInt_lt, pos_toInt h, hzero]
  omega

/-- `cmd_pos--` -/
theorem text_back (hpos : 0 < s.cmdPos.toNat) :
    (s.setPos (s.cmdPos - 1#32)).text = s.text.dropLast := by
  obtain ⟨n, hn⟩ : ∃ n, s.cmdPos.toNat = n + 1 := ⟨s.cmdPos.toNat - 1, by omega⟩
  have hlt := s.cmdPos.isLt
  have hback : (s.cmdPos - 1#32).toNat = n := by
    rw [BitVec.toNat_sub, BitVec.toNat_ofNat]
    omega
  show (List.range (s.cmdPos - 1#32).toNat).map s.cmdBuffer = _
  rw [hback, text, hn, List.range_succ, List.map_append, List.map_singleton, List.dropLast_concat]

/-- `cmd_buffer[cmd_pos++] = c` -/
theorem text_append (h : s.cmdPos.toNat < CMD_BUF_SIZE) (hs : s.store c = some t) :
    (t.setPos (t.cmdPos + 1#32)).text = s.text ++ [c] := by
  rw [store_eq h] at hs
  obtain rfl := Option.some.inj hs
  show (List.range (s.cmdPos + 1#32).toNat).map (fun i => if i = s.cmdPos.toNat then c
    else s.cmdBuffer i) = _
  rw [next_toNat h, List.range_succ, List.map_append, List.map_singleton, if_pos rfl, text]
  congr 1
  apply List.map_congr_left
  intro i hi
  have hlt := List.mem_range.mp hi
  rw [if_neg (by omega)]

theorem edit_back (hc : c = BACKSPACE) : lineEditor.edit s.text c = s.text.dropLast := by
  unfold LineEditor.edit
  exact if_pos (decide_eq_true hc)

theorem edit_other (hc : c ≠ BACKSPACE) : lineEditor.edit s.text c =
    if (0x20 ≤ c.toNat ∧ c.toNat < 0x7F) ∧ s.cmdPos.toNat < CMD_BUF_SIZE - 1 then s.text ++ [c]
    else s.text := by
  have herases : lineEditor.erases c = false := decide_eq_false hc
  have haccepts : lineEditor.accepts c = true ↔ 0x20 ≤ c.toNat ∧ c.toNat < 0x7F :=
    decide_eq_true_iff
  unfold LineEditor.edit
  rw [herases, if_neg (by decide), text_length]
  simp only [haccepts]
  rfl

/-- The guard of `shell_handle_char` lets positive characters through. -/
theorem sle_zero (h : (0#8).slt c) : c.sle 0#8 = false := by
  rw [BitVec.sle_eq_not_slt, h]
  rfl

/-- What a character leaves behind that completes no line. -/
def Edited (s : Shell) (c : BitVec 8) (t : Shell) : Prop :=
  t.text = lineEditor.edit s.text c ∧ t.cmdPos.toNat < CMD_BUF_SIZE ∧ t.running = s.running ∧
    t.executed = s.executed

theorem backspace_edited (h : s.cmdPos.toNat < CMD_BUF_SIZE) (hc : c = BACKSPACE) :
    ∃ t, (if (0#32).slt s.cmdPos then
        some ((s.setPos (s.cmdPos - 1#32)).print (.putc BACKSPACE)) else some s) = some t ∧
      s.Edited c t := by
  have hsize : CMD_BUF_SIZE = 128 := rfl
  unfold Edited
  rw [edit_back hc]
  by_cases hpos : (0#32).slt s.cmdPos
  · have hnat := (pos_pos_iff h).mp hpos
    have hlt : (s.cmdPos - 1#32).toNat < CMD_BUF_SIZE := by
      rw [BitVec.toNat_sub, BitVec.toNat_ofNat]
      omega
    rw [if_pos hpos]
    exact ⟨_, rfl, text_back hnat, hlt, rfl, rfl⟩
  · have hzero : s.cmdPos.toNat = 0 := by
      rw [pos_pos_iff h] at hpos
      omega
    have hempty : s.text = [] := by
      rw [text, hzero]
      rfl
    rw [if_neg hpos, hempty]
    exact ⟨s, rfl, hempty, h, rfl, rfl⟩

/-- The branch of the regular characters. -/
theorem regular_edited (h : s.cmdPos.toNat < CMD_BUF_SIZE) (hback : c ≠ BACKSPACE) :
    ∃ t, (if s.cmdPos.slt (BitVec.ofNat 32 (CMD_BUF_SIZE - 1)) ∧ ASCII_PRINTABLE_MIN.sle c ∧
        c.slt ASCII_PRINTABLE_MAX then do
          let s ← s.store c
          some ((s.setPos (s.cmdPos + 1#32)).print (.putc c))
        else some s) = some t ∧ s.Edited c t := by
  have hsize : CMD_BUF_SIZE = 128 := rfl
  have hroom : s.cmdPos.slt (BitVec.ofNat 32 (CMD_BUF_SIZE - 1)) ↔
      s.cmdPos.toNat < CMD_BUF_SIZE - 1 := by
    rw [BitVec.slt_iff_toInt_lt, pos_toInt h, hsize]
    exact Int.ofNat_lt
  have hcond : (s.cmdPos.slt (BitVec.ofNat 32 (CMD_BUF_SIZE - 1)) ∧ ASCII_PRINTABLE_MIN.sle c ∧
      c.slt ASCII_PRINTABLE_MAX) ↔ (0x20 ≤ c.toNat ∧ c.toNat < 0x7F) ∧
        s.cmdPos.toNat < CMD_BUF_SIZE - 1 := by
    rw [hroom, printable_iff, and_comm]
  unfold Edited
  simp only [hcond, edit_other hback]
  by_cases hstored : (0x20 ≤ c.toNat ∧ c.toNat < 0x7F) ∧ s.cmdPos.toNat < CMD_BUF_SIZE - 1
  · have hstore := store_eq h c
    rw [if_pos hstored, if_pos hstored, hstore]
    refine ⟨_, rfl, text_append h hstore, ?_, rfl, rfl⟩
    show (s.cmdPos + 1#32).toNat < CMD_BUF_SIZE
    rw [next_toNat h]
    omega
  · rw [if_neg hstored, if_neg hstored]
    exact ⟨s, rfl, rfl, h, rfl, rfl⟩

/-- A character that completes no line edits what is in front of `cmd_pos`. -/
theorem shellHandleChar_edit (h : s.cmdPos.toNat < CMD_BUF_SIZE) (hpositive : (0#8).slt c)
    (hc : lineEditor.submits c = false) :
    ∃ t, s.shellHandleChar c = some t ∧ s.Edited c t := by
  have hsubmits : ¬ (c = NEWLINE ∨ c = RETURN) := of_decide_eq_false hc
  unfold shellHandleChar
  rw [sle_zero hpositive, if_neg (by decide), if_neg hsubmits]
  by_cases hback : c = BACKSPACE
  · rw [if_pos hback]
    exact backspace_edited h hback
  · rw [if_neg hback]
    by_cases hdel : c = ASCII_DEL
    · -- 0x7F is not printable, and so the editor does not take it either
      have hlast : ¬ c.toNat < 0x7F := by
        rw [hdel]
        decide
      unfold Edited
      rw [if_pos hdel, edit_other hback, if_neg fun hin => hlast hin.1.2]
      exact ⟨s, rfl, rfl, h, rfl, rfl⟩
    · rw [if_neg hdel]
      exact regular_edited h hback

/-- The string in the buffer, behind `cmd_buffer[cmd_pos] = '\\0'`. -/
theorem string_eq (h : s.cmdPos.toNat < CMD_BUF_SIZE) (hnul : s.cmdBuffer s.cmdPos.toNat = 0#8)
    (htext : 0#8 ∉ s.text) : s.string = s.text ++ [0#8] := by
  obtain ⟨k, hk⟩ : ∃ k, CMD_BUF_SIZE = s.cmdPos.toNat + (k + 1) :=
    ⟨CMD_BUF_SIZE - s.cmdPos.toNat - 1, by omega⟩
  have hsplit : (List.range CMD_BUF_SIZE).map s.cmdBuffer = s.text ++ 0#8 ::
      (List.range k).map fun i => s.cmdBuffer (s.cmdPos.toNat + (i + 1)) := by
    rw [hk, List.range_add, List.map_append, List.range_succ_eq_map, List.map_cons, List.map_cons,
      Nat.add_zero, hnul, List.map_map, List.map_map]
    rfl
  have hall : ∀ b ∈ s.text, decide (b ≠ 0#8) = true := by
    intro b hb
    rw [decide_eq_true_eq]
    rintro rfl
    exact htext hb
  unfold string
  rw [hsplit, List.takeWhile_append_of_pos hall, List.takeWhile_cons_of_neg (by decide),
    List.append_nil]

theorem finish_pos (s : Shell) : s.finish.cmdPos.toNat < CMD_BUF_SIZE :=
  (by decide : 0 < CMD_BUF_SIZE)

/-- A character that completes the line. -/
theorem shellHandleChar_submit (h : s.cmdPos.toNat < CMD_BUF_SIZE) (hpositive : (0#8).slt c)
    (hc : lineEditor.submits c = true) (htext : 0#8 ∉ s.text) :
    ∃ t, s.shellHandleChar c = some t ∧ t.executed = s.executed ++ [s.text] ∧
      t.cmdPos.toNat < CMD_BUF_SIZE ∧ (t.running = [] → t.text = []) ∧
      (t.running = s.running ∨ ∃ f, t.running = f :: s.running) := by
  have hsize : CMD_BUF_SIZE = 128 := rfl
  have hsubmits : c = NEWLINE ∨ c = RETURN := of_decide_eq_true hc
  -- the string is terminated where the line ends
  let u : Shell := { s.print (.putc NEWLINE) with
    cmdBuffer := fun i => if i = s.cmdPos.toNat then 0#8 else s.cmdBuffer i }
  have hstore : (s.print (.putc NEWLINE)).store 0#8 = some u :=
    store_eq (s := s.print (.putc NEWLINE)) h 0#8
  have hu : u.text = s.text := text_congr rfl fun i hi => if_neg (by omega)
  have hstring : u.string = s.text ++ [0#8] := by
    rw [← hu]
    exact string_eq h (if_pos rfl) (by rw [hu]; exact htext)
  obtain ⟨d, hd⟩ := executeCommand_some htext
  unfold shellHandleChar
  rw [sle_zero hpositive, if_neg (by decide), if_pos hsubmits]
  simp only [hstore, Option.bind_eq_bind, Option.bind_some]
  unfold execute
  simp only [hstring, hd, List.dropLast_concat, Option.bind_eq_bind, Option.bind_some]
  cases d with
  | empty => exact ⟨_, rfl, rfl, finish_pos _, fun _ => rfl, Or.inl rfl⟩
  | run f => exact ⟨_, rfl, rfl, h, fun hrunning => absurd hrunning (by simp), Or.inr ⟨f, rfl⟩⟩
  | unknown cmd => exact ⟨_, rfl, rfl, finish_pos _, fun _ => rfl, Or.inl rfl⟩

end Shell

/-! ## Runs -/

/-- A character from the keyboard, or the return of the innermost command. -/
inductive Event
  | key (c : BitVec 8)
  | ret

/-- The shell, and what has been typed. -/
structure Session where
  shell : Shell
  typed : Typed (BitVec 8)

namespace Session
variable {s t : Session}

def boot : Session := ⟨.init, LineEditor.start⟩

def exec (s : Session) : Event → Option Session
  | .key c => (s.shell.irqKbd c).map fun shell => ⟨shell, lineEditor.type s.typed c⟩
  | .ret => s.shell.commandReturned.map fun shell => ⟨shell, s.typed⟩

/-- While a command runs no line is completed, and when it returns the line that is being typed is
empty: nothing was typed, or it was erased again. -/
def Quiet (s : Session) : Event → Prop
  | .key c => s.shell.running = [] ∨ lineEditor.submits c = false
  | .ret => s.typed.line = []

instance (s : Session) : ∀ op, Decidable (s.Quiet op)
  | .key _ => instDecidableOr
  | .ret => inferInstanceAs (Decidable (s.typed.line = []))

/-- Every line that was completed was executed, once and in order, and at the prompt the buffer
holds what was typed since. -/
structure Exact (s : Session) : Prop where
  executed : s.shell.executed = s.typed.lines
  line : s.shell.running = [] → s.shell.text = s.typed.line

structure Inv (s : Session) : Prop extends Exact s where
  pos : s.shell.cmdPos.toNat < CMD_BUF_SIZE
  nonzero : ∀ b ∈ s.typed.line, b ≠ 0#8

theorem inv_boot : Inv boot :=
  ⟨⟨rfl, fun _ => rfl⟩, by decide, fun b hb => absurd hb List.not_mem_nil⟩

/-- A character that the interrupt does not hand on edits nothing. -/
theorem type_invalid {c : BitVec 8} (hc : (0#8).slt c = false) (typed : Typed (BitVec 8)) :
    lineEditor.type typed c = typed := by
  have hrange : ¬ (0 < c.toNat ∧ c.toNat < 128) := by
    rw [← Shell.positive_iff, hc]
    decide
  have hother : ∀ b : BitVec 8, 0 < b.toNat ∧ b.toNat < 128 → c ≠ b := by
    rintro b hb rfl
    exact hrange hb
  have hsubmits : lineEditor.submits c = false :=
    decide_eq_false (not_or.mpr ⟨hother _ (by decide), hother _ (by decide)⟩)
  have herases : lineEditor.erases c = false := decide_eq_false (hother _ (by decide))
  have haccepts : lineEditor.accepts c = false := decide_eq_false (by omega)
  rw [LineEditor.type_edit hsubmits, LineEditor.edit, herases, haccepts]
  simp

theorem Inv.key (h : s.Inv) {c : BitVec 8} (hquiet : s.Quiet (.key c))
    (heq : s.exec (.key c) = some t) : t.Inv := by
  obtain ⟨u, hu, rfl⟩ := Option.map_eq_some_iff.mp heq
  have haccepted : lineEditor.accepts c = true → c ≠ 0#8 := by
    rintro haccepts rfl
    exact absurd haccepts (by decide)
  by_cases hpositive : (0#8).slt c
  · rw [Shell.irqKbd, if_pos hpositive] at hu
    cases hsubmits : lineEditor.submits c with
    | true =>
      have hidle : s.shell.running = [] := hquiet.resolve_right (by rw [hsubmits]; decide)
      have htext := h.line hidle
      have hnul : 0#8 ∉ s.shell.text := by
        rw [htext]
        exact fun hmem => h.nonzero _ hmem rfl
      obtain ⟨v, hv, hexecuted, hpos, hempty, -⟩ :=
        Shell.shellHandleChar_submit h.pos hpositive hsubmits hnul
      obtain rfl := Option.some.inj (hv.symm.trans hu)
      rw [LineEditor.type_submit hsubmits]
      refine ⟨⟨?_, hempty⟩, hpos, fun b hb => absurd hb List.not_mem_nil⟩
      rw [hexecuted, h.executed, htext]
    | false =>
      obtain ⟨v, hv, htext, hpos, hrunning, hexecuted⟩ :=
        Shell.shellHandleChar_edit h.pos hpositive hsubmits
      obtain rfl := Option.some.inj (hv.symm.trans hu)
      rw [LineEditor.type_edit hsubmits]
      refine ⟨⟨hexecuted.trans h.executed, fun hidle => ?_⟩, hpos,
        LineEditor.forall_mem_edit h.nonzero haccepted⟩
      rw [htext, h.line (hrunning.symm.trans hidle)]
  · rw [Shell.irqKbd, if_neg hpositive] at hu
    obtain rfl := Option.some.inj hu
    rw [type_invalid (Bool.not_eq_true _ ▸ hpositive)]
    exact ⟨⟨h.executed, h.line⟩, h.pos, h.nonzero⟩

theorem Inv.ret (h : s.Inv) (hquiet : s.Quiet .ret) (heq : s.exec .ret = some t) : t.Inv := by
  obtain ⟨u, hu, rfl⟩ := Option.map_eq_some_iff.mp heq
  unfold Shell.commandReturned at hu
  cases hrunning : s.shell.running with
  | nil =>
    rw [hrunning] at hu
    exact absurd hu (by simp)
  | cons f fs =>
    rw [hrunning] at hu
    obtain rfl := Option.some.inj hu
    exact ⟨⟨h.executed, fun _ => hquiet.symm⟩, Shell.finish_pos s.shell, h.nonzero⟩

/-- In every run in which nothing is typed into a running command, every line is executed exactly
once, as it was typed. -/
theorem run_executes (h : Run exec Quiet boot t) : t.Exact := by
  refine (h.invariant inv_boot fun s op u hs hquiet heq => ?_).toExact
  cases op with
  | key c => exact hs.key hquiet heq
  | ret => exact hs.ret hquiet heq

/-- The characters of a line, and its end. -/
def typeLine (cs : List Char) : List Event :=
  cs.map (fun c => .key (ascii c)) ++ [.key NEWLINE]

/-- `ps`, which returns, and then a character. -/
theorem run_executes_ps :
    ∃ t, (typeLine ['p', 's'] ++ [Event.ret, Event.key (ascii 'x')]).foldlM exec boot = some t ∧
      t.Exact := by
  have hallowed :
      Allowed exec Quiet (typeLine ['p', 's'] ++ [Event.ret, Event.key (ascii 'x')]) boot := by
    decide +kernel
  have hsome : ((typeLine ['p', 's'] ++ [Event.ret, Event.key (ascii 'x')]).foldlM
      exec boot).isSome := by
    decide +kernel
  obtain ⟨t, ht⟩ := Option.isSome_iff_exists.mp hsome
  exact ⟨t, ht, run_executes (Run.of_foldlM hallowed ht)⟩

/-- While `ps` runs, an empty line is typed: `ps` is executed again. While it runs, `x` is typed and
lost: the line behind it is executed as an empty one. -/
theorem run_replays :
    (∃ t, (typeLine ['p', 's'] ++ typeLine []).foldlM exec boot = some t ∧
      t.shell.executed = [['p', 's'].map ascii, ['p', 's'].map ascii] ∧
      t.typed.lines = [['p', 's'].map ascii, []] ∧ ¬ t.Exact) ∧
    ∃ t, (typeLine ['p', 's'] ++ [Event.key (ascii 'x'), Event.ret] ++ typeLine []).foldlM
        exec boot = some t ∧
      t.shell.executed = [['p', 's'].map ascii, []] ∧
      t.typed.lines = [['p', 's'].map ascii, ['x'].map ascii] ∧ ¬ t.Exact := by
  have hreplayed : ((typeLine ['p', 's'] ++ typeLine []).foldlM exec boot).map
      (fun t => (t.shell.executed, t.typed.lines)) =
      some ([['p', 's'].map ascii, ['p', 's'].map ascii], [['p', 's'].map ascii, []]) := by
    decide +kernel
  have hlost : ((typeLine ['p', 's'] ++ [Event.key (ascii 'x'), Event.ret] ++ typeLine []).foldlM
      exec boot).map (fun t => (t.shell.executed, t.typed.lines)) =
      some ([['p', 's'].map ascii, []], [['p', 's'].map ascii, ['x'].map ascii]) := by
    decide +kernel
  obtain ⟨t, ht, hlines⟩ := Option.map_eq_some_iff.mp hreplayed
  obtain ⟨u, hu, hlines'⟩ := Option.map_eq_some_iff.mp hlost
  obtain ⟨hexecuted, htyped⟩ := Prod.mk.inj hlines
  obtain ⟨hexecuted', htyped'⟩ := Prod.mk.inj hlines'
  refine ⟨⟨t, ht, hexecuted, htyped, fun h => ?_⟩, ⟨u, hu, hexecuted', htyped', fun h => ?_⟩⟩
  · have heq := h.executed
    rw [hexecuted, htyped] at heq
    exact absurd heq (by decide)
  · have heq := h.executed
    rw [hexecuted', htyped'] at heq
    exact absurd heq (by decide)

end Session
end Zonix
