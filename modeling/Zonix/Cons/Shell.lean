import Zonix.Lib.Format
import Zonix.Lib.LineEditor
import Zonix.Arch.Mmu

/-!
# The shell: `kern/cons/shell.c`

`shell_handle_char` runs in the keyboard interrupt, and a command runs inside of it, with interrupts
enabled: so the next key may come while the command runs. A key is a call that either returns or
gets to `commands[i].func()`; `running` is the stack of the commands that have not returned, and
what is left to do after each of them is done by `commandReturned`.

A string is a list that ends in NUL; reading behind it, or writing outside of `cmd_buffer`, has no
result.
-/

namespace Zonix
open Lib.Format

def CMD_BUF_SIZE : ℕ := 128

def ASCII_PRINTABLE_MIN : BitVec 8 := 0x20#8

def ASCII_PRINTABLE_MAX : BitVec 8 := 0x7F#8

def ASCII_DEL : BitVec 8 := 0x7F#8

def NEWLINE : BitVec 8 := 0x0A#8

def RETURN : BitVec 8 := 0x0D#8

def BACKSPACE : BitVec 8 := 0x08#8

/-! ## Commands -/

/-- The functions of the command table. -/
inductive CmdFunc
  | help | pgdir | clear | swapTest | lsblk | hdparm | disktest | dd | unameA | uname | ps
deriving DecidableEq

structure ShellCmd where
  name : Text
  func : CmdFunc

/-- `commands`; the names without their NUL -/
def commands : List ShellCmd :=
  [⟨['h', 'e', 'l', 'p'].map ascii, .help⟩,
    ⟨['p', 'g', 'd', 'i', 'r'].map ascii, .pgdir⟩,
    ⟨['c', 'l', 'e', 'a', 'r'].map ascii, .clear⟩,
    ⟨['s', 'w', 'a', 'p', 't', 'e', 's', 't'].map ascii, .swapTest⟩,
    ⟨['l', 's', 'b', 'l', 'k'].map ascii, .lsblk⟩,
    ⟨['h', 'd', 'p', 'a', 'r', 'm'].map ascii, .hdparm⟩,
    ⟨['d', 'i', 's', 'k', 't', 'e', 's', 't'].map ascii, .disktest⟩,
    ⟨['d', 'd'].map ascii, .dd⟩,
    ⟨['u', 'n', 'a', 'm', 'e', ' ', '-', 'a'].map ascii, .unameA⟩,
    ⟨['u', 'n', 'a', 'm', 'e'].map ascii, .uname⟩,
    ⟨['p', 's'].map ascii, .ps⟩]

/-- `strncmp(s1, s2, n)` -/
def strncmp : Text → Text → ℕ → Option ℤ
  | _, _, 0 => some 0
  | c :: s1, d :: s2, n + 1 =>
    if c ≠ 0#8 ∧ c = d then strncmp s1 s2 n else some ((c.toNat : ℤ) - d.toNat)
  | _, _, _ => none

/-- `while (*cmd == ' ') cmd++` -/
def skipSpaces : Text → Option Text
  | [] => none
  | c :: cmd => if c = ascii ' ' then skipSpaces cmd else some (c :: cmd)

/-- What `execute_command` does with a string. -/
inductive Dispatch
  | empty
  | run (func : CmdFunc)
  | unknown (cmd : Text)
deriving DecidableEq

/-- The loop of `execute_command`. -/
def findCommand (cmd : Text) : List ShellCmd → Option Dispatch
  | [] => some (.unknown cmd)
  | c :: cs => do
    let len := c.name.length
    let r ← strncmp cmd (c.name ++ [0#8]) len
    if r = 0 then
      let next ← cmd[len]?
      if next = 0#8 ∨ next = ascii ' ' then some (.run c.func) else findCommand cmd cs
    else findCommand cmd cs

def executeCommand (cmd : Text) : Option Dispatch := do
  let cmd ← skipSpaces cmd
  if cmd.head? = some 0#8 then some .empty else findCommand cmd commands

/-! ## The shell -/

/-- What goes to the console: a character, the two lines of an unknown command, and the prompt. -/
inductive Output
  | putc (c : BitVec 8)
  | unknownCommand (cmd : Text)
  | prompt

/-- `cmd_buffer` and `cmd_pos`, the commands that run, the innermost first, the strings that
`execute_command` was called with, and the output, the newest last. -/
structure Shell where
  cmdBuffer : ℕ → BitVec 8
  cmdPos : Word
  running : List CmdFunc
  executed : List Text
  output : List Output

namespace Shell

/-- `shell_init`, without its banner -/
def init : Shell := ⟨fun _ => 0#8, 0#32, [], [], []⟩

def print (s : Shell) (o : Output) : Shell := { s with output := s.output ++ [o] }

def setPos (s : Shell) (pos : Word) : Shell := { s with cmdPos := pos }

/-- `cmd_buffer[cmd_pos] = c` -/
def store (s : Shell) (c : BitVec 8) : Option Shell :=
  if 0 ≤ s.cmdPos.toInt ∧ s.cmdPos.toInt < CMD_BUF_SIZE then
    some { s with cmdBuffer := fun i => if i = s.cmdPos.toNat then c else s.cmdBuffer i }
  else none

/-- The string in `cmd_buffer`, with its NUL. -/
def string (s : Shell) : Text :=
  ((List.range CMD_BUF_SIZE).map s.cmdBuffer).takeWhile (· ≠ 0#8) ++ [0#8]

/-- What is left of `shell_handle_char` behind `execute_command`. -/
def finish (s : Shell) : Shell := (s.setPos 0#32).print .prompt

/-- From `execute_command(cmd_buffer)` on, to the end or to the function of a command. -/
def execute (s : Shell) : Option Shell := do
  let cmd := s.string
  let s := { s with executed := s.executed ++ [cmd.dropLast] }
  match ← executeCommand cmd with
  | .empty => some s.finish
  | .run func => some { s with running := func :: s.running }
  | .unknown cmd => some (s.print (.unknownCommand cmd)).finish

/-- `shell_handle_char(c)` -/
def shellHandleChar (s : Shell) (c : BitVec 8) : Option Shell :=
  if c.sle 0#8 then some s
  else if c = NEWLINE ∨ c = RETURN then do
    let s := s.print (.putc NEWLINE)
    let s ← s.store 0#8
    s.execute
  else if c = BACKSPACE then
    if (0#32).slt s.cmdPos then some ((s.setPos (s.cmdPos - 1#32)).print (.putc BACKSPACE))
    else some s
  else if c = ASCII_DEL then some s
  else if s.cmdPos.slt (BitVec.ofNat 32 (CMD_BUF_SIZE - 1)) ∧ ASCII_PRINTABLE_MIN.sle c ∧
      c.slt ASCII_PRINTABLE_MAX then do
    let s ← s.store c
    some ((s.setPos (s.cmdPos + 1#32)).print (.putc c))
  else some s

/-- `irq_kbd`, with the character that `kdb_getc` returned. -/
def irqKbd (s : Shell) (c : BitVec 8) : Option Shell :=
  if (0#8).slt c then s.shellHandleChar c else some s

/-- The function of the innermost command returns, and with it `shell_handle_char`. -/
def commandReturned (s : Shell) : Option Shell :=
  match s.running with
  | [] => none
  | _ :: running => some { s.finish with running := running }

end Shell
end Zonix
