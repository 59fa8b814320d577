import Zonix.Arch.Mmu
import Zonix.Lib.Format

/-!
# Formatted output: `kern/cons/stdio.c`

What a function writes is the list of the bytes that it hands to `cons_putc`. The recursions on
digits get fuel; a `va_arg` of another type than the argument's, and a division that faults, have no
result either.
-/

namespace Zonix
open Lib.Format

/-! ## `include/math.h` -/

/-- `divl`: a quotient that does not fit faults. -/
def divl (high low base : Word) : Option (Word × Word) :=
  let n := (high ++ low).toNat
  if base = 0#32 ∨ 2 ^ 32 ≤ n / base.toNat then none
  else some (BitVec.ofNat 32 (n / base.toNat), BitVec.ofNat 32 (n % base.toNat))

/-- `do_div(n, base)`: the new `n`, and the value. -/
def doDiv (n : BitVec 64) (base : Word) : Option (BitVec 64 × Word) := do
  let low := n.extractLsb' 0 32
  let high := n.extractLsb' 32 32
  let upper := if high ≠ 0#32 then high % base else high
  let high := if high ≠ 0#32 then high / base else high
  let (low, mod) ← divl upper low base
  some (high ++ low, mod)

/-! ## Arguments -/

/-- A string. No object of the machine is larger than `2 ^ 31 - 1` bytes. -/
structure CString where
  chars : Text
  nonzero : ∀ c ∈ chars, c ≠ 0#8
  length_lt : chars.length < 2 ^ 31

inductive Arg
  | int (v : Word)
  | long (v : BitVec 64)
  | str (s : CString)

/-- `lflag ? va_arg(*args, uint64_t) : va_arg(*args, uint32_t)` -/
def vaArgNum (lflag : Bool) : List Arg → Option (BitVec 64 × List Arg)
  | .int v :: args => if lflag then none else some (v.setWidth 64, args)
  | .long v :: args => if lflag then some (v, args) else none
  | _ => none

/-- `lflag ? va_arg(*args, int64_t) : va_arg(*args, int32_t)` -/
def vaArgSigned (lflag : Bool) : List Arg → Option (BitVec 64 × List Arg)
  | .int v :: args => if lflag then none else some (v.signExtend 64, args)
  | .long v :: args => if lflag then some (v, args) else none
  | _ => none

/-- `va_arg(*args, char*)` -/
def vaArgStr : List Arg → Option (CString × List Arg)
  | .str s :: args => some (s, args)
  | _ => none

/-- `va_arg(args, int)` -/
def vaArgInt : List Arg → Option (Word × List Arg)
  | .int v :: args => some (v, args)
  | _ => none

/-! ## Padding -/

/-- `for (; i < width; i++) cons_putc(padc)` -/
def padFor (padc : BitVec 8) (i width : Word) : Text :=
  if i.slt width then padc :: padFor padc (i + 1#32) width else []
termination_by (width.toInt - i.toInt).toNat
decreasing_by
  rename_i h
  rw [BitVec.slt_iff_toInt_lt] at h
  have hlt := BitVec.toInt_lt (x := width)
  have hle := BitVec.le_toInt i
  rw [BitVec.toInt_add, Int.bmod_eq_of_le] <;> simp only [BitVec.reduceToInt] <;> omega

/-- `while (--width > 0) cons_putc(padc)` -/
def padWhile (padc : BitVec 8) (width : Word) : Text :=
  if (0#32).slt (width - 1#32) then padc :: padWhile padc (width - 1#32) else []
termination_by width.toNat
decreasing_by
  rename_i h
  have hzero : width ≠ 0#32 := by
    rintro rfl
    revert h
    decide
  have hpos : width.toNat ≠ 0 := fun hw => hzero (BitVec.eq_of_toNat_eq hw)
  rw [BitVec.toNat_sub]
  simp only [BitVec.reduceToNat]
  omega

/-! ## Numbers -/

/-- The loop of `get_num_digits`. -/
def numDigitsLoop (base : Word) : ℕ → BitVec 64 → Word → Option Word
  | 0, _, _ => none
  | fuel + 1, num, digits =>
    if 0#64 < num then do
      let (num, _) ← doDiv num base
      numDigitsLoop base fuel num (digits + 1#32)
    else some digits

def getNumDigits (fuel : ℕ) (num : BitVec 64) (base : Word) : Option Word :=
  if num = 0#64 then some 1#32 else numDigitsLoop base fuel num 0#32

/-- `mod < 10 ? '0' + mod : 'A' + mod - 10` -/
def digitChar (mod : Word) : BitVec 8 :=
  if mod < 10#32 then (48#32 + mod).setWidth 8 else (65#32 + mod - 10#32).setWidth 8

def printDigit (base : Word) (padc : BitVec 8) : ℕ → BitVec 64 → Word → Option Text
  | 0, _, _ => none
  | fuel + 1, num, width =>
    if base.signExtend 64 ≤ num then do
      let (num, mod) ← doDiv num base
      let out ← printDigit base padc fuel num (width - 1#32)
      some (out ++ [digitChar mod])
    else some (padWhile padc width ++ [digitChar (num.setWidth 32)])

def printDigitNoPad (base : Word) : ℕ → BitVec 64 → Option Text
  | 0, _ => none
  | fuel + 1, num =>
    if base.signExtend 64 ≤ num then do
      let (num, mod) ← doDiv num base
      let out ← printDigitNoPad base fuel num
      some (out ++ [digitChar mod])
    else some [digitChar (num.setWidth 32)]

/-- What is written, and the arguments that are left. -/
abbrev Printed := Text × List Arg

def printNum (fuel : ℕ) (args : List Arg) (base : Word) (lflag : Bool) (width : Word)
    (padc : BitVec 8) (leftAlign : Bool) : Option Printed := do
  let (num, args) ← vaArgNum lflag args
  if leftAlign then
    let numDigits ← getNumDigits fuel num base
    let out ← printDigitNoPad base fuel num
    some (out ++ padFor (ascii ' ') numDigits width, args)
  else
    let out ← printDigit base padc fuel num width
    some (out, args)

def printSignedNum (fuel : ℕ) (args : List Arg) (base : Word) (lflag : Bool) (width : Word)
    (padc : BitVec 8) (leftAlign : Bool) : Option Printed := do
  let (signedNum, args) ← vaArgSigned lflag args
  let isNegative := signedNum.slt 0#64
  let num := if isNegative then -signedNum else signedNum
  let numDigits ← getNumDigits fuel num base
  let out ← printDigitNoPad base fuel num
  let totalWidth := numDigits + if isNegative then 1#32 else 0#32
  let sign := if isNegative then [ascii '-'] else []
  if leftAlign then some (sign ++ out ++ padFor (ascii ' ') totalWidth width, args)
  else if padc = ascii '0' ∧ isNegative then
    some ([ascii '-'] ++ padFor (ascii '0') totalWidth width ++ out, args)
  else some (padFor padc totalWidth width ++ sign ++ out, args)

def printStr (args : List Arg) (width : Word) (leftAlign : Bool) : Option Printed := do
  let (s, args) ← vaArgStr args
  let len := BitVec.ofNat 32 s.chars.length
  let pad := if len.slt width then padFor (ascii ' ') 0#32 (width - len) else []
  if leftAlign then some (s.chars ++ pad, args) else some (pad ++ s.chars, args)

/-! ## `cprintf` -/

inductive FmtStatus
  | none
  | transfer
deriving DecidableEq

/-- The variables of `cprintf`. -/
structure Fmt where
  status : FmtStatus
  lflag : Bool
  width : Word
  leftAlign : Bool
  padc : BitVec 8

/-- A byte of the format that is not a conversion, behind `%`. -/
def Fmt.flag (s : Fmt) (c : BitVec 8) : Fmt :=
  if c = ascii '-' then { s with leftAlign := true }
  else if c = ascii '0' then { s with padc := ascii '0' }
  else if ascii '1' ≤ c ∧ c ≤ ascii '9' then
    { s with width := s.width * 10#32 + (c.signExtend 32 - 48#32) }
  else if c = ascii 'l' then { s with lflag := true }
  else s

/-- A byte of the format behind `%` that prints an argument. -/
def Fmt.convert (fuel : ℕ) (s : Fmt) (c : BitVec 8) (args : List Arg) : Option (Option Printed) :=
  if c = ascii 'x' ∨ c = ascii 'p' then
    some (printNum fuel args 16#32 s.lflag s.width s.padc s.leftAlign)
  else if c = ascii 'd' then
    some (printSignedNum fuel args 10#32 s.lflag s.width s.padc s.leftAlign)
  else if c = ascii 'u' then
    some (printNum fuel args 10#32 s.lflag s.width s.padc s.leftAlign)
  else if c = ascii 's' then some (printStr args s.width s.leftAlign)
  else if c = ascii 'c' then some ((vaArgInt args).map fun (v, args) => ([v.setWidth 8], args))
  else none

/-- The loop of `cprintf`. -/
def cprintfFrom (fuel : ℕ) : Text → Fmt → List Arg → Option Printed
  | [], _, args => some ([], args)
  | c :: fmt, s, args =>
    match s.status with
    | .none =>
      let out := if c = ascii '%' then [] else [c]
      let status := if c = ascii '%' then .transfer else .none
      (cprintfFrom fuel fmt ⟨status, false, 0#32, false, ascii ' '⟩ args).map
        fun (rest, args) => (out ++ rest, args)
    | .transfer =>
      match s.convert fuel c args with
      | some printed => do
        let (out, args) ← printed
        let (rest, args) ← cprintfFrom fuel fmt { s with status := .none } args
        some (out ++ rest, args)
      | none => cprintfFrom fuel fmt (s.flag c) args

/-- `cprintf(fmt, ...)`, with the format up to its NUL; the variables are not initialised before the
first byte. -/
def cprintf (fuel : ℕ) (fmt : Text) (args : List Arg) : Option Printed :=
  cprintfFrom fuel fmt ⟨.none, false, 0#32, false, 0#8⟩ args

end Zonix
