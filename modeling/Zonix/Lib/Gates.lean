import Zonix.Lib.X86
import Mathlib.Data.List.Induction

/-!
# Interrupts of the 32-bit x86

An interrupt goes through a gate of the descriptor table: the flags, `cs` and `eip` are pushed, for
some exceptions an error code on top of them, and execution goes on at the offset of the gate. All
that is pushed on the way into a handler is one list, and lies in memory in the reverse order.

`Alike` relates two machines that a program cannot tell apart when it looks neither below its stack
pointer nor at the data of the handlers. A program that respects it can be interrupted anywhere.
-/

namespace Zonix.Lib.X86

variable {m : Memory} {a v x : Dword} {vs ws : List Dword} {c : Cpu}

/-- The two halves of a double word. -/
theorem halves (v : Dword) : (v.extractLsb' 16 16 ++ v.extractLsb' 0 16 : Dword) = v := by
  rw [BitVec.extractLsb'_append_extractLsb'_eq_extractLsb' (by omega)]
  exact BitVec.extractLsb'_eq_self

/-- Double words, and more behind them. -/
theorem holds_append :
    Holds m a (vs ++ ws) ↔ Holds m a vs ∧ Holds m (a + BitVec.ofNat 32 (4 * vs.length)) ws := by
  induction vs generalizing a with
  | nil => simp [Holds]
  | cons v vs ih =>
    have hnext : a + 4#32 + BitVec.ofNat 32 (4 * vs.length) =
        a + BitVec.ofNat 32 (4 * (v :: vs).length) := by
      rw [List.length_cons]
      bv_omega
    rw [List.cons_append, Holds, Holds, ih, hnext, and_assoc]

/-! ## The stack -/

namespace Cpu

/-- `pushl`, of a value -/
def push (c : Cpu) (v : Dword) : Cpu :=
  { c with
    reg := Function.update c.reg .esp (c.reg .esp - 4#32)
    mem := X86.store c.mem (c.reg .esp - 4#32) v }

def pushAll (c : Cpu) (vs : List Dword) : Cpu := vs.foldl push c

/-- `pushal`; the double word for `esp` is what it was before. -/
def pushal (c : Cpu) : Cpu :=
  c.pushAll [c.reg .eax, c.reg .ecx, c.reg .edx, c.reg .ebx, c.reg .esp, c.reg .ebp, c.reg .esi,
    c.reg .edi]

/-- `popl %esp` -/
def popEsp (c : Cpu) : Cpu := c.setReg .esp (X86.load c.mem (c.reg .esp))

/-- `call target`, when the next instruction is at `next`. -/
def call (c : Cpu) (target next : Dword) : Cpu := { c.push next with eip := target }

@[simp] theorem push_esp : (c.push v).reg .esp = c.reg .esp - 4#32 :=
  Function.update_self Reg.esp _ c.reg

theorem pushAll_append (c : Cpu) (vs ws : List Dword) :
    c.pushAll (vs ++ ws) = (c.pushAll vs).pushAll ws := List.foldl_append

@[simp] theorem pushAll_eip : (c.pushAll vs).eip = c.eip := by
  induction vs generalizing c with
  | nil => rfl
  | cons v vs ih => exact ih

/-- Pushing does not look at `eip`. -/
theorem pushAll_setEip (c : Cpu) (eip : Dword) (vs : List Dword) :
    ({ c with eip := eip }).pushAll vs = { c.pushAll vs with eip := eip } := by
  induction vs generalizing c with
  | nil => rfl
  | cons v vs ih => exact ih (c.push v)

theorem pushAll_esp :
    (c.pushAll vs).reg .esp = c.reg .esp - BitVec.ofNat 32 (4 * vs.length) := by
  induction vs generalizing c with
  | nil => simp [pushAll]
  | cons v vs ih =>
    show ((c.push v).pushAll vs).reg .esp = _
    rw [ih, push_esp, List.length_cons]
    bv_omega

theorem pushAll_reg {r : Reg} (hr : r ≠ .esp) : (c.pushAll vs).reg r = c.reg r := by
  induction vs generalizing c with
  | nil => rfl
  | cons v vs ih =>
    show ((c.push v).pushAll vs).reg r = _
    rw [ih]
    exact Function.update_of_ne hr ..

/-- The bytes below the stack pointer that `n` pushes write. -/
def below (esp : Dword) (n : ℕ) : Set Dword := bytes (esp - BitVec.ofNat 32 (4 * n)) (4 * n)

theorem pushAll_off (hn : 4 * vs.length ≤ 2 ^ 32) (hx : x ∉ below (c.reg .esp) vs.length) :
    (c.pushAll vs).mem x = c.mem x := by
  induction vs generalizing c with
  | nil => rfl
  | cons v vs ih =>
    rw [List.length_cons] at hn hx
    have hhead : x ∉ bytes (c.reg .esp - 4#32) 4 := by
      intro hmem
      apply hx
      rw [below, mem_bytes] at *
      bv_omega
    have htail : x ∉ below ((c.push v).reg .esp) vs.length := by
      intro hmem
      apply hx
      rw [push_esp, below, mem_bytes] at hmem
      rw [below, mem_bytes]
      bv_omega
    show ((c.push v).pushAll vs).mem x = _
    rw [ih (by omega) htail]
    exact store_off hhead

/-- What was pushed last lies at the stack pointer. -/
theorem pushAll_holds (hn : 4 * vs.length ≤ 2 ^ 32) :
    Holds (c.pushAll vs).mem ((c.pushAll vs).reg .esp) vs.reverse := by
  induction vs using List.reverseRecOn with
  | nil => trivial
  | append_singleton vs v ih =>
    rw [List.length_append, List.length_singleton] at hn
    have hpush : c.pushAll (vs ++ [v]) = (c.pushAll vs).push v := pushAll_append c vs [v]
    have hback : (c.pushAll vs).reg .esp - 4#32 + 4#32 = (c.pushAll vs).reg .esp :=
      BitVec.sub_add_cancel ..
    rw [hpush, push_esp, List.reverse_append, List.reverse_singleton, List.singleton_append]
    refine ⟨load_store, ?_⟩
    rw [hback]
    refine (ih (by omega)).congr (by rw [List.length_reverse]; omega) fun x hx => ?_
    -- the words that were there lie above the new one
    rw [List.length_reverse] at hx
    have hapart : Disjoint (bytes ((c.pushAll vs).reg .esp - 4#32) 4)
        (bytes ((c.pushAll vs).reg .esp - 4#32 + 4#32) (4 * vs.length)) :=
      bytes_disjoint (by decide) (show 4 + 4 * vs.length ≤ 2 ^ 32 by omega)
    rw [hback] at hapart
    exact store_off fun hx' => Set.disjoint_left.mp hapart hx' hx

end Cpu

/-! ## Gates -/

/-- A descriptor of the table, as the processor reads it. -/
structure Gate where
  offset : Dword
  selector : BitVec 16
  type : BitVec 4
  /-- set for a code or data segment -/
  s : Bool
  dpl : BitVec 2
  present : Bool
deriving DecidableEq

def readGate (m : Memory) (a : Dword) : Gate :=
  let low := load m a
  let high := load m (a + 4#32)
  { offset := high.extractLsb' 16 16 ++ low.extractLsb' 0 16
    selector := low.extractLsb' 16 16
    type := high.extractLsb' 8 4
    s := high.getLsbD 12
    dpl := high.extractLsb' 13 2
    present := high.getLsbD 15 }

/-- The types of 32-bit gates that an interrupt may go through. -/
def INTERRUPT_GATE : BitVec 4 := 0xE#4
def TRAP_GATE : BitVec 4 := 0xF#4

/-- `IF` -/
def EFLAGS_IF : Dword := 0x200#32

/-- `TF`, `NT`, `RF` and `VM`, which every gate clears. -/
def GATE_CLEARS : Dword := 0x34100#32

/-- The flags behind the gate. An interrupt gate turns interrupts off besides. -/
def Gate.eflags (g : Gate) (eflags : Dword) : Dword :=
  eflags &&& ~~~(if g.type = INTERRUPT_GATE then GATE_CLEARS ||| EFLAGS_IF else GATE_CLEARS)

/-- The exceptions that push an error code. Vectors 8, 10 to 14 and 17 are taken as these exceptions
always, and not as an `int` with the number, which pushes none. -/
def HasErrorCode (n : ℕ) : Prop := n = 8 ∨ 10 ≤ n ∧ n ≤ 14 ∨ n = 17

instance (n : ℕ) : Decidable (HasErrorCode n) :=
  inferInstanceAs (Decidable (_ ∨ _ ∨ _))

/-- The register with the place of the table. -/
structure Idtr where
  base : Dword
  limit : BitVec 16

/-- Descriptor `n` of the table. -/
def Idtr.gate (idtr : Idtr) (n : ℕ) : Dword := idtr.base + BitVec.ofNat 32 (8 * n)

namespace Machine

/-- The interrupt has a gate, to code of the same privilege level. -/
def Delivers (m : Machine) (idtr : Idtr) (n : ℕ) : Prop :=
  let gate := readGate m.cpu.mem (idtr.gate n)
  8 * n + 7 ≤ idtr.limit.toNat ∧ gate.present = true ∧ gate.s = false ∧
    (gate.type = INTERRUPT_GATE ∨ gate.type = TRAP_GATE) ∧ rpl gate.selector = rpl m.cs

instance (m : Machine) (idtr : Idtr) (n : ℕ) : Decidable (m.Delivers idtr n) :=
  inferInstanceAs (Decidable (_ ∧ _ ∧ _ ∧ _ ∧ _))

/-- What the processor pushes; the upper half of the double word for `cs` is `high`. -/
def deliverPushes (m : Machine) (n : ℕ) (err : Dword) (high : BitVec 16) : List Dword :=
  [m.eflags, high ++ m.cs, m.cpu.eip] ++ if HasErrorCode n then [err] else []

/-- Interrupt `n` without a change of the privilege level; where the number is that of an exception
with an error code, it is that exception, and `err` its code. -/
def deliver (m : Machine) (idtr : Idtr) (n : ℕ) (err : Dword) (high : BitVec 16) :
    Option Machine :=
  let gate := readGate m.cpu.mem (idtr.gate n)
  if m.Delivers idtr n then
    some
      { cpu := { m.cpu.pushAll (m.deliverPushes n err high) with eip := gate.offset }
        cs := gate.selector
        ss := m.ss
        eflags := gate.eflags m.eflags }
  else none

end Machine

/-! ## Programs that are interrupted -/

/-- The bytes of a stack that ends at `lo`, below the stack pointer. -/
def dead (lo esp : Dword) : Set Dword := {x | lo ≤ x ∧ x < esp}

/-- The machines differ at most below the stack pointer, and in `hidden`. -/
structure Alike (hidden : Set Dword) (lo : Dword) (m m' : Machine) : Prop where
  reg : m'.cpu.reg = m.cpu.reg
  eip : m'.cpu.eip = m.cpu.eip
  cs : m'.cs = m.cs
  ss : m'.ss = m.ss
  eflags : m'.eflags = m.eflags
  mem : ∀ x, x ∉ hidden → x ∉ dead lo (m.cpu.reg .esp) → m'.cpu.mem x = m.cpu.mem x

namespace Alike

variable {hidden : Set Dword} {lo : Dword} {m m' m'' : Machine}

theorem refl (m : Machine) : Alike hidden lo m m := ⟨rfl, rfl, rfl, rfl, rfl, fun _ _ _ => rfl⟩

theorem trans (h : Alike hidden lo m m') (h' : Alike hidden lo m' m'') : Alike hidden lo m m'' := by
  refine ⟨h'.reg.trans h.reg, h'.eip.trans h.eip, h'.cs.trans h.cs, h'.ss.trans h.ss,
    h'.eflags.trans h.eflags, fun x hx hdead => ?_⟩
  rw [h'.mem x hx (by rwa [h.reg]), h.mem x hx hdead]

end Alike

/-- The step of a program looks neither at `hidden` nor below the stack pointer. -/
def Respects (hidden : Set Dword) (lo : Dword) (step : Machine → Machine) : Prop :=
  ∀ m m', Alike hidden lo m m' → Alike hidden lo (step m) (step m')

end Zonix.Lib.X86
