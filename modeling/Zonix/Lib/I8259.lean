import Mathlib.Algebra.Group.Basic
import Mathlib.Algebra.Group.Fin.Basic
import Mathlib.Data.List.FinRange

/-!
# The 8259A interrupt controller

A chip latches the requests on its eight inputs. It passes on the one of highest priority that is
not masked, unless a level of the same or a higher priority is in service. How it does that is set
by initialization words, which are told apart by the order in which they come.

Two chips make sixteen inputs: the slave is wired to an input of the master. Chips that are
initialized, and that end their interrupts by themselves, are nothing but sixteen latches and
sixteen masks (`Ready`, `Pics.inta_some`, `Pics.inta_eq_none_iff`).

The inputs are edge triggered. What can be read back from a chip is left out.
-/

namespace Zonix.Lib

/-- What the next word on the data port is. -/
inductive Stage
  | icw2 | icw3 | icw4 | ready
deriving DecidableEq

structure I8259 where
  stage : Stage
  single : Bool
  expectsIcw4 : Bool
  base : BitVec 8
  slaves : BitVec 8
  autoEoi : Bool
  rotates : Bool
  specialMask : Bool
  /-- The input of lowest priority. -/
  lowest : Fin 8
  imr : BitVec 8
  irr : BitVec 8
  isr : BitVec 8
deriving DecidableEq

namespace I8259
variable {c d : I8259} {i j : Fin 8} {v : BitVec 8}

/-! ## Bits of a register -/

def setBit (v : BitVec 8) (i : Fin 8) : BitVec 8 := v ||| BitVec.twoPow 8 i

def clearBit (v : BitVec 8) (i : Fin 8) : BitVec 8 := v &&& ~~~BitVec.twoPow 8 i

@[simp] theorem getElem_setBit :
    (setBit v i)[j.val] = (v[j.val] || decide (j = i)) := by
  simp [setBit, Fin.ext_iff, eq_comm]

@[simp] theorem getElem_clearBit :
    (clearBit v i)[j.val] = (v[j.val] && decide (j ≠ i)) := by
  simp [clearBit, Fin.ext_iff, eq_comm]

/-! ## Requests -/

/-- A rising edge at an input. -/
def request (c : I8259) (i : Fin 8) : I8259 := { c with irr := setBit c.irr i }

/-- The inputs, that of highest priority first. -/
def order (c : I8259) : List (Fin 8) := (List.finRange 8).map (c.lowest + 1 + ·)

def Wants (c : I8259) (i : Fin 8) : Bool := c.irr[i.val] && !c.imr[i.val]

/-- In the special mask mode a level that is masked holds nothing back. -/
def Serves (c : I8259) (i : Fin 8) : Bool :=
  c.isr[i.val] && !(c.specialMask && c.imr[i.val])

/-- The input that the chip passes on. -/
def int (c : I8259) : Option (Fin 8) :=
  if c.stage = .ready then
    (c.order.find? fun i => c.Serves i || c.Wants i).filter fun i => !c.Serves i
  else none

/-- The number that the chip gives for an input. -/
def vector (c : I8259) (i : Fin 8) : BitVec 8 := (c.base &&& 0xF8#8) ||| BitVec.ofNat 8 i

def acknowledge (c : I8259) (i : Fin 8) : I8259 :=
  { c with
    irr := clearBit c.irr i
    isr := if c.autoEoi then c.isr else setBit c.isr i
    lowest := if c.autoEoi && c.rotates then i else c.lowest }

/-! ## The ports -/

/-- The level of highest priority in service. -/
def inService (c : I8259) : Option (Fin 8) := c.order.find? fun i => c.isr[i.val]

/-- OCW2: the end of an interrupt, and the priorities. -/
def writeOcw2 (c : I8259) (v : BitVec 8) : I8259 :=
  let level := Fin.ofNat 8 v.toNat
  match v[7], v[6], v[5] with
  | rotates, false, false => { c with rotates := rotates }
  | false, true, false => c
  | true, true, false => { c with lowest := level }
  | false, true, true => { c with isr := clearBit c.isr level }
  | true, true, true => { c with isr := clearBit c.isr level, lowest := level }
  | rotates, false, true =>
    match c.inService with
    | none => c
    | some i =>
      { c with isr := clearBit c.isr i, lowest := if rotates then i else c.lowest }

/-- A command that is ICW1. -/
def Initializes (v : BitVec 8) : Bool := v[4]

/-- The command port: ICW1, OCW2 and OCW3. -/
def writeCommand (c : I8259) (v : BitVec 8) : I8259 :=
  if Initializes v then
    { c with
      stage := .icw2
      single := v[1]
      expectsIcw4 := v[0]
      autoEoi := false
      rotates := false
      specialMask := false
      lowest := 7
      imr := 0#8
      irr := 0#8
      isr := 0#8 }
  else if v[3] then
    if v[6] then { c with specialMask := v[5] } else c
  else c.writeOcw2 v

/-- The data port: ICW2 to ICW4, as far as they are expected, and then OCW1. -/
def writeData (c : I8259) (v : BitVec 8) : I8259 :=
  match c.stage with
  | .icw2 =>
    { c with
      base := v
      stage := if !c.single then .icw3 else if c.expectsIcw4 then .icw4 else .ready }
  | .icw3 => { c with slaves := v, stage := if c.expectsIcw4 then .icw4 else .ready }
  | .icw4 => { c with autoEoi := v[1], stage := .ready }
  | .ready => { c with imr := v }

theorem writeCommand_stage (c : I8259) (v : BitVec 8) :
    (c.writeCommand v).stage = if Initializes v then .icw2 else c.stage := by
  have hocw2 : (c.writeOcw2 v).stage = c.stage := by
    unfold writeOcw2
    repeat' split
    all_goals rfl
  unfold writeCommand
  split
  · rfl
  · split
    · split <;> rfl
    · exact hocw2

/-! ## Chips that end their interrupts by themselves -/

/-- Initialized, with nothing in service now or later. -/
structure Ready (c : I8259) : Prop where
  stage : c.stage = .ready
  autoEoi : c.autoEoi = true
  isr : c.isr = 0#8

theorem mem_order (c : I8259) (i : Fin 8) : i ∈ c.order :=
  List.mem_map.mpr ⟨i - (c.lowest + 1), List.mem_finRange _, add_sub_cancel _ _⟩

namespace Ready

theorem not_serves (h : c.Ready) : c.Serves i = false := by
  simp [Serves, h.isr]

theorem inService (h : c.Ready) : c.inService = none := by
  rw [I8259.inService, List.find?_eq_none]
  intro i _
  simp [h.isr]

theorem int_eq (h : c.Ready) : c.int = c.order.find? c.Wants := by
  rw [int, if_pos h.stage]
  simp only [h.not_serves, Bool.false_or, Bool.not_false]
  cases c.order.find? c.Wants <;> rfl

/-- No request that is not masked is held back. -/
theorem int_eq_none_iff (h : c.Ready) : c.int = none ↔ ∀ i, c.Wants i = false := by
  rw [h.int_eq, List.find?_eq_none]
  constructor
  · intro hnone i
    exact Bool.not_eq_true _ ▸ hnone i (c.mem_order i)
  · intro hall i _
    rw [hall i]
    decide

theorem wants (h : c.Ready) (hint : c.int = some i) : c.Wants i = true := by
  rw [h.int_eq] at hint
  exact List.find?_some hint

theorem request (h : c.Ready) (i : Fin 8) : (c.request i).Ready := ⟨h.stage, h.autoEoi, h.isr⟩

theorem acknowledge (h : c.Ready) (i : Fin 8) : (c.acknowledge i).Ready := by
  refine ⟨h.stage, h.autoEoi, ?_⟩
  rw [I8259.acknowledge, if_pos h.autoEoi, h.isr]

theorem writeData (h : c.Ready) (v : BitVec 8) : c.writeData v = { c with imr := v } := by
  rw [I8259.writeData, h.stage]

end Ready

/-- All that matters of a chip which is ready: not the order of its inputs. -/
structure Alike (c d : I8259) : Prop where
  base : d.base = c.base
  slaves : d.slaves = c.slaves
  imr : d.imr = c.imr
  irr : d.irr = c.irr

theorem Alike.wants (h : Alike c d) : d.Wants i = c.Wants i := by
  rw [Wants, Wants, h.irr, h.imr]

/-- A command that does not begin another initialization only reorders the inputs. -/
theorem Ready.writeCommand (h : c.Ready) (hv : Initializes v = false) :
    (c.writeCommand v).Ready ∧ Alike c (c.writeCommand v) := by
  have hclear (k : Fin 8) : clearBit c.isr k = 0#8 := by
    rw [h.isr, clearBit, BitVec.zero_and]
  have hkept (d : I8259) (hstage : d.stage = c.stage) (hauto : d.autoEoi = c.autoEoi)
      (hisr : d.isr = 0#8) : d.Ready := ⟨hstage.trans h.stage, hauto.trans h.autoEoi, hisr⟩
  rw [I8259.writeCommand, if_neg (by rw [hv]; decide)]
  split
  · split
    · exact ⟨hkept _ rfl rfl h.isr, ⟨rfl, rfl, rfl, rfl⟩⟩
    · exact ⟨h, ⟨rfl, rfl, rfl, rfl⟩⟩
  · unfold writeOcw2
    split
    · exact ⟨hkept _ rfl rfl h.isr, ⟨rfl, rfl, rfl, rfl⟩⟩
    · exact ⟨h, ⟨rfl, rfl, rfl, rfl⟩⟩
    · exact ⟨hkept _ rfl rfl h.isr, ⟨rfl, rfl, rfl, rfl⟩⟩
    · exact ⟨hkept _ rfl rfl (hclear _), ⟨rfl, rfl, rfl, rfl⟩⟩
    · exact ⟨hkept _ rfl rfl (hclear _), ⟨rfl, rfl, rfl, rfl⟩⟩
    · rw [h.inService]
      exact ⟨h, ⟨rfl, rfl, rfl, rfl⟩⟩

end I8259

/-! ## Two chips -/

structure Pics where
  master : I8259
  slave : I8259
deriving DecidableEq

namespace Pics
variable {p q : Pics} {line : Fin 8} {irq j : Fin 16}

def ofMaster (i : Fin 8) : Fin 16 := ⟨i, by omega⟩

def ofSlave (i : Fin 8) : Fin 16 := ⟨i + 8, by omega⟩

/-- The input of its chip that an interrupt request comes in at. -/
def input (irq : Fin 16) : Fin 8 := Fin.ofNat 8 irq

def chip (p : Pics) (irq : Fin 16) : I8259 := if irq.val < 8 then p.master else p.slave

def request (p : Pics) (irq : Fin 16) : Pics :=
  if irq.val < 8 then { p with master := p.master.request (input irq) }
  else { p with slave := p.slave.request (input irq) }

/-- The master, with the slave at one of its inputs: its request is there for as long as the slave
makes it. -/
def cascaded (line : Fin 8) (p : Pics) : I8259 :=
  if p.slave.int.isSome then p.master.request line else p.master

/-- Whether the processor is interrupted. -/
def int (line : Fin 8) (p : Pics) : Bool := (cascaded line p).int.isSome

/-- The processor acknowledges an interrupt, and is given its number: by the master, or by the slave
that the master calls upon. There is no result when no chip gives one. -/
def inta (line : Fin 8) (p : Pics) : Option (BitVec 8 × Pics) := do
  let i ← (cascaded line p).int
  if p.master.slaves[i.val] then
    if p.slave.slaves.toNat % 8 = i then
      let j ← p.slave.int
      some (p.slave.vector j, ⟨p.master.acknowledge i, p.slave.acknowledge j⟩)
    else none
  else some (p.master.vector i, ⟨p.master.acknowledge i, p.slave⟩)

/-- The requests that were not acknowledged yet, those at the slave behind those at the master. -/
def requests (p : Pics) : BitVec 16 := p.slave.irr ++ p.master.irr

def masks (p : Pics) : BitVec 16 := p.slave.imr ++ p.master.imr

/-- Two chips that are ready, one of them at an input of the other, and numbers in a row. -/
structure Wired (line : Fin 8) (first : BitVec 8) (p : Pics) : Prop where
  master : p.master.Ready
  slave : p.slave.Ready
  slaves : ∀ i : Fin 8, p.master.slaves[i.val] = decide (i = line)
  id : p.slave.slaves.toNat % 8 = line
  free : p.master.irr[line.val] = false
  vector : ∀ irq, (p.chip irq).vector (input irq) = first + BitVec.ofNat 8 irq.val

/-- An interrupt request that has been made and that no mask holds back. -/
def Deliverable (line : Fin 8) (due masks : BitVec 16) (irq : Fin 16) : Prop :=
  due[irq.val] = true ∧ masks[irq.val] = false ∧
    (8 ≤ irq.val → masks[(ofMaster line).val] = false)

/-! ### Sixteen inputs -/

/-- An input is one of the master or one of the slave. -/
theorem irq_cases (irq : Fin 16) : (∃ i, irq = ofMaster i) ∨ ∃ i, irq = ofSlave i := by
  by_cases hlow : irq.val < 8
  · exact Or.inl ⟨⟨irq, hlow⟩, rfl⟩
  · refine Or.inr ⟨⟨irq - 8, by omega⟩, Fin.ext ?_⟩
    show irq.val = irq.val - 8 + 8
    omega

theorem ofMaster_lt (i : Fin 8) : (ofMaster i).val < 8 := i.isLt

theorem ofSlave_not_lt (i : Fin 8) : ¬ (ofSlave i).val < 8 :=
  Nat.not_lt.mpr (Nat.le_add_left 8 i)

@[simp] theorem input_ofMaster (i : Fin 8) : input (ofMaster i) = i :=
  Fin.ext (Nat.mod_eq_of_lt i.isLt)

@[simp] theorem input_ofSlave (i : Fin 8) : input (ofSlave i) = i := by
  refine Fin.ext ?_
  show (i.val + 8) % 8 = i.val
  omega

@[simp] theorem chip_ofMaster (i : Fin 8) : p.chip (ofMaster i) = p.master :=
  if_pos (ofMaster_lt i)

@[simp] theorem chip_ofSlave (i : Fin 8) : p.chip (ofSlave i) = p.slave :=
  if_neg (ofSlave_not_lt i)

@[simp] theorem request_ofMaster (i : Fin 8) :
    p.request (ofMaster i) = { p with master := p.master.request i } := by
  rw [request, if_pos (ofMaster_lt i), input_ofMaster]

@[simp] theorem request_ofSlave (i : Fin 8) :
    p.request (ofSlave i) = { p with slave := p.slave.request i } := by
  rw [request, if_neg (ofSlave_not_lt i), input_ofSlave]

@[simp] theorem ofMaster_inj {i j : Fin 8} : ofMaster i = ofMaster j ↔ i = j := by
  simp [ofMaster, Fin.ext_iff]

@[simp] theorem ofSlave_inj {i j : Fin 8} : ofSlave i = ofSlave j ↔ i = j := by
  simp [ofSlave, Fin.ext_iff]

@[simp] theorem ofSlave_ne_ofMaster (i j : Fin 8) : ofSlave i ≠ ofMaster j :=
  fun heq => ofSlave_not_lt i (heq ▸ ofMaster_lt j)

@[simp] theorem ofMaster_ne_ofSlave (i j : Fin 8) : ofMaster i ≠ ofSlave j :=
  (ofSlave_ne_ofMaster j i).symm

@[simp] theorem append_ofMaster (hi lo : BitVec 8) (i : Fin 8) :
    (hi ++ lo)[(ofMaster i).val] = lo[i.val] := by
  rw [BitVec.getElem_append, dif_pos (ofMaster_lt i)]
  rfl

@[simp] theorem append_ofSlave (hi lo : BitVec 8) (i : Fin 8) :
    (hi ++ lo)[(ofSlave i).val] = hi[i.val] := by
  rw [BitVec.getElem_append, dif_neg (ofSlave_not_lt i)]
  congr 1

/-! ### What the processor is given -/

section Wired
variable {first : BitVec 8}

theorem int_isSome_iff {c : I8259} (h : c.Ready) : c.int.isSome ↔ ∃ i, c.Wants i = true := by
  rw [Option.isSome_iff_ne_none, ne_eq, h.int_eq_none_iff, not_forall]
  simp only [Bool.not_eq_false]

theorem Wired.cascaded (h : Wired line first p) : (Pics.cascaded line p).Ready := by
  rw [Pics.cascaded]
  split
  · exact h.master.request line
  · exact h.master

/-- At the input of the slave, the master is asked for what the slave is asked for. -/
theorem Wired.cascaded_wants (h : Wired line first p) (i : Fin 8) :
    (Pics.cascaded line p).Wants i = true ↔ i ≠ line ∧ p.master.Wants i = true ∨
      i = line ∧ p.slave.int.isSome ∧ p.master.imr[line.val] = false := by
  unfold Pics.cascaded
  by_cases hline : i = line
  · subst hline
    cases p.slave.int.isSome <;> simp [I8259.Wants, I8259.request, h.free]
  · cases p.slave.int.isSome <;> simp [I8259.Wants, I8259.request, hline]

/-- The processor is interrupted when there is something to deliver. -/
theorem Wired.int_iff (h : Wired line first p) :
    int line p = true ↔ ∃ irq, Deliverable line p.requests p.masks irq := by
  rw [Pics.int, int_isSome_iff h.cascaded]
  simp only [h.cascaded_wants]
  constructor
  · rintro ⟨i, ⟨-, hwants⟩ | ⟨-, hslave, hopen⟩⟩
    · refine ⟨ofMaster i, ?_⟩
      simpa [Deliverable, requests, masks, I8259.Wants, ofMaster_lt] using hwants
    · obtain ⟨j, hj⟩ := (int_isSome_iff h.slave).mp hslave
      refine ⟨ofSlave j, ?_⟩
      simpa [Deliverable, requests, masks, I8259.Wants, hopen] using hj
  · rintro ⟨irq, hdue, hopen, hline⟩
    rcases irq_cases irq with ⟨i, rfl⟩ | ⟨j, rfl⟩
    · have hwants : p.master.Wants i = true := by
        simpa [requests, masks, I8259.Wants] using And.intro hdue hopen
      refine ⟨i, Or.inl ⟨?_, hwants⟩⟩
      rintro rfl
      simp [requests, h.free] at hdue
    · have hwants : p.slave.Wants j = true := by
        simpa [requests, masks, I8259.Wants] using And.intro hdue hopen
      have hslave := (int_isSome_iff h.slave).mpr ⟨j, hwants⟩
      refine ⟨line, Or.inr ⟨rfl, hslave, ?_⟩⟩
      simpa [masks] using hline (Nat.le_add_left 8 j)

/-- And then it is given something deliverable, and nothing else changes. -/
theorem Wired.inta (h : Wired line first p) (hint : int line p = true) :
    ∃ irq q, inta line p = some (first + BitVec.ofNat 8 irq.val, q) ∧
      Deliverable line p.requests p.masks irq ∧ Wired line first q ∧ q.masks = p.masks ∧
      ∀ j : Fin 16, q.requests[j.val] = (p.requests[j.val] && decide (j ≠ irq)) := by
  obtain ⟨i, hi⟩ := Option.isSome_iff_exists.mp hint
  have hwanted := (h.cascaded_wants i).mp (h.cascaded.wants hi)
  rcases hwanted with ⟨hline, hwants⟩ | ⟨rfl, hslave, hopen⟩
  · have hvector := h.vector (ofMaster i)
    rw [chip_ofMaster, input_ofMaster] at hvector
    refine ⟨ofMaster i, ⟨p.master.acknowledge i, p.slave⟩, ?_, ?_,
      ⟨h.master.acknowledge i, h.slave, h.slaves, h.id, ?_, ?_⟩, rfl, ?_⟩
    · rw [Pics.inta, hi, ← hvector]
      simp [h.slaves i, hline]
    · simpa [Deliverable, requests, masks, I8259.Wants, ofMaster_lt] using hwants
    · simp [I8259.acknowledge, h.free]
    · intro irq
      rw [← h.vector irq]
      rcases irq_cases irq with ⟨j, rfl⟩ | ⟨j, rfl⟩
      · simp [I8259.vector, I8259.acknowledge]
      · simp
    · intro irq
      rcases irq_cases irq with ⟨j, rfl⟩ | ⟨j, rfl⟩
      · simp [requests, I8259.acknowledge]
      · simp [requests]
  · obtain ⟨j, hj⟩ := Option.isSome_iff_exists.mp hslave
    have hvector := h.vector (ofSlave j)
    rw [chip_ofSlave, input_ofSlave] at hvector
    refine ⟨ofSlave j, ⟨p.master.acknowledge i, p.slave.acknowledge j⟩, ?_, ?_,
      ⟨h.master.acknowledge i, h.slave.acknowledge j, h.slaves, h.id, ?_, ?_⟩, rfl, ?_⟩
    · rw [Pics.inta, hi, hj, ← hvector]
      simp [h.slaves i, h.id]
    · have hwants := h.slave.wants hj
      simpa [Deliverable, requests, masks, I8259.Wants, hopen] using hwants
    · simp [I8259.acknowledge, h.free]
    · intro irq
      rw [← h.vector irq]
      rcases irq_cases irq with ⟨k, rfl⟩ | ⟨k, rfl⟩ <;>
        simp [I8259.vector, I8259.acknowledge]
    · intro irq
      rcases irq_cases irq with ⟨k, rfl⟩ | ⟨k, rfl⟩
      · -- the input of the slave holds no request of its own
        have hfree : ∀ hk : k = i, p.master.irr[k.val] = false := by
          rintro rfl
          exact h.free
        by_cases hk : k = i
        · simp [requests, I8259.acknowledge, hfree hk]
        · simp [requests, I8259.acknowledge, hk]
      · simp [requests, I8259.acknowledge]

/-! ### What keeps the chips so -/

theorem Wired.request (h : Wired line first p) (hirq : irq.val ≠ line.val) :
    Wired line first (p.request irq) ∧ (p.request irq).masks = p.masks ∧
      ∀ j : Fin 16, (p.request irq).requests[j.val] =
        (p.requests[j.val] || decide (j = irq)) := by
  rcases irq_cases irq with ⟨i, rfl⟩ | ⟨i, rfl⟩
  · have hline : line ≠ i := fun heq => hirq (by rw [heq]; rfl)
    rw [request_ofMaster]
    refine ⟨⟨h.master.request i, h.slave, h.slaves, h.id, ?_, ?_⟩, rfl, ?_⟩
    · simp [I8259.request, h.free, hline]
    · intro irq
      rw [← h.vector irq]
      rcases irq_cases irq with ⟨k, rfl⟩ | ⟨k, rfl⟩ <;> simp [I8259.vector, I8259.request]
    · intro irq
      rcases irq_cases irq with ⟨k, rfl⟩ | ⟨k, rfl⟩
      · simp [requests, I8259.request]
      · simp [requests]
  · rw [request_ofSlave]
    refine ⟨⟨h.master, h.slave.request i, h.slaves, h.id, h.free, ?_⟩, rfl, ?_⟩
    · intro irq
      rw [← h.vector irq]
      rcases irq_cases irq with ⟨k, rfl⟩ | ⟨k, rfl⟩ <;> simp [I8259.vector, I8259.request]
    · intro irq
      rcases irq_cases irq with ⟨k, rfl⟩ | ⟨k, rfl⟩
      · simp [requests]
      · simp [requests, I8259.request]

/-- Both masks are written. -/
theorem Wired.writeMasks (h : Wired line first p) (hi lo : BitVec 8) :
    Wired line first ⟨p.master.writeData lo, p.slave.writeData hi⟩ ∧
      (⟨p.master.writeData lo, p.slave.writeData hi⟩ : Pics).masks = hi ++ lo ∧
      (⟨p.master.writeData lo, p.slave.writeData hi⟩ : Pics).requests = p.requests := by
  rw [h.master.writeData, h.slave.writeData]
  refine ⟨⟨⟨h.master.stage, h.master.autoEoi, h.master.isr⟩,
    ⟨h.slave.stage, h.slave.autoEoi, h.slave.isr⟩, h.slaves, h.id, h.free, ?_⟩, rfl, rfl⟩
  intro irq
  rw [← h.vector irq]
  rcases irq_cases irq with ⟨k, rfl⟩ | ⟨k, rfl⟩ <;> simp [I8259.vector]

/-- Chips that are alike hold the same requests, and have the same masks. -/
theorem Wired.alike (h : Wired line first p) (hm : q.master.Ready) (hs : q.slave.Ready)
    (hmaster : I8259.Alike p.master q.master) (hslave : I8259.Alike p.slave q.slave) :
    Wired line first q ∧ q.masks = p.masks ∧ q.requests = p.requests := by
  refine ⟨⟨hm, hs, ?_, ?_, ?_, ?_⟩, ?_, ?_⟩
  · rw [hmaster.slaves]
    exact h.slaves
  · rw [hslave.slaves]
    exact h.id
  · rw [hmaster.irr]
    exact h.free
  · intro irq
    rw [← h.vector irq]
    rcases irq_cases irq with ⟨k, rfl⟩ | ⟨k, rfl⟩
    · simp [I8259.vector, hmaster.base]
    · simp [I8259.vector, hslave.base]
  · rw [masks, masks, hmaster.imr, hslave.imr]
  · rw [requests, requests, hmaster.irr, hslave.irr]

end Wired

end Pics
end Zonix.Lib
