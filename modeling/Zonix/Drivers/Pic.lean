import Zonix.Lib.I8259
import Zonix.Lib.Machine

/-!
# The interrupt controllers: `boot/bootasm.S` and `kern/drivers/pic.c`

`bootasm.S` programs the two chips to end their interrupts by themselves. Two of its instructions
lack the `$`: they load bytes of the memory instead of the command words, and the chips are ready
behind them if and only if these bytes do not begin another initialization
(`bootPics_ready_iff`).

From then on, whatever the devices and the kernel do, the chips are sixteen latches and sixteen
masks: `pics_deliver`.
-/

namespace Zonix
open Lib

/-! ## `arch/x86/drivers/i8259.h` -/

def PIC1_CMD : BitVec 16 := 0x20#16
def PIC1_IMR : BitVec 16 := 0x21#16
def PIC2_CMD : BitVec 16 := 0xA0#16
def PIC2_IMR : BitVec 16 := 0xA1#16

def ICW1_ICW4 : BitVec 8 := 0x01#8
def ICW1_INIT : BitVec 8 := 0x10#8

def ICW4_8086 : BitVec 8 := 0x01#8
def ICW4_AUTO : BitVec 8 := 0x02#8

def OCW3_READ_IRR : ℕ := 0x02
def OCW3_SET_MASK : ℕ := 0x60

def OCW3_ASM (n : ℕ) : ℕ := 0x08 ||| n

def IRQ_OFFSET : BitVec 8 := 0x20#8

def IRQ_TIMER : Fin 16 := 0
def IRQ_KBD : Fin 16 := 1
def IRQ_SLAVE : Fin 16 := 2

def BIT_SLAVE : BitVec 8 := 1#8 <<< IRQ_SLAVE.val

/-- The input of the master that the slave is wired to. -/
def slaveLine : Fin 8 := Pics.input IRQ_SLAVE

def picsOutb (p : Pics) (port : BitVec 16) (v : BitVec 8) : Pics :=
  if port = PIC1_CMD then { p with master := p.master.writeCommand v }
  else if port = PIC1_IMR then { p with master := p.master.writeData v }
  else if port = PIC2_CMD then { p with slave := p.slave.writeCommand v }
  else if port = PIC2_IMR then { p with slave := p.slave.writeData v }
  else p

/-! ## `bootasm.S` -/

/-- `PIC Init`, up to ICW4 -/
def bootIcws (p : Pics) : Pics :=
  let p := picsOutb p PIC1_CMD (ICW1_ICW4 ||| ICW1_INIT)
  let p := picsOutb p PIC2_CMD (ICW1_ICW4 ||| ICW1_INIT)
  let p := picsOutb p PIC1_IMR IRQ_OFFSET
  let p := picsOutb p PIC2_IMR (IRQ_OFFSET + 8#8)
  let p := picsOutb p PIC1_IMR BIT_SLAVE
  let p := picsOutb p PIC2_IMR (BitVec.ofNat 8 IRQ_SLAVE)
  let p := picsOutb p PIC1_IMR (ICW4_8086 ||| ICW4_AUTO)
  picsOutb p PIC2_IMR (ICW4_8086 ||| ICW4_AUTO)

/-- `PIC Init`: `mov OCW3_ASM(..), %al` loads a byte. -/
def bootPics (mem : ℕ → BitVec 8) (p : Pics) : Pics :=
  let p := bootIcws p
  let al := mem (OCW3_ASM OCW3_SET_MASK)
  let p := picsOutb (picsOutb p PIC1_CMD al) PIC2_CMD al
  let al := mem (OCW3_ASM OCW3_READ_IRR)
  picsOutb (picsOutb p PIC1_CMD al) PIC2_CMD al

/-! ## `pic.c` -/

/-- The chips, and `irq_mask` -/
structure Pic where
  chips : Pics
  irqMask : BitVec 16

namespace Pic
variable {s t : Pic} {irq : ℕ}

def picSetmask (s : Pic) (mask : BitVec 16) : Pic where
  chips := picsOutb (picsOutb s.chips PIC1_IMR (mask.setWidth 8)) PIC2_IMR ((mask >>> 8).setWidth 8)
  irqMask := mask

def picEnable (s : Pic) (irq : ℕ) : Pic := s.picSetmask (s.irqMask &&& ~~~(1#16 <<< irq))

def picSendEoi (s : Pic) (irq : ℕ) : Pic :=
  let chips := if 8 ≤ irq then picsOutb s.chips PIC2_CMD 0x20#8 else s.chips
  { s with chips := picsOutb chips PIC1_CMD 0x20#8 }

def picInit (s : Pic) : Pic := s.picEnable IRQ_SLAVE

/-- Behind `bootasm.S`, with `irq_mask` as it is defined. -/
def boot (mem : ℕ → BitVec 8) (p : Pics) : Pic := ⟨bootPics mem p, 0xFFFF#16⟩

end Pic

/-! ## The chips behind `bootasm.S` -/

/-- The chips that are programmed as the kernel expects. -/
abbrev Programmed (p : Pics) : Prop := p.Wired slaveLine IRQ_OFFSET

theorem bootIcws_programmed (p : Pics) :
    Programmed (bootIcws p) ∧ (bootIcws p).requests = 0#16 ∧ (bootIcws p).masks = 0#16 := by
  have hzero : (0#8 ++ 0#8 : BitVec 16) = 0#16 := by decide
  refine ⟨⟨⟨rfl, rfl, rfl⟩, ⟨rfl, rfl, rfl⟩, ?_, rfl, ?_, ?_⟩, hzero, hzero⟩
  · show ∀ i : Fin 8, BIT_SLAVE[i.val] = decide (i = slaveLine)
    decide
  · show (0#8)[slaveLine.val] = false
    decide
  · intro irq
    rcases Pics.irq_cases irq with ⟨i, rfl⟩ | ⟨i, rfl⟩
    · rw [Pics.chip_ofMaster, Pics.input_ofMaster]
      show (IRQ_OFFSET &&& 0xF8#8) ||| BitVec.ofNat 8 i = IRQ_OFFSET + BitVec.ofNat 8 i
      revert i
      decide
    · rw [Pics.chip_ofSlave, Pics.input_ofSlave]
      show ((IRQ_OFFSET + 8#8) &&& 0xF8#8) ||| BitVec.ofNat 8 i =
        IRQ_OFFSET + BitVec.ofNat 8 (i + 8)
      revert i
      decide

/-- The same requests and masks. -/
def SameLines (p q : Pics) : Prop := q.requests = p.requests ∧ q.masks = p.masks

theorem SameLines.trans {p q r : Pics} (h : SameLines p q) (h' : SameLines q r) : SameLines p r :=
  ⟨h'.1.trans h.1, h'.2.trans h.2⟩

/-- A command to a chip, when it begins no initialization. -/
theorem outb_command {p : Pics} {port : BitVec 16} {v : BitVec 8} (h : Programmed p)
    (hport : port = PIC1_CMD ∨ port = PIC2_CMD) (hv : I8259.Initializes v = false) :
    Programmed (picsOutb p port v) ∧ SameLines p (picsOutb p port v) := by
  rcases hport with rfl | rfl
  · obtain ⟨hready, halike⟩ := h.master.writeCommand hv
    have hwired := h.alike (q := { p with master := p.master.writeCommand v }) hready h.slave
      halike ⟨rfl, rfl, rfl, rfl⟩
    exact ⟨hwired.1, hwired.2.2, hwired.2.1⟩
  · obtain ⟨hready, halike⟩ := h.slave.writeCommand hv
    have hwired := h.alike (q := { p with slave := p.slave.writeCommand v }) h.master hready
      ⟨rfl, rfl, rfl, rfl⟩ halike
    exact ⟨hwired.1, hwired.2.2, hwired.2.1⟩

/-- The bytes that `bootasm.S` loads begin no initialization. -/
structure LoadsCommands (mem : ℕ → BitVec 8) : Prop where
  setMask : I8259.Initializes (mem (OCW3_ASM OCW3_SET_MASK)) = false
  readIrr : I8259.Initializes (mem (OCW3_ASM OCW3_READ_IRR)) = false

theorem bootPics_programmed {mem : ℕ → BitVec 8} (hmem : LoadsCommands mem) (p : Pics) :
    Programmed (bootPics mem p) ∧ (bootPics mem p).requests = 0#16 ∧
      (bootPics mem p).masks = 0#16 := by
  obtain ⟨h, hrequests, hmasks⟩ := bootIcws_programmed p
  obtain ⟨h, hsame₁⟩ := outb_command h (Or.inl rfl) hmem.setMask
  obtain ⟨h, hsame₂⟩ := outb_command h (Or.inr rfl) hmem.setMask
  obtain ⟨h, hsame₃⟩ := outb_command h (Or.inl rfl) hmem.readIrr
  obtain ⟨h, hsame₄⟩ := outb_command h (Or.inr rfl) hmem.readIrr
  have hsame := ((hsame₁.trans hsame₂).trans hsame₃).trans hsame₄
  exact ⟨h, hsame.1.trans hrequests, hsame.2.trans hmasks⟩

/-- The chips expect another initialization word if a byte begins one. -/
theorem bootPics_ready_iff (mem : ℕ → BitVec 8) (p : Pics) :
    Programmed (bootPics mem p) ↔ LoadsCommands mem := by
  refine ⟨fun h => ?_, fun h => (bootPics_programmed h p).1⟩
  have hstage := h.master.stage
  have hmaster : (bootPics mem p).master = ((bootIcws p).master.writeCommand
      (mem (OCW3_ASM OCW3_SET_MASK))).writeCommand (mem (OCW3_ASM OCW3_READ_IRR)) := rfl
  rw [hmaster, I8259.writeCommand_stage, I8259.writeCommand_stage] at hstage
  cases hset : I8259.Initializes (mem (OCW3_ASM OCW3_SET_MASK)) with
  | true => simp [hset] at hstage
  | false =>
    cases hread : I8259.Initializes (mem (OCW3_ASM OCW3_READ_IRR)) with
    | true => simp [hread] at hstage
    | false => exact ⟨hset, hread⟩

/-! ## The functions of the driver -/

theorem mask_halves (mask : BitVec 16) :
    ((mask >>> 8).setWidth 8 ++ mask.setWidth 8 : BitVec 16) = mask := by
  refine BitVec.eq_of_getLsbD_eq fun i hi => ?_
  rw [BitVec.getLsbD_append]
  split
  · simp [*]
  · simp [show 8 + (i - 8) = i by omega, show i - 8 < 8 by omega]

namespace Pic
variable {s : Pic}

theorem picSetmask_spec (h : Programmed s.chips) (mask : BitVec 16) :
    Programmed (s.picSetmask mask).chips ∧ (s.picSetmask mask).chips.masks = mask ∧
      (s.picSetmask mask).chips.requests = s.chips.requests := by
  obtain ⟨hwired, hmasks, hrequests⟩ :=
    h.writeMasks ((mask >>> 8).setWidth 8) (mask.setWidth 8)
  exact ⟨hwired, hmasks.trans (mask_halves mask), hrequests⟩

theorem picSendEoi_spec (h : Programmed s.chips) (irq : ℕ) :
    Programmed (s.picSendEoi irq).chips ∧ SameLines s.chips (s.picSendEoi irq).chips := by
  obtain ⟨hchips, hsame⟩ :
      Programmed (if 8 ≤ irq then picsOutb s.chips PIC2_CMD 0x20#8 else s.chips) ∧
        SameLines s.chips (if 8 ≤ irq then picsOutb s.chips PIC2_CMD 0x20#8 else s.chips) := by
    split
    · exact outb_command h (Or.inr rfl) (by decide)
    · exact ⟨h, rfl, rfl⟩
  obtain ⟨hend, hsame'⟩ := outb_command (v := 0x20#8) hchips (Or.inl rfl) (by decide)
  exact ⟨hend, hsame.trans hsame'⟩

end Pic

/-! ## Sixteen latches -/

/-- A device makes a request, the kernel sets the mask, or the processor is given a number. -/
inductive IrqEvent
  | raised (irq : Fin 16)
  | masked (mask : BitVec 16)
  | taken (number : BitVec 8)
deriving DecidableEq

structure Lines where
  due : BitVec 16
  masks : BitVec 16

namespace Lines

def after (l : Lines) : IrqEvent → Lines
  | .raised irq => { l with due := l.due ||| BitVec.twoPow 16 irq }
  | .masked mask => { l with masks := mask }
  | .taken number => { l with due := l.due &&& ~~~BitVec.twoPow 16 (number - IRQ_OFFSET).toNat }

/-- The lines behind a number of events, the oldest first. -/
def of (log : List IrqEvent) : Lines := log.foldl after ⟨0#16, 0#16⟩

/-- A request that was not taken since it was made, and that the mask lets through. -/
def Deliverable (l : Lines) (irq : Fin 16) : Prop :=
  Pics.Deliverable slaveLine l.due l.masks irq

theorem of_concat (log : List IrqEvent) (e : IrqEvent) : of (log ++ [e]) = (of log).after e :=
  List.foldl_append

end Lines

/-- The driver, and what has happened. -/
structure Irqs extends Pic where
  log : List IrqEvent

/-- Devices make requests, the kernel calls the driver, and the processor takes an interrupt. -/
inductive IrqOp
  | raise (irq : Fin 16)
  | setmask (mask : BitVec 16)
  | enable (irq : ℕ)
  | sendEoi (irq : ℕ)
  | interrupt

namespace Irqs
variable {s t : Irqs}

def boot (mem : ℕ → BitVec 8) (p : Pics) : Irqs := ⟨Pic.boot mem p, []⟩

def exec (s : Irqs) : IrqOp → Option Irqs
  | .raise irq =>
    some { s with chips := s.chips.request irq, log := s.log ++ [.raised irq] }
  | .setmask mask => some ⟨s.toPic.picSetmask mask, s.log ++ [.masked mask]⟩
  | .enable irq =>
    some ⟨s.toPic.picEnable irq, s.log ++ [.masked (s.toPic.picEnable irq).irqMask]⟩
  | .sendEoi irq => some { s with toPic := s.toPic.picSendEoi irq }
  | .interrupt =>
    if s.chips.int slaveLine then
      (s.chips.inta slaveLine).map fun r =>
        { s with chips := r.2, log := s.log ++ [.taken r.1] }
    else none

/-- No device is at the input of the slave. -/
def Device (_ : Irqs) : IrqOp → Prop
  | .raise irq => irq ≠ IRQ_SLAVE
  | _ => True

instance (s : Irqs) : ∀ op, Decidable (s.Device op)
  | .raise irq => inferInstanceAs (Decidable (irq ≠ IRQ_SLAVE))
  | .setmask _ | .enable _ | .sendEoi _ | .interrupt => isTrue trivial

/-- Every number that the processor was given is that of a request which was due. -/
def Taken (log : List IrqEvent) : Prop :=
  ∀ pre number, pre ++ [.taken number] <+: log →
    ∃ irq : Fin 16, number = IRQ_OFFSET + BitVec.ofNat 8 irq ∧ (Lines.of pre).Deliverable irq

structure Inv (s : Irqs) : Prop where
  chips : Programmed s.chips
  due : s.chips.requests = (Lines.of s.log).due
  masks : s.chips.masks = (Lines.of s.log).masks
  taken : Taken s.log

theorem Taken.concat {log : List IrqEvent} (h : Taken log) {e : IrqEvent}
    (he : ∀ number, e = .taken number → ∃ irq : Fin 16,
      number = IRQ_OFFSET + BitVec.ofNat 8 irq ∧ (Lines.of log).Deliverable irq) :
    Taken (log ++ [e]) := by
  intro pre number hpre
  rcases List.prefix_concat_iff.mp hpre with heq | hpre
  · obtain ⟨rfl, hlast⟩ := List.append_inj' heq rfl
    exact he number (List.cons.inj hlast).1.symm
  · exact h pre number hpre

theorem boot_inv {mem : ℕ → BitVec 8} (hmem : LoadsCommands mem) (p : Pics) :
    (boot mem p).Inv := by
  obtain ⟨h, hrequests, hmasks⟩ := bootPics_programmed hmem p
  refine ⟨h, hrequests, hmasks, fun pre number hpre => ?_⟩
  exact absurd (List.prefix_nil.mp hpre) (List.append_ne_nil_of_right_ne_nil _ (by simp))

theorem Inv.raise (h : s.Inv) {irq : Fin 16} (hirq : irq ≠ IRQ_SLAVE) :
    Inv { s with chips := s.chips.request irq, log := s.log ++ [.raised irq] } := by
  obtain ⟨hchips, hmasks, hrequests⟩ := h.chips.request fun heq => hirq (Fin.ext heq)
  refine ⟨hchips, ?_, ?_, h.taken.concat fun number heq => IrqEvent.noConfusion heq⟩
  · refine BitVec.eq_of_getElem_eq fun i hi => ?_
    rw [Lines.of_concat, hrequests ⟨i, hi⟩, h.due]
    simp [Lines.after, Fin.ext_iff, eq_comm]
  · rw [Lines.of_concat]
    exact hmasks.trans h.masks

theorem Inv.setmask (h : s.Inv) (mask : BitVec 16) :
    Inv ⟨s.toPic.picSetmask mask, s.log ++ [.masked mask]⟩ := by
  obtain ⟨hchips, hmasks, hrequests⟩ := Pic.picSetmask_spec h.chips mask
  refine ⟨hchips, ?_, ?_, h.taken.concat fun number heq => IrqEvent.noConfusion heq⟩
  · rw [Lines.of_concat]
    exact hrequests.trans h.due
  · rw [Lines.of_concat]
    exact hmasks

theorem Inv.sendEoi (h : s.Inv) (irq : ℕ) : Inv { s with toPic := s.toPic.picSendEoi irq } := by
  obtain ⟨hchips, hrequests, hmasks⟩ := Pic.picSendEoi_spec h.chips irq
  exact ⟨hchips, hrequests.trans h.due, hmasks.trans h.masks, h.taken⟩

/-- An interrupt that the chips ask for is taken, and it is a due one. -/
theorem Inv.interrupt (h : s.Inv) (hint : s.chips.int slaveLine = true) :
    ∃ (irq : Fin 16) (t : Irqs), s.exec .interrupt = some t ∧ t.Inv ∧
      (Lines.of s.log).Deliverable irq ∧
      t.log = s.log ++ [.taken (IRQ_OFFSET + BitVec.ofNat 8 irq)] := by
  obtain ⟨irq, q, hinta, hdeliverable, hq, hmasks, hrequests⟩ := h.chips.inta hint
  rw [h.due, h.masks] at hdeliverable
  refine ⟨irq, _, by rw [exec, if_pos hint, hinta, Option.map_some], ⟨hq, ?_, ?_, ?_⟩,
    hdeliverable, rfl⟩
  · refine BitVec.eq_of_getElem_eq fun i hi => ?_
    have hirq : (IRQ_OFFSET + BitVec.ofNat 8 irq - IRQ_OFFSET).toNat = irq.val := by
      simp only [IRQ_OFFSET]
      bv_omega
    rw [Lines.of_concat, hrequests ⟨i, hi⟩, h.due, Lines.after, hirq]
    simp [Fin.ext_iff, eq_comm]
  · rw [Lines.of_concat]
    exact hmasks.trans h.masks
  · refine h.taken.concat fun number heq => ⟨irq, ?_, hdeliverable⟩
    exact (IrqEvent.taken.inj heq).symm

theorem Inv.exec (h : s.Inv) {op : IrqOp} (hop : s.Device op) (heq : s.exec op = some t) :
    t.Inv := by
  cases op with
  | raise irq =>
    obtain rfl := Option.some.inj heq
    exact h.raise hop
  | setmask mask =>
    obtain rfl := Option.some.inj heq
    exact h.setmask mask
  | enable irq =>
    obtain rfl := Option.some.inj heq
    exact h.setmask _
  | sendEoi irq =>
    obtain rfl := Option.some.inj heq
    exact h.sendEoi irq
  | interrupt =>
    have hint : s.chips.int slaveLine = true := by
      by_contra hnone
      rw [Irqs.exec, if_neg hnone] at heq
      exact absurd heq (by simp)
    obtain ⟨irq, u, hu, hinv, -⟩ := h.interrupt hint
    obtain rfl := Option.some.inj (hu.symm.trans heq)
    exact hinv

/-- In every run behind `bootasm.S`, the processor is given the numbers of requests that were due,
each request once, and it is interrupted for as long as one is due that the mask lets through. -/
theorem pics_deliver {mem : ℕ → BitVec 8} {p : Pics} (hmem : LoadsCommands mem)
    (h : Run exec Device (boot mem p) s) : Taken s.log ∧
      (s.chips.int slaveLine = true ↔ ∃ irq, (Lines.of s.log).Deliverable irq) ∧
      (s.chips.int slaveLine = true → ∃ t, s.exec .interrupt = some t) := by
  have hs : s.Inv := h.invariant (boot_inv hmem p) fun _ _ _ hu hop heq => hu.exec hop heq
  refine ⟨hs.taken, ?_, fun hint => ?_⟩
  · rw [hs.chips.int_iff, hs.due, hs.masks]
    rfl
  · obtain ⟨irq, t, ht, -⟩ := hs.interrupt hint
    exact ⟨t, ht⟩

/-- A chip as it may be before `bootasm.S`: it waits for nothing, and has level 3 in service. -/
def sampleChip : I8259 where
  stage := .ready
  single := true
  expectsIcw4 := false
  base := 0x08#8
  slaves := 0#8
  autoEoi := false
  rotates := false
  specialMask := false
  lowest := Fin.last 7
  imr := 0xB8#8
  irr := 0x01#8
  isr := 0x08#8

/-- With the bytes of a BIOS: the keyboard, which is enabled, goes before the disk, which is not
enabled yet. -/
theorem pics_deliver_disk : ∃ s : Irqs,
    s.log = [.masked 0xFFFD#16, .masked 0xFFF9#16, .raised 14, .raised 1, .taken 0x21#8,
      .masked 0xBFF9#16, .taken 0x2E#8] ∧
    Taken s.log ∧
    (s.chips.int slaveLine = true ↔ ∃ irq, (Lines.of s.log).Deliverable irq) ∧
    (s.chips.int slaveLine = true → ∃ t, s.exec .interrupt = some t) := by
  let mem : ℕ → BitVec 8 := fun a => if a = 0x68 then 0x6E#8 else 0#8
  let ops : List IrqOp := [.enable 1, .enable 2, .raise 14, .raise 1, .interrupt, .sendEoi 1,
    .enable 14, .interrupt]
  have hmem : LoadsCommands mem := ⟨by decide, by decide⟩
  have hallowed : Allowed exec Device ops (boot mem ⟨sampleChip, sampleChip⟩) := by
    decide +kernel
  have hlog : (ops.foldlM exec (boot mem ⟨sampleChip, sampleChip⟩)).map log =
      some [.masked 0xFFFD#16, .masked 0xFFF9#16, .raised 14, .raised 1, .taken 0x21#8,
        .masked 0xBFF9#16, .taken 0x2E#8] := by
    decide +kernel
  obtain ⟨s, hs, heq⟩ := Option.map_eq_some_iff.mp hlog
  exact ⟨s, heq, pics_deliver hmem (Run.of_foldlM hallowed hs)⟩

end Irqs
end Zonix
