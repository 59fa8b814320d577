import Zonix.Drivers.Kdb
import Zonix.Drivers.Pic
import Zonix.Cons.ShellTheorems

/-!
# From the keyboard to the shell: `kern/trap/trap.c`

The gates leave interrupts enabled, so a call of `trap` may itself be interrupted anywhere; it goes
on in steps, and an interrupt may come between any two of them. What happens is any order of scan
codes, requests of other devices, interrupts and steps.

No scan code is lost and none is read twice, however the calls are nested: `scan_codes_exact`. The
characters come to the shell in the order of the keys when no interrupt of the keyboard gets in
between reading a key and handling it, and then the shell executes the lines that were typed:
`keyboard_to_shell`.
-/

namespace Zonix
open Lib

/-! ## `trap` -/

/-- Where a call of `trap` for an interrupt request is. -/
inductive TrapAt
  | irqTimer
  | kdbStatus
  | kdbData
  | irqKbd (c : BitVec 8)
  | command
  | sendEoi
deriving DecidableEq

structure TrapCall where
  trapno : BitVec 8
  place : TrapAt
deriving DecidableEq

namespace TrapCall

/-- The call is in `kdb_getc`, and has not read the scan code. -/
def reads (call : TrapCall) : Bool := call.place = .kdbStatus ∨ call.place = .kdbData

/-- The character that the call has read and not handled yet. -/
def inHand (call : TrapCall) : Option (BitVec 8) :=
  match call.place with
  | .irqKbd c => some c
  | _ => none

theorem filterMap_irqKbd (trapno c : BitVec 8) (calls : List TrapCall) :
    (⟨trapno, .irqKbd c⟩ :: calls).filterMap inHand = c :: calls.filterMap inHand := rfl

theorem countP_irqKbd (trapno c : BitVec 8) (calls : List TrapCall) :
    (⟨trapno, .irqKbd c⟩ :: calls).countP reads = calls.countP reads :=
  List.countP_cons_of_neg Bool.false_ne_true

end TrapCall

/-- The `switch` of `trap`; the page fault is not among the numbers of the controllers. -/
def trapSwitch (trapno : BitVec 8) : TrapAt :=
  if trapno = IRQ_OFFSET + BitVec.ofNat 8 IRQ_TIMER then .irqTimer
  else if trapno = IRQ_OFFSET + BitVec.ofNat 8 IRQ_KBD then .kdbStatus
  else .sendEoi

/-- The keyboard, the controllers, the calls of `trap` that have not returned, the innermost first,
and the session; and what the keyboard has sent, what was read, and the characters that `irq_kbd`
was at. -/
structure Keyed where
  kbc : I8042
  pic : Pic
  interrupts : Bool
  ticks : BitVec 64
  calls : List TrapCall
  session : Session
  sent : List (BitVec 8)
  read : List (BitVec 8)
  handed : List (BitVec 8)

namespace Keyed
variable {s t : Keyed}

/-- The keyboard sends a scan code, the controller takes it, another device makes a request, the
kernel calls `pic_enable` or sets the interrupt flag; the processor takes an interrupt, or goes on
in the innermost call of `trap`. -/
inductive Event
  | send (code : BitVec 8)
  | load
  | raise (irq : Fin 16)
  | enable (irq : ℕ)
  | setFlag (b : Bool)
  | interrupt
  | step

def boot (mem : ℕ → BitVec 8) (p : Pics) (kbc : I8042) : Keyed where
  kbc := kbc
  pic := Pic.boot mem p
  interrupts := false
  ticks := 0#64
  calls := []
  session := Session.boot
  sent := kbc.wire
  read := []
  handed := []

/-- A call of `trap` goes on; `calls` are those outside of it. -/
def stepCall (s : Keyed) (call : TrapCall) (calls : List TrapCall) : Option Keyed :=
  match call.place with
  | .irqTimer =>
    some { s with ticks := s.ticks + 1#64, calls := ⟨call.trapno, .sendEoi⟩ :: calls }
  | .kdbStatus =>
    if Zonix.kdbStatus s.kbc then some { s with calls := ⟨call.trapno, .kdbData⟩ :: calls }
    else some { s with calls := ⟨call.trapno, .irqKbd ((-1#32).setWidth 8)⟩ :: calls }
  | .kdbData =>
    some { s with
      kbc := s.kbc.inbData.2
      calls := ⟨call.trapno, .irqKbd (keyOf s.kbc.inbData.1)⟩ :: calls
      read := s.read ++ [s.kbc.inbData.1] }
  | .irqKbd c => do
    let session ← s.session.exec (.key c)
    -- a command was called, and has not returned
    let runs := session.shell.running.length ≠ s.session.shell.running.length
    some { s with
      session := session
      calls := ⟨call.trapno, if runs then .command else .sendEoi⟩ :: calls
      handed := s.handed ++ [c] }
  | .command => do
    let session ← s.session.exec .ret
    some { s with session := session, calls := ⟨call.trapno, .sendEoi⟩ :: calls }
  | .sendEoi =>
    let pic :=
      if IRQ_OFFSET ≤ call.trapno ∧ call.trapno < IRQ_OFFSET + 16#8 then
        s.pic.picSendEoi (call.trapno - IRQ_OFFSET).toNat
      else s.pic
    -- `iret`: interrupts were enabled
    some { s with pic := pic, calls := calls, interrupts := true }

def exec (s : Keyed) : Event → Option Keyed
  | .send code => some { s with kbc := s.kbc.send code, sent := s.sent ++ [code] }
  | .load => do
    let kbc ← s.kbc.load
    some { s with kbc := kbc, pic := { s.pic with chips := s.pic.chips.request IRQ_KBD } }
  | .raise irq => some { s with pic := { s.pic with chips := s.pic.chips.request irq } }
  | .enable irq => some { s with pic := s.pic.picEnable irq }
  | .setFlag b => some { s with interrupts := b }
  | .interrupt =>
    if s.interrupts ∧ s.pic.chips.int slaveLine then
      (s.pic.chips.inta slaveLine).map fun r =>
        { s with
          pic := { s.pic with chips := r.2 }
          calls := ⟨r.1, trapSwitch r.1⟩ :: s.calls }
    else none
  | .step =>
    match s.calls with
    | [] => none
    | call :: calls => s.stepCall call calls

/-- When nothing comes in between, the steps of `kdb_getc` are the function. -/
theorem stepCall_kdbGetc (s : Keyed) (trapno : BitVec 8) (calls : List TrapCall) :
    (Zonix.kdbStatus s.kbc = false → s.stepCall ⟨trapno, .kdbStatus⟩ calls = some { s with
      kbc := (kdbGetc s.kbc).2
      calls := ⟨trapno, .irqKbd ((kdbGetc s.kbc).1.setWidth 8)⟩ :: calls }) ∧
    (Zonix.kdbStatus s.kbc = true →
      ((s.stepCall ⟨trapno, .kdbStatus⟩ calls).bind fun t =>
        t.stepCall ⟨trapno, .kdbData⟩ calls) = some { s with
          kbc := (kdbGetc s.kbc).2
          calls := ⟨trapno, .irqKbd ((kdbGetc s.kbc).1.setWidth 8)⟩ :: calls
          read := s.read ++ [s.kbc.data] }) := by
  constructor
  · intro hstatus
    simp only [stepCall, kdbGetc, hstatus]
    rfl
  · intro hstatus
    simp only [stepCall, kdbGetc, hstatus, if_true, Option.bind_some]
    rfl

/-- Nothing else is at the inputs of the keyboard and of the slave. -/
def Device (_ : Keyed) : Event → Prop
  | .raise irq => irq ≠ IRQ_KBD ∧ irq ≠ IRQ_SLAVE
  | _ => True

theorem exec_interrupt (heq : s.exec .interrupt = some t) :
    s.pic.chips.int slaveLine = true ∧ ∃ r, s.pic.chips.inta slaveLine = some r ∧
      t = { s with
        pic := { s.pic with chips := r.2 }
        calls := ⟨r.1, trapSwitch r.1⟩ :: s.calls } := by
  unfold exec at heq
  split_ifs at heq with hint
  obtain ⟨r, hr, rfl⟩ := Option.map_eq_some_iff.mp heq
  exact ⟨hint.2, r, hr, rfl⟩

theorem exec_step (heq : s.exec .step = some t) :
    ∃ call calls, s.calls = call :: calls ∧ s.stepCall call calls = some t := by
  cases hcalls : s.calls with
  | nil =>
    rw [exec, hcalls] at heq
    exact absurd heq (by simp)
  | cons call calls =>
    rw [exec, hcalls] at heq
    exact ⟨call, calls, rfl, heq⟩

/-! ## Every scan code is read once -/

/-- A scan code in the output buffer is asked for, or some call is about to read it: never both, and
never without one. -/
structure Inv (s : Keyed) : Prop where
  chips : Programmed s.pic.chips
  masks : s.pic.chips.masks = s.pic.irqMask ∨ s.pic.chips.masks = 0#16
  codes : s.read ++ (s.kbc.buffered ++ s.kbc.wire) = s.sent
  asked : s.calls.countP TrapCall.reads + s.pic.chips.requests[IRQ_KBD.val].toNat =
    s.kbc.full.toNat
  hands : (s.handed ++ s.calls.filterMap TrapCall.inHand).Perm (s.read.map keyOf)

/-- The controllers have nothing for the processor, the keyboard has nothing for the controller, and
no call is left; `kbd_init` was called. -/
structure Idle (s : Keyed) : Prop where
  wire : s.kbc.wire = []
  calls : s.calls = []
  interrupt : s.pic.chips.int slaveLine = false
  enabled : s.pic.irqMask[IRQ_KBD.val] = false

instance (s : Keyed) : Decidable s.Idle :=
  decidable_of_iff (s.kbc.wire = [] ∧ s.calls = [] ∧ s.pic.chips.int slaveLine = false ∧
    s.pic.irqMask[IRQ_KBD.val] = false)
    ⟨fun ⟨hwire, hcalls, hint, hmask⟩ => ⟨hwire, hcalls, hint, hmask⟩,
      fun h => ⟨h.wire, h.calls, h.interrupt, h.enabled⟩⟩

theorem boot_inv {mem : ℕ → BitVec 8} {kbc : I8042} (hmem : LoadsCommands mem)
    (hkbc : kbc.full = false) (p : Pics) : (boot mem p kbc).Inv := by
  obtain ⟨h, hrequests, hmasks⟩ := bootPics_programmed hmem p
  have hempty : kbc.buffered = [] := by
    rw [I8042.buffered, hkbc]
    rfl
  refine ⟨h, Or.inr hmasks, ?_, ?_, List.Perm.nil⟩
  · show [] ++ (kbc.buffered ++ kbc.wire) = kbc.wire
    rw [hempty, List.nil_append, List.nil_append]
  · show 0 + (bootPics mem p).requests[IRQ_KBD.val].toNat = kbc.full.toNat
    rw [hrequests, hkbc]
    rfl

theorem Inv.setPic (h : s.Inv) {pic : Pic} (hchips : Programmed pic.chips)
    (hmasks : pic.chips.masks = pic.irqMask ∨ pic.chips.masks = 0#16)
    (hasked : pic.chips.requests[IRQ_KBD.val] = s.pic.chips.requests[IRQ_KBD.val]) :
    Inv { s with pic := pic } :=
  ⟨hchips, hmasks, h.codes, by rw [← h.asked, ← hasked], h.hands⟩

/-- The request of another device is not that of the keyboard. -/
theorem Inv.raise (h : s.Inv) {irq : Fin 16} (hkbd : irq ≠ IRQ_KBD) (hslave : irq ≠ IRQ_SLAVE) :
    Inv { s with pic := { s.pic with chips := s.pic.chips.request irq } } := by
  obtain ⟨hchips, hmasks, hrequests⟩ := h.chips.request fun heq => hslave (Fin.ext heq)
  refine h.setPic hchips ?_ ?_
  · rw [hmasks]
    exact h.masks
  · rw [hrequests IRQ_KBD, decide_eq_false (Ne.symm hkbd), Bool.or_false]

theorem Inv.enable (h : s.Inv) (irq : ℕ) : Inv { s with pic := s.pic.picEnable irq } := by
  obtain ⟨hchips, hmasks, hrequests⟩ :=
    Pic.picSetmask_spec h.chips (s.pic.irqMask &&& ~~~(1#16 <<< irq))
  refine h.setPic hchips (Or.inl hmasks) ?_
  rw [Pic.picEnable, hrequests]

theorem Inv.sendEoi (h : s.Inv) (irq : ℕ) : Inv { s with pic := s.pic.picSendEoi irq } := by
  obtain ⟨hchips, hrequests, hmasks⟩ := Pic.picSendEoi_spec h.chips irq
  refine h.setPic hchips ?_ (by rw [hrequests])
  rw [hmasks]
  exact h.masks

/-- A scan code that gets into the output buffer is asked for. -/
theorem Inv.load (h : s.Inv) {kbc : I8042} (hload : s.kbc.load = some kbc) :
    Inv { s with
      kbc := kbc
      pic := { s.pic with chips := s.pic.chips.request IRQ_KBD } } := by
  obtain ⟨hempty, hfull, hcodes⟩ := I8042.load_eq hload
  have hslave : IRQ_KBD.val ≠ slaveLine.val := by decide
  obtain ⟨hchips, hmasks, hrequests⟩ := h.chips.request hslave
  have hasked := h.asked
  rw [hempty] at hasked
  refine ⟨hchips, ?_, ?_, ?_, h.hands⟩
  · show _ = s.pic.irqMask ∨ _
    rw [hmasks]
    exact h.masks
  · rw [hcodes]
    exact h.codes
  · rw [hrequests IRQ_KBD, decide_eq_true rfl, Bool.or_true, hfull]
    simp only [Bool.toNat_false, Bool.toNat_true] at hasked ⊢
    omega

/-- What the innermost call is about does not matter, as far as it neither reads nor has read. -/
theorem Inv.setCalls (h : s.Inv) {calls : List TrapCall}
    (hreads : calls.countP TrapCall.reads = s.calls.countP TrapCall.reads)
    (hhands : calls.filterMap TrapCall.inHand = s.calls.filterMap TrapCall.inHand)
    (interrupts : Bool) (ticks : BitVec 64) (session : Session) :
    Inv { s with
      calls := calls, interrupts := interrupts, ticks := ticks, session := session } :=
  ⟨h.chips, h.masks, h.codes, by rw [hreads]; exact h.asked, by rw [hhands]; exact h.hands⟩

/-- The call that an interrupt begins reads a scan code when it is the keyboard's. -/
theorem trapSwitch_eq (irq : Fin 16) : trapSwitch (IRQ_OFFSET + BitVec.ofNat 8 irq) =
    if irq = IRQ_TIMER then .irqTimer else if irq = IRQ_KBD then .kdbStatus else .sendEoi := by
  revert irq
  decide

theorem Inv.interrupt (h : s.Inv) (hint : s.pic.chips.int slaveLine = true) :
    ∃ (irq : Fin 16) (q : Pics),
      s.pic.chips.inta slaveLine = some (IRQ_OFFSET + BitVec.ofNat 8 irq, q) ∧
      (irq = IRQ_KBD → s.pic.chips.requests[IRQ_KBD.val] = true) ∧
      Inv { s with
        pic := { s.pic with chips := q }
        calls := ⟨IRQ_OFFSET + BitVec.ofNat 8 irq,
          trapSwitch (IRQ_OFFSET + BitVec.ofNat 8 irq)⟩ :: s.calls } := by
  obtain ⟨irq, q, hinta, ⟨hdue, -, -⟩, hq, hmasks, hrequests⟩ := h.chips.inta hint
  refine ⟨irq, q, hinta, fun heq => heq ▸ hdue, hq, ?_, h.codes, ?_, ?_⟩
  · show _ = s.pic.irqMask ∨ _
    rw [hmasks]
    exact h.masks
  · have hasked := h.asked
    rw [hrequests IRQ_KBD, List.countP_cons, ← hasked, trapSwitch_eq]
    by_cases hkbd : irq = IRQ_KBD
    · subst hkbd
      rw [hdue]
      simp [TrapCall.reads, IRQ_KBD, IRQ_TIMER]
    · by_cases htimer : irq = IRQ_TIMER
      · simp [TrapCall.reads, htimer, IRQ_KBD, IRQ_TIMER]
      · simp [TrapCall.reads, htimer, hkbd, Ne.symm hkbd]
  · have hnone : ∀ place : TrapAt, place = trapSwitch (IRQ_OFFSET + BitVec.ofNat 8 irq) →
        TrapCall.inHand ⟨IRQ_OFFSET + BitVec.ofNat 8 irq, place⟩ = none := by
      rintro place rfl
      rw [trapSwitch_eq]
      split_ifs <;> rfl
    rw [List.filterMap_cons_none (hnone _ rfl)]
    exact h.hands

/-- A call that is about to read has a scan code to read. -/
theorem Inv.full (h : s.Inv) {call : TrapCall} (hmem : call ∈ s.calls)
    (hreads : call.reads = true) : s.kbc.full = true ∧
      s.calls.countP TrapCall.reads = 1 ∧ s.pic.chips.requests[IRQ_KBD.val] = false := by
  have hpos : 0 < s.calls.countP TrapCall.reads := List.countP_pos_iff.mpr ⟨call, hmem, hreads⟩
  have hasked := h.asked
  have hle := Bool.toNat_le s.kbc.full
  refine ⟨?_, by omega, ?_⟩
  · cases hfull : s.kbc.full with
    | true => rfl
    | false =>
      rw [hfull, Bool.toNat_false] at hasked
      omega
  · cases hdue : s.pic.chips.requests[IRQ_KBD.val] with
    | false => rfl
    | true =>
      rw [hdue, Bool.toNat_true] at hasked
      omega

theorem Inv.readData (h : s.Inv) {trapno : BitVec 8} {calls : List TrapCall}
    (hcalls : s.calls = ⟨trapno, .kdbData⟩ :: calls) :
    Inv { s with
      kbc := s.kbc.inbData.2
      calls := ⟨trapno, .irqKbd (keyOf s.kbc.inbData.1)⟩ :: calls
      read := s.read ++ [s.kbc.inbData.1] } := by
  obtain ⟨hfull, hcount, hdue⟩ := h.full (hcalls ▸ List.mem_cons_self) rfl
  refine ⟨h.chips, h.masks, ?_, ?_, ?_⟩
  · rw [List.append_assoc, I8042.inbData_buffered hfull]
    exact h.codes
  · rw [hcalls, List.countP_cons_of_pos rfl] at hcount
    rw [TrapCall.countP_irqKbd, hdue, I8042.inbData_full]
    simp only [Bool.toNat_false]
    omega
  · have hhands := h.hands
    rw [hcalls, List.filterMap_cons_none rfl] at hhands
    rw [TrapCall.filterMap_irqKbd, List.map_append]
    refine List.perm_middle.trans ?_
    exact (hhands.cons _).trans (List.perm_append_singleton _ _).symm

/-- A call goes on: what each step of `trap` does to the scan codes. -/
theorem Inv.stepCall (h : s.Inv) {call : TrapCall} {calls : List TrapCall}
    (hcalls : s.calls = call :: calls) (heq : s.stepCall call calls = some t) : t.Inv := by
  obtain ⟨trapno, place⟩ := call
  cases place with
  | irqTimer =>
    obtain rfl := Option.some.inj heq
    exact h.setCalls (by rw [hcalls]; rfl) (by rw [hcalls]; rfl) _ _ _
  | kdbStatus =>
    obtain ⟨hfull, -⟩ := h.full (hcalls ▸ List.mem_cons_self) rfl
    rw [Keyed.stepCall, I8042.kdbStatus_eq, hfull, if_pos rfl] at heq
    obtain rfl := Option.some.inj heq
    exact h.setCalls (by rw [hcalls]; rfl) (by rw [hcalls]; rfl) _ _ _
  | kdbData =>
    obtain rfl := Option.some.inj heq
    exact h.readData hcalls
  | irqKbd c =>
    obtain ⟨session, hsession, heq⟩ := Option.bind_eq_some_iff.mp heq
    obtain rfl := Option.some.inj heq
    refine ⟨h.chips, h.masks, h.codes, ?_, ?_⟩
    · have hasked := h.asked
      rw [hcalls] at hasked
      rw [← hasked]
      split_ifs <;> rfl
    · have hhands := h.hands
      rw [hcalls, TrapCall.filterMap_irqKbd] at hhands
      rw [List.append_assoc]
      split_ifs <;> exact hhands
  | command =>
    obtain ⟨session, hsession, heq⟩ := Option.bind_eq_some_iff.mp heq
    obtain rfl := Option.some.inj heq
    exact h.setCalls (by rw [hcalls]; rfl) (by rw [hcalls]; rfl) _ _ _
  | sendEoi =>
    obtain rfl := Option.some.inj heq
    split_ifs
    · exact (h.sendEoi _).setCalls (by rw [hcalls]; rfl) (by rw [hcalls]; rfl) _ _ _
    · exact h.setCalls (by rw [hcalls]; rfl) (by rw [hcalls]; rfl) _ _ _

theorem Inv.exec (h : s.Inv) {e : Event} (he : s.Device e) (heq : s.exec e = some t) : t.Inv := by
  cases e with
  | send code =>
    obtain rfl := Option.some.inj heq
    refine ⟨h.chips, h.masks, ?_, h.asked, h.hands⟩
    show s.read ++ (s.kbc.buffered ++ (s.kbc.wire ++ [code])) = s.sent ++ [code]
    rw [← h.codes]
    simp only [List.append_assoc]
  | load =>
    obtain ⟨kbc, hload, heq⟩ := Option.bind_eq_some_iff.mp heq
    obtain rfl := Option.some.inj heq
    exact h.load hload
  | raise irq =>
    obtain rfl := Option.some.inj heq
    exact h.raise he.1 he.2
  | enable irq =>
    obtain rfl := Option.some.inj heq
    exact h.enable irq
  | setFlag b =>
    obtain rfl := Option.some.inj heq
    exact h.setCalls rfl rfl _ _ _
  | interrupt =>
    obtain ⟨hint, r, hr, rfl⟩ := exec_interrupt heq
    obtain ⟨irq, q, hinta, -, hinv⟩ := h.interrupt hint
    obtain rfl := Option.some.inj (hinta.symm.trans hr)
    exact hinv
  | step =>
    obtain ⟨call, calls, hcalls, heq⟩ := exec_step heq
    exact h.stepCall hcalls heq

/-- When nothing goes on, there is nothing left in the output buffer. -/
theorem Inv.idle (h : s.Inv) (hidle : s.Idle) : s.read = s.sent ∧
    s.calls.filterMap TrapCall.inHand = [] := by
  have hmasks : s.pic.chips.masks[IRQ_KBD.val] = false := by
    rcases h.masks with heq | heq <;> rw [heq]
    · exact hidle.enabled
    · decide
  have hdue : s.pic.chips.requests[IRQ_KBD.val] = false := by
    by_contra hdue
    have hint := h.chips.int_iff.mpr
      ⟨IRQ_KBD, Bool.not_eq_false _ ▸ hdue, hmasks, fun hle => absurd hle (by decide)⟩
    rw [hidle.interrupt] at hint
    exact absurd hint (by decide)
  have hasked := h.asked
  rw [hidle.calls, hdue] at hasked
  have hfull : s.kbc.full = false := by
    cases hfull : s.kbc.full with
    | false => rfl
    | true =>
      rw [hfull] at hasked
      exact absurd hasked (by decide)
  have hcodes := h.codes
  rw [hidle.wire, I8042.buffered, hfull] at hcodes
  refine ⟨?_, by rw [hidle.calls]; rfl⟩
  rw [← hcodes]
  simp

/-- However the calls of `trap` are nested: every scan code is read once, in order, every character
is handed on or in hand, once, and when nothing goes on every scan code has been read. -/
theorem scan_codes_exact {mem : ℕ → BitVec 8} {p : Pics} {kbc : I8042}
    (hmem : LoadsCommands mem) (hkbc : kbc.full = false)
    (h : Run exec Device (boot mem p kbc) s) :
    s.read ++ (s.kbc.buffered ++ s.kbc.wire) = s.sent ∧
      (s.handed ++ s.calls.filterMap TrapCall.inHand).Perm (s.read.map keyOf) ∧
      (s.Idle → s.read = s.sent ∧ s.handed.Perm (s.sent.map keyOf)) := by
  have hboot : (boot mem p kbc).Inv := boot_inv hmem hkbc p
  have hs : s.Inv := h.invariant hboot fun _ _ _ hu he heq => hu.exec he heq
  refine ⟨hs.codes, hs.hands, fun hidle => ?_⟩
  obtain ⟨hall, hnone⟩ := hs.idle hidle
  have hhands := hs.hands
  rw [hnone, List.append_nil, hall] at hhands
  exact ⟨hall, hhands⟩

/-- The chips that `bootasm.S` finds. -/
def sampleChips : Pics := ⟨Irqs.sampleChip, Irqs.sampleChip⟩

/-- The bytes that `bootasm.S` loads, under a BIOS. -/
def sampleMem (a : ℕ) : BitVec 8 := if a = 0x68 then 0x6E#8 else 0#8

theorem sampleMem_loads : LoadsCommands sampleMem := ⟨by decide, by decide⟩

def sampleBoot : Keyed := boot sampleMem sampleChips ⟨[], 0x1C#8, 0#8⟩

/-- `kbd_init`, `pic_init` and `intr_enable` -/
def sampleInit : List Event := [.enable 1, .enable 2, .setFlag true]

instance (s : Keyed) : ∀ e, Decidable (s.Device e)
  | .raise irq => inferInstanceAs (Decidable (irq ≠ IRQ_KBD ∧ irq ≠ IRQ_SLAVE))
  | .send _ | .load | .enable _ | .setFlag _ | .interrupt | .step => isTrue trivial

/-- `p` and `s` are typed, and `s` is handled before `p`: its interrupt comes when `p` has been
read and has not been handled. -/
theorem scan_codes_exact_nested : ∃ s : Keyed,
    s.read = [0x19#8, 0x1F#8] ∧ s.handed = ['s', 'p'].map Format.ascii ∧ s.Idle ∧
    s.read ++ (s.kbc.buffered ++ s.kbc.wire) = s.sent ∧
    (s.handed ++ s.calls.filterMap TrapCall.inHand).Perm (s.read.map keyOf) ∧
    (s.Idle → s.read = s.sent ∧ s.handed.Perm (s.sent.map keyOf)) := by
  let key : List Event := [.load, .interrupt, .step, .step]
  let events : List Event := sampleInit ++ [.send 0x19#8] ++ key ++ [.send 0x1F#8] ++ key ++
    [.step, .step, .step, .step]
  have hallowed : Allowed exec Device events sampleBoot := by
    decide +kernel
  have hend : (events.foldlM exec sampleBoot).map (fun s => (s.read, s.handed, decide s.Idle)) =
      some ([0x19#8, 0x1F#8], ['s', 'p'].map Format.ascii, true) := by
    decide +kernel
  obtain ⟨s, hs, heq⟩ := Option.map_eq_some_iff.mp hend
  simp only [Prod.mk.injEq, decide_eq_true_iff] at heq
  obtain ⟨hread, hhanded, hidle⟩ := heq
  exact ⟨s, hread, hhanded, hidle,
    scan_codes_exact sampleMem_loads (by decide) (Run.of_foldlM hallowed hs)⟩

/-! ## The characters in their order -/

/-- Where a call gives the shell a key, or returns from a command, it is as in `Session.Quiet`. -/
def QuietAt (s : Keyed) : Option TrapAt → Prop
  | some (.irqKbd c) => s.session.Quiet (.key c)
  | some .command => s.session.Quiet .ret
  | _ => True

/-- No interrupt of the keyboard gets in between reading a key and handling it. -/
def Orderly (s : Keyed) : Event → Prop
  | .raise irq => irq ≠ IRQ_KBD ∧ irq ≠ IRQ_SLAVE
  | .interrupt => s.calls.filterMap TrapCall.inHand = [] ∨
      (s.pic.chips.inta slaveLine).map Prod.fst ≠ some (IRQ_OFFSET + BitVec.ofNat 8 IRQ_KBD)
  | .step => s.QuietAt (s.calls.head?.map TrapCall.place)
  | _ => True

instance (s : Keyed) : ∀ place, Decidable (s.QuietAt place)
  | some (.irqKbd c) => inferInstanceAs (Decidable (s.session.Quiet (.key c)))
  | some .command => inferInstanceAs (Decidable (s.session.Quiet .ret))
  | none | some .irqTimer | some .kdbStatus | some .kdbData | some .sendEoi => isTrue trivial

instance (s : Keyed) : ∀ e, Decidable (s.Orderly e)
  | .raise irq => inferInstanceAs (Decidable (irq ≠ IRQ_KBD ∧ irq ≠ IRQ_SLAVE))
  | .interrupt => instDecidableOr
  | .step => inferInstanceAs (Decidable (s.QuietAt (s.calls.head?.map TrapCall.place)))
  | .send _ | .load | .enable _ | .setFlag _ => isTrue trivial

/-- At most one key is being read or handled, and those before it were typed. -/
structure Ordered (s : Keyed) : Prop extends Inv s where
  session : s.session.Inv
  inOrder : s.handed ++ s.calls.filterMap TrapCall.inHand = s.read.map keyOf
  single : s.calls.countP TrapCall.reads + (s.calls.filterMap TrapCall.inHand).length ≤ 1
  typed : s.session.typed = s.handed.foldl lineEditor.type LineEditor.start

theorem Orderly.device {e : Event} (h : s.Orderly e) : s.Device e := by
  cases e <;> first | exact h | trivial

/-- What neither reads a key nor handles one. -/
theorem Ordered.keep (h : s.Ordered) (ht : t.Inv)
    (hreads : t.calls.countP TrapCall.reads = s.calls.countP TrapCall.reads)
    (hhands : t.calls.filterMap TrapCall.inHand = s.calls.filterMap TrapCall.inHand)
    (hsession : t.session.Inv) (htyped : t.session.typed = s.session.typed)
    (hhanded : t.handed = s.handed) (hread : t.read = s.read) : t.Ordered where
  toInv := ht
  session := hsession
  inOrder := by rw [hhanded, hhands, hread, h.inOrder]
  single := by rw [hreads, hhands]; exact h.single
  typed := by rw [htyped, hhanded, h.typed]

/-- A call that reads is the only one that has anything to do with a key. -/
theorem Ordered.none_inHand (h : s.Ordered) {call : TrapCall} (hmem : call ∈ s.calls)
    (hreads : call.reads = true) : s.calls.filterMap TrapCall.inHand = [] := by
  have hpos : 0 < s.calls.countP TrapCall.reads := List.countP_pos_iff.mpr ⟨call, hmem, hreads⟩
  have hsingle := h.single
  exact List.length_eq_zero_iff.mp (by omega)

/-- The interrupt of the keyboard is taken when no key is being handled. -/
theorem Ordered.interrupt (h : s.Ordered) (horderly : s.Orderly .interrupt)
    (heq : s.exec .interrupt = some t) (ht : t.Inv) : t.Ordered := by
  obtain ⟨hint, r, hr, rfl⟩ := exec_interrupt heq
  obtain ⟨irq, q, hinta, hdue, -⟩ := h.toInv.interrupt hint
  obtain rfl := Option.some.inj (hinta.symm.trans hr)
  have hhand : ∀ place : TrapAt, place = trapSwitch (IRQ_OFFSET + BitVec.ofNat 8 irq) →
      TrapCall.inHand ⟨IRQ_OFFSET + BitVec.ofNat 8 irq, place⟩ = none := by
    rintro place rfl
    rw [trapSwitch_eq]
    split_ifs <;> rfl
  by_cases hkbd : irq = IRQ_KBD
  · subst hkbd
    have hnone : s.calls.filterMap TrapCall.inHand = [] := by
      refine horderly.resolve_right fun hne => hne ?_
      rw [hinta, Option.map_some]
    have hcount : s.calls.countP TrapCall.reads = 0 := by
      have hasked := h.asked
      have hle := Bool.toNat_le s.kbc.full
      rw [hdue rfl, Bool.toNat_true] at hasked
      omega
    refine ⟨ht, h.session, ?_, ?_, h.typed⟩
    · rw [List.filterMap_cons_none (hhand _ rfl)]
      exact h.inOrder
    · rw [List.filterMap_cons_none (hhand _ rfl), hnone, List.countP_cons, hcount]
      split_ifs <;> simp
  · have hreads : TrapCall.reads ⟨IRQ_OFFSET + BitVec.ofNat 8 irq,
        trapSwitch (IRQ_OFFSET + BitVec.ofNat 8 irq)⟩ = false := by
      rw [trapSwitch_eq, if_neg hkbd]
      split_ifs <;> rfl
    refine h.keep ht ?_ (List.filterMap_cons_none (hhand _ rfl)) h.session rfl rfl rfl
    exact List.countP_cons_of_neg (by rw [hreads]; decide)

/-- `irq_kbd` types the character that it has in hand. -/
theorem Ordered.irqKbd (h : s.Ordered) {trapno c : BitVec 8} {calls : List TrapCall}
    (hcalls : s.calls = ⟨trapno, .irqKbd c⟩ :: calls) (hquiet : s.session.Quiet (.key c))
    (heq : s.stepCall ⟨trapno, .irqKbd c⟩ calls = some t) (ht : t.Inv) : t.Ordered := by
  obtain ⟨session, hsession, heq⟩ := Option.bind_eq_some_iff.mp heq
  obtain rfl := Option.some.inj heq
  have hinOrder := h.inOrder
  have hsingle := h.single
  rw [hcalls, TrapCall.filterMap_irqKbd] at hinOrder
  rw [hcalls, TrapCall.filterMap_irqKbd, TrapCall.countP_irqKbd, List.length_cons] at hsingle
  have hnone : calls.filterMap TrapCall.inHand = [] := List.length_eq_zero_iff.mp (by omega)
  have hcount : calls.countP TrapCall.reads = 0 := by omega
  have htyped : session.typed = lineEditor.type s.session.typed c := by
    obtain ⟨shell, -, rfl⟩ := Option.map_eq_some_iff.mp hsession
    rfl
  refine ⟨ht, h.session.key hquiet hsession, ?_, ?_, ?_⟩
  · rw [← hinOrder, List.append_assoc]
    split_ifs <;> rfl
  · split_ifs
    · show calls.countP TrapCall.reads + (calls.filterMap TrapCall.inHand).length ≤ 1
      rw [hcount, hnone]
      decide
    · show calls.countP TrapCall.reads + (calls.filterMap TrapCall.inHand).length ≤ 1
      rw [hcount, hnone]
      decide
  · show session.typed = (s.handed ++ [c]).foldl lineEditor.type LineEditor.start
    rw [List.foldl_append, ← h.typed, htyped]
    rfl

theorem Ordered.stepCall (h : s.Ordered) {call : TrapCall} {calls : List TrapCall}
    (hcalls : s.calls = call :: calls) (horderly : s.Orderly .step)
    (heq : s.stepCall call calls = some t) (ht : t.Inv) : t.Ordered := by
  obtain ⟨trapno, place⟩ := call
  unfold Orderly at horderly
  rw [hcalls] at horderly
  cases place with
  | irqTimer =>
    obtain rfl := Option.some.inj heq
    exact h.keep ht (by rw [hcalls]; rfl) (by rw [hcalls]; rfl) h.session rfl rfl rfl
  | kdbStatus =>
    obtain ⟨hfull, -⟩ := h.full (hcalls ▸ List.mem_cons_self) rfl
    rw [Keyed.stepCall, I8042.kdbStatus_eq, hfull, if_pos rfl] at heq
    obtain rfl := Option.some.inj heq
    exact h.keep ht (by rw [hcalls]; rfl) (by rw [hcalls]; rfl) h.session rfl rfl rfl
  | kdbData =>
    obtain rfl := Option.some.inj heq
    have hnone := h.none_inHand (hcalls ▸ List.mem_cons_self) rfl
    obtain ⟨-, hcount, -⟩ := h.full (hcalls ▸ List.mem_cons_self) rfl
    have hinOrder := h.inOrder
    rw [hnone, List.append_nil] at hinOrder
    rw [hcalls, List.filterMap_cons_none rfl] at hnone
    rw [hcalls, List.countP_cons_of_pos rfl] at hcount
    refine ⟨ht, h.session, ?_, ?_, h.typed⟩
    · rw [TrapCall.filterMap_irqKbd, hnone, List.map_append, ← hinOrder]
      rfl
    · rw [TrapCall.filterMap_irqKbd, TrapCall.countP_irqKbd, hnone, List.length_singleton]
      omega
  | irqKbd c => exact h.irqKbd hcalls horderly heq ht
  | command =>
    obtain ⟨session, hsession, heq⟩ := Option.bind_eq_some_iff.mp heq
    obtain rfl := Option.some.inj heq
    refine h.keep ht (by rw [hcalls]; rfl) (by rw [hcalls]; rfl)
      (h.session.ret horderly hsession) ?_ rfl rfl
    obtain ⟨shell, -, rfl⟩ := Option.map_eq_some_iff.mp hsession
    rfl
  | sendEoi =>
    obtain rfl := Option.some.inj heq
    exact h.keep ht (by rw [hcalls]; rfl) (by rw [hcalls]; rfl) h.session rfl rfl rfl

theorem Ordered.exec (h : s.Ordered) {e : Event} (horderly : s.Orderly e)
    (heq : s.exec e = some t) : t.Ordered := by
  have ht : t.Inv := h.toInv.exec horderly.device heq
  cases e with
  | send code =>
    obtain rfl := Option.some.inj heq
    exact h.keep ht rfl rfl h.session rfl rfl rfl
  | load =>
    obtain ⟨kbc, -, heq⟩ := Option.bind_eq_some_iff.mp heq
    obtain rfl := Option.some.inj heq
    exact h.keep ht rfl rfl h.session rfl rfl rfl
  | raise irq =>
    obtain rfl := Option.some.inj heq
    exact h.keep ht rfl rfl h.session rfl rfl rfl
  | enable irq =>
    obtain rfl := Option.some.inj heq
    exact h.keep ht rfl rfl h.session rfl rfl rfl
  | setFlag b =>
    obtain rfl := Option.some.inj heq
    exact h.keep ht rfl rfl h.session rfl rfl rfl
  | interrupt => exact h.interrupt horderly heq ht
  | step =>
    obtain ⟨call, calls, hcalls, heq⟩ := exec_step heq
    exact h.stepCall hcalls horderly heq ht

/-- In every run whose interrupts are orderly, the lines that the shell has executed are those of
the line editor; and when nothing goes on, it is the editor of all the keys that were sent. -/
theorem keyboard_to_shell {mem : ℕ → BitVec 8} {p : Pics} {kbc : I8042}
    (hmem : LoadsCommands mem) (hkbc : kbc.full = false)
    (h : Run exec Orderly (boot mem p kbc) s) : s.session.Exact ∧
      (s.Idle → s.session.typed =
        (s.sent.map keyOf).foldl lineEditor.type LineEditor.start) := by
  have hboot : (boot mem p kbc).Inv := boot_inv hmem hkbc p
  have hs : s.Ordered := h.invariant ⟨hboot, Session.inv_boot, rfl, Nat.zero_le 1, rfl⟩
    fun _ _ _ hu he heq => hu.exec he heq
  refine ⟨hs.session.toExact, fun hidle => ?_⟩
  obtain ⟨hall, hnone⟩ := hs.idle hidle
  have hinOrder := hs.inOrder
  rw [hnone, List.append_nil, hall] at hinOrder
  rw [hs.typed, hinOrder]

/-- A key is pressed and released; the timer, which is enabled, interrupts the handling of each. -/
def sampleKey (code : BitVec 8) : List Event :=
  [.send code, .send (code ||| 0x80#8), .load, .interrupt, .step, .raise IRQ_TIMER, .interrupt,
    .step, .step, .step, .step, .step, .load, .interrupt, .step, .step, .step, .step]

/-- `ps` is typed and executed, and returns. -/
theorem keyboard_to_shell_ps : ∃ s : Keyed, s.Idle ∧
    s.session.shell.executed = [['p', 's'].map Format.ascii] ∧ s.session.Exact ∧
    (s.Idle → s.session.typed =
      (s.sent.map keyOf).foldl lineEditor.type LineEditor.start) := by
  let events : List Event := sampleInit ++ [.enable 0] ++ sampleKey 0x19#8 ++ sampleKey 0x1F#8 ++
    sampleKey 0x1C#8 ++ [.step]
  have hallowed : Allowed exec Orderly events sampleBoot := by
    decide +kernel
  have hend : (events.foldlM exec sampleBoot).map
      (fun s => (s.session.shell.executed, decide s.Idle)) =
      some ([['p', 's'].map Format.ascii], true) := by
    decide +kernel
  obtain ⟨s, hs, heq⟩ := Option.map_eq_some_iff.mp hend
  simp only [Prod.mk.injEq, decide_eq_true_iff] at heq
  obtain ⟨hexecuted, hidle⟩ := heq
  exact ⟨s, hidle, hexecuted,
    keyboard_to_shell sampleMem_loads (by decide) (Run.of_foldlM hallowed hs)⟩

end Keyed
end Zonix
