import Zonix.Trap.Idt
import Zonix.Sched.FirstRun
import Zonix.Lib.Machine

/-!
# The way into `trap` and back: `kern/trap/vectors.S` and `kern/trap/trapentry.S`

The processor, the stub of the vector and `_trap_entry` push one `trap_frame`, whichever of them
pushes the error code. On the way back every register is taken out of it. So a program that looks
neither below its stack pointer nor at the data of the handlers runs as if it were never
interrupted: `interrupts_transparent` says so for any number of interrupts between any two steps.
-/

namespace Zonix
open Lib X86

/-! ## The assembly -/

/-- What the stub of a vector pushes: a 0 in place of the error code, and the number. -/
def vectorPushes (n : ℕ) : List Word :=
  if n ∈ [8, 10, 11, 12, 13, 14, 17] then [BitVec.ofNat 32 n] else [0#32, BitVec.ofNat 32 n]

/-- The stub that begins at `eip`. -/
def stubAt (vectors : ℕ → Word) (eip : Word) : Option ℕ :=
  (List.range 256).find? fun n => vectors n = eip

/-- `_trap_entry`, up to the first instruction of `trap`; `next` is the address behind the call. -/
def trapEntry (m : Machine) (trap next : Word) : Machine :=
  let cpu := m.cpu.pushal
  -- *tf = esp
  let cpu := cpu.push (cpu.reg .esp)
  { m with cpu := cpu.call trap next }

/-- `_trap_entry`, behind the call. -/
def trapExit (m : Machine) : Machine :=
  let m := { m with cpu := m.cpu.popEsp }
  let m := { m with cpu := m.cpu.popal }
  -- ignore the number and error code
  let m := { m with cpu := m.cpu.addEsp 8#32 }
  m.iret

/-- Where the table, the stubs and `trap` are, and what `trap` does between its call and its
return. -/
structure TrapCode where
  idtr : Idtr
  vectors : ℕ → Word
  trap : Word
  next : Word
  body : Machine → Machine

namespace TrapCode

/-- From interrupt `n` to the first instruction of `trap`. -/
def enter (k : TrapCode) (m : Machine) (n : ℕ) (err : Word) (high : BitVec 16) :
    Option Machine := do
  let m ← m.deliver k.idtr n err high
  let stub ← stubAt k.vectors m.cpu.eip
  let m := { m with cpu := m.cpu.pushAll (vectorPushes stub) }
  some (trapEntry m k.trap k.next)

/-- Interrupt `n`, with the return from it. -/
def handle (k : TrapCode) (m : Machine) (n : ℕ) (err : Word) (high : BitVec 16) :
    Option Machine := do
  let m ← k.enter m n err high
  some (trapExit (k.body m))

end TrapCode

/-! ## The frame -/

/-- The frame that `trap` is given. Behind it is the stack of the program, which a frame of the same
privilege level does not include. -/
def trapFrame (m : Machine) (n : ℕ) (err : Word) (high : BitVec 16) : TrapFrame where
  regs :=
    { edi := m.cpu.reg .edi
      esi := m.cpu.reg .esi
      ebp := m.cpu.reg .ebp
      unused := m.cpu.reg .esp - 20#32
      ebx := m.cpu.reg .ebx
      edx := m.cpu.reg .edx
      ecx := m.cpu.reg .ecx
      eax := m.cpu.reg .eax }
  trapno := BitVec.ofNat 32 n
  err := if HasErrorCode n then err else 0#32
  eip := m.cpu.eip
  cs := m.cs
  padding1 := high
  eflags := m.eflags
  esp := load m.cpu.mem (m.cpu.reg .esp)
  ss := (load m.cpu.mem (m.cpu.reg .esp + 4#32)).extractLsb' 0 16
  padding2 := (load m.cpu.mem (m.cpu.reg .esp + 4#32)).extractLsb' 16 16

/-- All that is pushed on the way to `trap`. -/
def trapPushes (m : Machine) (n : ℕ) (err : Word) (high : BitVec 16) (next : Word) : List Word :=
  [m.eflags, high ++ m.cs, m.cpu.eip, if HasErrorCode n then err else 0#32, BitVec.ofNat 32 n,
    m.cpu.reg .eax, m.cpu.reg .ecx, m.cpu.reg .edx, m.cpu.reg .ebx, m.cpu.reg .esp - 20#32,
    m.cpu.reg .ebp, m.cpu.reg .esi, m.cpu.reg .edi, m.cpu.reg .esp - 52#32, next]

section Entry
variable {k : TrapCode} {m e : Machine} {n : ℕ} {err : Word} {high : BitVec 16}

/-- The stubs push a 0 exactly where the processor pushes no error code. -/
theorem errorCode_pushed (m : Machine) (n : ℕ) (err : Word) (high : BitVec 16) :
    m.deliverPushes n err high ++ vectorPushes n =
      [m.eflags, high ++ m.cs, m.cpu.eip, if HasErrorCode n then err else 0#32,
        BitVec.ofNat 32 n] := by
  have hiff : n ∈ [8, 10, 11, 12, 13, 14, 17] ↔ HasErrorCode n := by
    simp only [List.mem_cons, List.not_mem_nil, or_false, HasErrorCode]
    omega
  unfold Machine.deliverPushes vectorPushes
  by_cases herr : HasErrorCode n
  · rw [if_pos herr, if_pos (hiff.mpr herr), if_pos herr]
    rfl
  · rw [if_neg herr, if_neg fun hn => herr (hiff.mp hn), if_neg herr]
    rfl

/-- The processor finds the descriptors of `idt_init`, and runs in kernel mode. -/
structure Ready (k : TrapCode) (m : Machine) : Prop where
  limit : k.idtr.limit = 2047#16
  gates : ∀ i < 256, readGate m.cpu.mem (idtEntry k.idtr.base i) =
    ⟨k.vectors i, GD_KTEXT, TRAP_GATE, false, if i = T_SYSCALL then DPL_USER else DPL_KERNEL, true⟩
  kernel : rpl m.cs = rpl GD_KTEXT

theorem Ready.congr {m' : Machine} (h : Ready k m) (hcs : m'.cs = m.cs)
    (hmem : ∀ x ∈ idtBytes k.idtr.base 256, m'.cpu.mem x = m.cpu.mem x) : Ready k m' := by
  refine ⟨h.limit, fun i hi => ?_, hcs ▸ h.kernel⟩
  have hentry : ∀ d : Word, d.toNat ≤ 4 → load m'.cpu.mem (idtEntry k.idtr.base i + d) =
      load m.cpu.mem (idtEntry k.idtr.base i + d) := by
    intro d hd
    apply load_congr
    intro x hx
    apply hmem
    apply idtEntry_subset hi le_rfl
    exact bytes_subset (show d.toNat + 4 ≤ SIZEOF_GATE_DESC by rw [sizeof_gateDesc]; omega)
      (by decide) hx
  have hlow := hentry 0#32 (by decide)
  rw [BitVec.add_zero] at hlow
  rw [← h.gates i hi, readGate, readGate, hlow, hentry 4#32 (by decide)]

/-- The stubs are at different addresses. -/
def TrapCode.StubsApart (k : TrapCode) : Prop :=
  ∀ i < 256, ∀ j < 256, k.vectors i = k.vectors j → i = j

theorem TrapCode.StubsApart.stubAt (h : k.StubsApart) (hn : n < 256) :
    stubAt k.vectors (k.vectors n) = some n := by
  unfold Zonix.stubAt
  rw [List.find?_eq_some_iff_getElem]
  refine ⟨by simp, n, by simpa using hn, by simp, fun i hi => ?_⟩
  rw [List.getElem_range]
  have hne : k.vectors i ≠ k.vectors n := fun heq =>
    absurd (h i (by omega) n hn heq) (by omega)
  simpa using hne

/-- `_trap_entry` on a stack that has the error code and the number on it. -/
theorem trapEntry_eq (m : Machine) {c : Cpu} {vs : List Word} {trap next eip : Word}
    (hc : m.cpu = { c.pushAll vs with eip := eip }) :
    trapEntry m trap next = { m with
      cpu := { c.pushAll (vs ++ [c.reg .eax, c.reg .ecx, c.reg .edx, c.reg .ebx,
          c.reg .esp - BitVec.ofNat 32 (4 * vs.length), c.reg .ebp, c.reg .esi, c.reg .edi,
          c.reg .esp - BitVec.ofNat 32 (4 * vs.length) - 32#32, next]) with eip := trap } } := by
  have hesp : ({ c.pushAll vs with eip := eip } : Cpu).reg .esp =
    c.reg .esp - BitVec.ofNat 32 (4 * vs.length) := Cpu.pushAll_esp
  have hreg : ∀ r, r ≠ Reg.esp → ({ c.pushAll vs with eip := eip } : Cpu).reg r = c.reg r :=
    fun r hr => Cpu.pushAll_reg hr
  have hpushal : m.cpu.pushal = { c.pushAll (vs ++ [c.reg .eax, c.reg .ecx, c.reg .edx, c.reg .ebx,
      c.reg .esp - BitVec.ofNat 32 (4 * vs.length), c.reg .ebp, c.reg .esi, c.reg .edi]) with
      eip := eip } := by
    rw [hc, Cpu.pushal, hesp, hreg .eax (by decide), hreg .ecx (by decide), hreg .edx (by decide),
      hreg .ebx (by decide), hreg .ebp (by decide), hreg .esi (by decide), hreg .edi (by decide),
      Cpu.pushAll_setEip, ← Cpu.pushAll_append]
  have hframe : m.cpu.pushal.reg .esp = c.reg .esp - BitVec.ofNat 32 (4 * vs.length) - 32#32 := by
    rw [hpushal]
    show (c.pushAll _).reg .esp = _
    rw [Cpu.pushAll_esp, List.length_append]
    simp only [List.length_cons, List.length_nil]
    bv_omega
  show { m with cpu := (m.cpu.pushal.push (m.cpu.pushal.reg .esp)).call trap next } = _
  rw [hframe, hpushal]
  have hrest : ∀ (d : Cpu) (a : Word), (({ d with eip := eip } : Cpu).push a).call trap next =
      { d.pushAll [a, next] with eip := trap } := fun d a => rfl
  rw [hrest, ← Cpu.pushAll_append, List.append_assoc]
  rfl

/-- What the interrupt pushes, all in all. -/
theorem Ready.enter_eq (h : Ready k m) (hstubs : k.StubsApart) (hn : n < 256) :
    k.enter m n err high = some
      { m with
        cpu := { m.cpu.pushAll (trapPushes m n err high k.next) with eip := k.trap }
        cs := GD_KTEXT
        eflags := m.eflags &&& ~~~GATE_CLEARS } := by
  have hgate : readGate m.cpu.mem (k.idtr.gate n) = _ := h.gates n hn
  have hdelivers : m.Delivers k.idtr n := by
    unfold Machine.Delivers
    rw [hgate, h.limit]
    refine ⟨?_, rfl, rfl, Or.inr rfl, h.kernel.symm⟩
    show 8 * n + 7 ≤ 2047
    omega
  have hdeliver : m.deliver k.idtr n err high = some
      { m with
        cpu := { m.cpu.pushAll (m.deliverPushes n err high) with eip := k.vectors n }
        cs := GD_KTEXT
        eflags := m.eflags &&& ~~~GATE_CLEARS } := by
    simp only [Machine.deliver, if_pos hdelivers, hgate]
    rfl
  simp only [TrapCode.enter, hdeliver, Option.bind_eq_bind, Option.bind_some, hstubs.stubAt hn]
  have hstub : ({ m.cpu.pushAll (m.deliverPushes n err high) with eip := k.vectors n } :
      Cpu).pushAll (vectorPushes n) = { m.cpu.pushAll [m.eflags, high ++ m.cs, m.cpu.eip,
        if HasErrorCode n then err else 0#32, BitVec.ofNat 32 n] with eip := k.vectors n } := by
    rw [Cpu.pushAll_setEip, ← Cpu.pushAll_append, errorCode_pushed]
  have hframe : m.cpu.reg .esp - BitVec.ofNat 32 (4 * 5) - 32#32 = m.cpu.reg .esp - 52#32 := by
    bv_omega
  rw [trapEntry_eq _ hstub]
  simp only [List.length_cons, List.length_nil, Nat.zero_add, hframe]
  rfl

/-- The first instruction of `trap(tf)`: `tf` leads to the frame, right above the argument. -/
structure Called (k : TrapCode) (m : Machine) (tf : TrapFrame) (e : Machine) : Prop where
  eip : e.cpu.eip = k.trap
  esp : e.cpu.reg .esp = m.cpu.reg .esp - 60#32
  kernel : rpl e.cs = rpl m.cs
  ss : e.ss = m.ss
  /-- A trap gate leaves `IF` as it is. -/
  eflags : e.eflags = m.eflags &&& ~~~GATE_CLEARS
  ret : load e.cpu.mem (e.cpu.reg .esp) = k.next
  arg : load e.cpu.mem (e.cpu.reg .esp + 4#32) = e.cpu.reg .esp + 8#32
  frame : Holds e.cpu.mem (e.cpu.reg .esp + 8#32) tf.words
  mem : ∀ x, x ∉ Cpu.below (m.cpu.reg .esp) 15 → e.cpu.mem x = m.cpu.mem x

theorem Ready.called (h : Ready k m) (hstubs : k.StubsApart) (hn : n < 256) :
    ∃ e, k.enter m n err high = some e ∧ Called k m (trapFrame m n err high) e := by
  refine ⟨_, h.enter_eq hstubs hn, ?_⟩
  have hlen : (trapPushes m n err high k.next).length = 15 := rfl
  generalize hc : m.cpu.pushAll (trapPushes m n err high k.next) = c
  have hesp : c.reg .esp = m.cpu.reg .esp - 60#32 := by
    rw [← hc, Cpu.pushAll_esp, hlen]
  have hoff : ∀ x, x ∉ Cpu.below (m.cpu.reg .esp) 15 → c.mem x = m.cpu.mem x := by
    intro x hx
    rw [← hc]
    exact Cpu.pushAll_off (by rw [hlen]; decide) (by rwa [hlen])
  have hholds : Holds c.mem (c.reg .esp) (trapPushes m n err high k.next).reverse := by
    rw [← hc]
    exact Cpu.pushAll_holds (by rw [hlen]; decide)
  -- the stack of the program begins above the frame
  have habove : ∀ d : Word, d.toNat ≤ 4 →
      load c.mem (m.cpu.reg .esp + d) = load m.cpu.mem (m.cpu.reg .esp + d) := by
    intro d hd
    apply load_congr
    intro x hx
    apply hoff
    rw [Cpu.below, mem_bytes]
    rw [mem_bytes] at hx
    bv_omega
  obtain ⟨hret, harg, hframe⟩ := hholds
  have hword : c.reg .esp + 4#32 + 4#32 = c.reg .esp + 8#32 := BitVec.add_assoc ..
  have htop : c.reg .esp + 8#32 + BitVec.ofNat 32 (4 * 13) = m.cpu.reg .esp := by
    rw [hesp]
    bv_omega
  rw [hword] at hframe
  have hself : m.cpu.reg .esp - 52#32 = c.reg .esp + 8#32 := by
    rw [hesp]
    bv_omega
  have hzero := habove 0#32 (by decide)
  rw [BitVec.add_zero] at hzero
  have hss : (trapFrame m n err high).padding2 ++ (trapFrame m n err high).ss =
    load m.cpu.mem (m.cpu.reg .esp + 4#32) := halves _
  have hrest : Holds c.mem (c.reg .esp + 8#32 + BitVec.ofNat 32 (4 * 13))
      [(trapFrame m n err high).esp,
        (trapFrame m n err high).padding2 ++ (trapFrame m n err high).ss] := by
    rw [htop, hss]
    exact ⟨hzero, habove 4#32 (by decide), trivial⟩
  exact ⟨rfl, hesp, h.kernel.symm, rfl, rfl, hret, harg.trans hself,
    holds_append.mpr ⟨hframe, hrest⟩, hoff⟩

/-! ## The way back -/

/-- A C function that was called at `e` has returned at `r`. It has written `hidden`, and its own
stack below its return address. -/
structure Returns (hidden : Set Word) (lo : Word) (e r : Machine) : Prop where
  eip : r.cpu.eip = load e.cpu.mem (e.cpu.reg .esp)
  esp : r.cpu.reg .esp = e.cpu.reg .esp + 4#32
  cs : r.cs = e.cs
  ss : r.ss = e.ss
  mem : ∀ x, x ∉ hidden → x ∉ dead lo (r.cpu.reg .esp) → r.cpu.mem x = e.cpu.mem x

/-- An interrupt that comes while the function runs, and that it does not notice. -/
theorem Returns.alike {hidden : Set Word} {lo : Word} {r r' : Machine}
    (h : Returns hidden lo e r) (ha : Alike hidden lo r r') : Returns hidden lo e r' := by
  refine ⟨ha.eip.trans h.eip, ?_, ha.cs.trans h.cs, ha.ss.trans h.ss, fun x hx hdead => ?_⟩
  · rw [ha.reg, h.esp]
  · rw [ha.reg] at hdead
    rw [ha.mem x hx hdead, h.mem x hx hdead]

/-- The words of a frame that an interrupt without a change of the privilege level pushes. -/
def TrapFrame.pushed (tf : TrapFrame) : List Word := tf.words.take 13

theorem TrapFrame.words_eq (tf : TrapFrame) :
    tf.words = tf.pushed ++ [tf.esp, tf.padding2 ++ tf.ss] := rfl

/-- What lies behind the words that were pushed does not matter. -/
theorem trapretCode_pushed {r : Machine} {tf : TrapFrame}
    (h : Holds r.cpu.mem (r.cpu.reg .esp) tf.pushed) (hcs : rpl tf.cs = rpl r.cs) :
    Entered tf (trapretCode r) ∧ (trapretCode r).cpu.reg .esp = r.cpu.reg .esp + 52#32 := by
  let w := load r.cpu.mem (r.cpu.reg .esp + 52#32)
  let w' := load r.cpu.mem (r.cpu.reg .esp + 52#32 + 4#32)
  let tf' : TrapFrame :=
    { tf with esp := w, ss := w'.extractLsb' 0 16, padding2 := w'.extractLsb' 16 16 }
  have hhalves : tf'.padding2 ++ tf'.ss = w' := halves w'
  have htail : Holds r.cpu.mem (r.cpu.reg .esp + BitVec.ofNat 32 (4 * tf'.pushed.length))
      [tf'.esp, tf'.padding2 ++ tf'.ss] := by
    rw [hhalves]
    exact ⟨rfl, rfl, trivial⟩
  have hwords : Holds r.cpu.mem (r.cpu.reg .esp) tf'.words := by
    rw [tf'.words_eq]
    exact holds_append.mpr ⟨h, htail⟩
  obtain ⟨he, hesp⟩ := trapretCode_spec hwords hcs
  exact ⟨⟨he.eip, he.cs, he.eflags, he.edi, he.esi, he.ebp, he.ebx, he.edx, he.ecx, he.eax⟩, hesp⟩

/-- `popl %esp` leads to the frame; what follows is what `trapret` does. -/
theorem trapExit_spec {r : Machine} {tf : TrapFrame}
    (harg : load r.cpu.mem (r.cpu.reg .esp) = r.cpu.reg .esp + 4#32)
    (hframe : Holds r.cpu.mem (r.cpu.reg .esp + 4#32) tf.pushed) (hcs : rpl tf.cs = rpl r.cs) :
    Entered tf (trapExit r) ∧ (trapExit r).cpu.reg .esp = r.cpu.reg .esp + 56#32 ∧
      (trapExit r).ss = r.ss ∧ (trapExit r).cpu.mem = r.cpu.mem := by
  have hpop : r.cpu.popEsp.reg .esp = r.cpu.reg .esp + 4#32 := by
    rw [Cpu.popEsp, harg]
    exact Function.update_self Reg.esp _ r.cpu.reg
  have hcode : trapExit r = trapretCode { r with cpu := r.cpu.popEsp } := rfl
  obtain ⟨hentered, hesp⟩ := @trapretCode_pushed { r with cpu := r.cpu.popEsp } tf
    (by rw [hpop]; exact hframe) hcs
  rw [hcode]
  refine ⟨hentered, ?_, ?_, rfl⟩
  · rw [hesp]
    show r.cpu.popEsp.reg .esp + 52#32 = _
    rw [hpop, BitVec.add_assoc]
    rfl
  · have hsame : rpl (trapretCode { r with cpu := r.cpu.popEsp }).cs = rpl r.cs := by
      rw [hentered.cs, hcs]
    exact if_pos hsame

/-- The machine runs with the registers that a frame has of it. -/
theorem Entered.reg {r : Machine} (h : Entered (trapFrame m n err high) r)
    (hesp : r.cpu.reg .esp = m.cpu.reg .esp) : r.cpu.reg = m.cpu.reg := by
  funext x
  cases x with
  | eax => exact h.eax
  | ecx => exact h.ecx
  | edx => exact h.edx
  | ebx => exact h.ebx
  | esp => exact hesp
  | ebp => exact h.ebp
  | esi => exact h.esi
  | edi => exact h.edi

/-- The bytes that are pushed are dead for the program. -/
theorem below_subset {lo esp : Word} (hroom : lo.toNat + 60 ≤ esp.toNat) :
    Cpu.below esp 15 ⊆ dead lo esp := by
  intro x hx
  rw [Cpu.below, mem_bytes] at hx
  show lo ≤ x ∧ x < esp
  have hlt := esp.isLt
  bv_omega

/-- Interrupt `n` finds the table, room on the stack and a `trap` that comes back. -/
structure MayInterrupt (k : TrapCode) (hidden : Set Word) (lo : Word) (m : Machine) (n : ℕ)
    (err : Word) (high : BitVec 16) : Prop where
  ready : Ready k m
  vector : n < 256
  room : lo.toNat + 60 ≤ (m.cpu.reg .esp).toNat
  apart : Disjoint hidden (dead lo (m.cpu.reg .esp))
  returns : ∀ e, k.enter m n err high = some e → Returns hidden lo e (k.body e)

/-- An interrupt in kernel mode, with the return from it. -/
theorem MayInterrupt.handle {hidden : Set Word} {lo : Word}
    (h : MayInterrupt k hidden lo m n err high) (hstubs : k.StubsApart) :
    ∃ r, k.handle m n err high = some r ∧ Alike hidden lo m r := by
  obtain ⟨e, henter, hcalled⟩ := h.ready.called hstubs h.vector
  have hret := h.returns e henter
  have hroom := h.room
  have hresp : (k.body e).cpu.reg .esp = m.cpu.reg .esp - 56#32 := by
    rw [hret.esp, hcalled.esp]
    bv_omega
  -- neither the argument nor what was pushed before it is written
  have hkept : ∀ x ∈ bytes ((k.body e).cpu.reg .esp) 56, (k.body e).cpu.mem x = e.cpu.mem x := by
    intro x hx
    rw [hresp, mem_bytes] at hx
    apply hret.mem
    · refine fun hx' => Set.disjoint_left.mp h.apart hx' ⟨?_, ?_⟩
      · bv_omega
      · bv_omega
    · rw [hresp]
      rintro ⟨-, hlt⟩
      bv_omega
  have hargAt : (k.body e).cpu.reg .esp = e.cpu.reg .esp + 4#32 := hret.esp
  have hframeAt : (k.body e).cpu.reg .esp + 4#32 = e.cpu.reg .esp + 8#32 := by
    rw [hargAt, BitVec.add_assoc]
    rfl
  have harg : load (k.body e).cpu.mem ((k.body e).cpu.reg .esp) =
      (k.body e).cpu.reg .esp + 4#32 := by
    rw [load_congr fun x hx => hkept x (by rw [mem_bytes] at hx ⊢; omega), hframeAt, hargAt,
      hcalled.arg]
  have hframe : Holds (k.body e).cpu.mem ((k.body e).cpu.reg .esp + 4#32)
      (trapFrame m n err high).pushed := by
    have hpushed := hcalled.frame
    rw [TrapFrame.words_eq, holds_append, ← hframeAt] at hpushed
    refine hpushed.1.congr (show 4 * 13 ≤ 2 ^ 32 by omega) fun x hx => hkept x ?_
    exact @bytes_subset _ (4 * 13) 56 4#32 (by decide) (by decide) x hx
  have hcs : rpl (trapFrame m n err high).cs = rpl (k.body e).cs := by
    rw [hret.cs, hcalled.kernel]
    rfl
  obtain ⟨hentered, hesp, hss, hmem⟩ := trapExit_spec harg hframe hcs
  have hesp' : (trapExit (k.body e)).cpu.reg .esp = m.cpu.reg .esp := by
    rw [hesp, hresp]
    exact BitVec.sub_add_cancel ..
  refine ⟨trapExit (k.body e), ?_, hentered.reg hesp', hentered.eip, hentered.cs, ?_,
    hentered.eflags, fun x hx hdead => ?_⟩
  · simp only [TrapCode.handle, henter, Option.bind_eq_bind, Option.bind_some]
  · rw [hss, hret.ss, hcalled.ss]
  · have hbelow : x ∉ Cpu.below (m.cpu.reg .esp) 15 := fun hx' => hdead (below_subset hroom hx')
    rw [hmem, hret.mem x hx, hcalled.mem x hbelow]
    rw [hresp]
    rintro ⟨hlo, hlt⟩
    exact hdead ⟨hlo, by bv_omega⟩

end Entry

/-! ## Any number of interrupts -/

/-- What happens next: a step of the program, or an interrupt with the return from it. -/
inductive TrapEvent
  | step
  | interrupt (n : ℕ) (err : Word) (high : BitVec 16)

/-- The machine, and how many steps of its own the program has made. -/
structure Interrupted where
  machine : Machine
  steps : ℕ

namespace Interrupted

def exec (k : TrapCode) (step : Machine → Machine) (s : Interrupted) :
    TrapEvent → Option Interrupted
  | .step => some ⟨step s.machine, s.steps + 1⟩
  | .interrupt n err high => (k.handle s.machine n err high).map fun m => ⟨m, s.steps⟩

def ok (k : TrapCode) (hidden : Set Word) (lo : Word) (s : Interrupted) : TrapEvent → Prop
  | .step => True
  | .interrupt n err high => MayInterrupt k hidden lo s.machine n err high

variable {k : TrapCode} {step : Machine → Machine} {hidden : Set Word} {lo : Word} {m : Machine}
  {t : Interrupted}

theorem run_step {s : Interrupted} {j : ℕ} (hrun : Run (exec k step) (ok k hidden lo) s ⟨m, j⟩) :
    Run (exec k step) (ok k hidden lo) s ⟨step m, j + 1⟩ := hrun.tail ⟨.step, trivial, rfl⟩

theorem run_interrupt {s : Interrupted} {j n : ℕ} {err : Word} {high : BitVec 16} {r : Machine}
    (hrun : Run (exec k step) (ok k hidden lo) s ⟨m, j⟩)
    (h : MayInterrupt k hidden lo m n err high) (hr : k.handle m n err high = some r) :
    Run (exec k step) (ok k hidden lo) s ⟨r, j⟩ :=
  hrun.tail ⟨.interrupt n err high, h, congrArg (Option.map _) hr⟩

/-- The program has made its steps, as far as it can tell. -/
theorem run_alike (hstubs : k.StubsApart) (hstep : Respects hidden lo step)
    (hrun : Run (exec k step) (ok k hidden lo) ⟨m, 0⟩ t) :
    Alike hidden lo (step^[t.steps] m) t.machine := by
  refine hrun.invariant (I := fun t => Alike hidden lo (step^[t.steps] m) t.machine) (.refl m) ?_
  rintro s event t hs hok heq
  cases event with
  | step =>
    obtain rfl := Option.some.inj heq
    show Alike hidden lo (step^[s.steps + 1] m) (step s.machine)
    rw [Function.iterate_succ_apply']
    exact hstep _ _ hs
  | interrupt n err high =>
    obtain ⟨r, hr, halike⟩ := MayInterrupt.handle hok hstubs
    obtain ⟨r', hr', rfl⟩ := Option.map_eq_some_iff.mp heq
    obtain rfl := Option.some.inj (hr.symm.trans hr')
    exact hs.trans halike

/-- However many interrupts come, with any vectors and between any two steps of a program in the
kernel: it gets on as without them. And each of them calls `trap` with the frame of the machine as
it was, with interrupts as they were. -/
theorem interrupts_transparent (hstubs : k.StubsApart) (hstep : Respects hidden lo step)
    (hrun : Run (exec k step) (ok k hidden lo) ⟨m, 0⟩ t) :
    Alike hidden lo (step^[t.steps] m) t.machine ∧
      ∀ n err high, MayInterrupt k hidden lo t.machine n err high →
        ∃ e r, k.enter t.machine n err high = some e ∧
          Called k t.machine (trapFrame t.machine n err high) e ∧
          k.handle t.machine n err high = some r ∧ Alike hidden lo (step^[t.steps] m) r := by
  have halike := run_alike hstubs hstep hrun
  refine ⟨halike, fun n err high h => ?_⟩
  obtain ⟨e, henter, hcalled⟩ := @Ready.called k t.machine n err high h.ready hstubs h.vector
  obtain ⟨r, hr, hr'⟩ := h.handle hstubs
  exact ⟨e, r, henter, hcalled, hr, halike.trans hr'⟩

/-! ### A counter -/

/-- Where the handler counts. -/
def sampleTicks : Word := 0x2000#32

/-- `trap` counts the interrupts, leaves something in `eax` and returns. -/
def sampleCode : TrapCode where
  idtr := ⟨0x1000#32, 2047#16⟩
  vectors i := BitVec.ofNat 32 (0x10000 + 16 * i)
  trap := 0x100#32
  next := 0x108#32
  body e :=
    let ret := load e.cpu.mem (e.cpu.reg .esp)
    let cpu := e.cpu.setMem (store e.cpu.mem sampleTicks (load e.cpu.mem sampleTicks + 1#32))
    let cpu := (cpu.setReg .eax 77#32).setReg .esp (e.cpu.reg .esp + 4#32)
    { e with cpu := { cpu with eip := ret } }

/-- `incl %eax` -/
def sampleStep (m : Machine) : Machine :=
  { m with cpu := m.cpu.setReg .eax (m.cpu.reg .eax + 1#32) }

/-- The kernel behind `idt_init`. -/
def sampleMachine : Machine where
  cpu :=
    { reg r := if r = .esp then 0x9000#32 else 0#32
      eip := 0x500#32
      mem := idtInit (fun _ => 0#8) sampleCode.idtr.base sampleCode.vectors }
  cs := GD_KTEXT
  ss := 0x10#16
  eflags := 0x202#32

theorem sampleCode_stubsApart : sampleCode.StubsApart := by
  intro i hi j hj heq
  have hnat := congrArg BitVec.toNat heq
  simp only [sampleCode, BitVec.toNat_ofNat] at hnat
  omega

theorem sampleStep_mem (m : Machine) : (sampleStep m).cpu.mem = m.cpu.mem := rfl

theorem sampleStep_respects : Respects (bytes sampleTicks 4) 0x8000#32 sampleStep := by
  intro m m' h
  have hreg : (sampleStep m').cpu.reg = (sampleStep m).cpu.reg := by
    simp only [sampleStep, Cpu.setReg, h.reg]
  refine ⟨hreg, h.eip, h.cs, h.ss, h.eflags, fun x hx hdead => h.mem x hx fun hx' => hdead ?_⟩
  have hesp : (sampleStep m).cpu.reg .esp = m.cpu.reg .esp := by simp [sampleStep, Cpu.setReg]
  rw [hesp]
  exact hx'

theorem sample_mayInterrupt {m : Machine} {n : ℕ} (hn : n < 256) (err : Word) (high : BitVec 16)
    (hesp : m.cpu.reg .esp = 0x9000#32) (hcs : m.cs = GD_KTEXT)
    (hmem : ∀ x ∈ idtBytes 0x1000#32 256, m.cpu.mem x = sampleMachine.cpu.mem x) :
    MayInterrupt sampleCode (bytes sampleTicks 4) 0x8000#32 m n err high := by
  obtain ⟨hgates, -⟩ := idtInit_gates (fun _ => 0#8) sampleCode.idtr.base sampleCode.vectors
  have hready : Ready sampleCode sampleMachine := ⟨rfl, hgates, rfl⟩
  refine ⟨hready.congr hcs hmem, hn, by rw [hesp]; decide, ?_, fun e _ => ?_⟩
  · rw [hesp, Set.disjoint_left]
    rintro x hx ⟨hlo, -⟩
    rw [mem_bytes_iff (by decide)] at hx
    have hticks : sampleTicks.toNat = 0x2000 := rfl
    bv_omega
  · refine ⟨rfl, ?_, rfl, rfl, fun x hx _ => store_off hx⟩
    simp [sampleCode, Cpu.setReg, Cpu.setMem]

/-- The counter and the stack are not in the table. -/
theorem sample_idt_kept {m r : Machine} (hesp : m.cpu.reg .esp = 0x9000#32)
    (h : Alike (bytes sampleTicks 4) 0x8000#32 m r) :
    ∀ x ∈ idtBytes 0x1000#32 256, r.cpu.mem x = m.cpu.mem x := by
  intro x hx
  rw [idtBytes, sizeof_gateDesc, mem_bytes_iff (by decide)] at hx
  apply h.mem
  · rw [mem_bytes_iff (by decide)]
    have hticks : sampleTicks.toNat = 0x2000 := rfl
    bv_omega
  · rw [hesp]
    rintro ⟨hlo, -⟩
    bv_omega

/-- A page fault and a system call, between two steps. -/
theorem interrupts_transparent_sample : ∃ t,
    Run (exec sampleCode sampleStep) (ok sampleCode (bytes sampleTicks 4) 0x8000#32)
      ⟨sampleMachine, 0⟩ t ∧ t.steps = 2 ∧ t.machine.cpu.reg .eax = 2#32 := by
  have hesp : (sampleStep sampleMachine).cpu.reg .esp = 0x9000#32 := rfl
  have hmem : ∀ x ∈ idtBytes 0x1000#32 256,
      (sampleStep sampleMachine).cpu.mem x = sampleMachine.cpu.mem x := by
    intro x _
    rw [sampleStep_mem]
  have hcs : (sampleStep sampleMachine).cs = GD_KTEXT := rfl
  have hfault := @sample_mayInterrupt (sampleStep sampleMachine) 14 (by decide) 2#32 0#16 hesp hcs
    hmem
  obtain ⟨r, hr, halike⟩ := hfault.handle sampleCode_stubsApart
  have hkept := sample_idt_kept hesp halike
  have hcall := sample_mayInterrupt (n := T_SYSCALL) (by decide) 0#32 0#16
    (by rw [halike.reg, hesp]) halike.cs hkept
  obtain ⟨r', hr', -⟩ := hcall.handle sampleCode_stubsApart
  have hrun := run_step (run_interrupt (run_interrupt (run_step (Run.refl
    (Interrupted.mk sampleMachine 0))) hfault hr) hcall hr')
  obtain ⟨hend, -⟩ := interrupts_transparent sampleCode_stubsApart sampleStep_respects hrun
  refine ⟨_, hrun, rfl, ?_⟩
  rw [hend.reg]
  rfl

end Interrupted
end Zonix
