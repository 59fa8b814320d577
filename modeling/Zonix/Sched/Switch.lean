import Zonix.Lib.X86
import Zonix.Arch.Mmu
import Mathlib.Logic.Relation

/-!
# `switch_to`, in `kern/sched/switch.S`

The routine as it runs on the machine: processes are a `struct context` and a stack somewhere in
memory, and nothing but the bytes they have says which process is which. `run_switchSave` and
`run_switchRestore` are what the two halves of the routine do. A process that waits in `switch_to`
left its registers in its context, where nobody writes until it is resumed.
-/

namespace Zonix
open Lib X86

/-! ## The routine -/

/-- `struct context`, in the order of its members -/
structure SwitchContext where
  eip : Word
  esp : Word
  ebx : Word
  ecx : Word
  edx : Word
  esi : Word
  edi : Word
  ebp : Word

def SIZEOF_CONTEXT : ℕ := 32

/-- The context as it lies in memory. -/
def SwitchContext.words (ctx : SwitchContext) : List Word :=
  [ctx.eip, ctx.esp, ctx.ebx, ctx.ecx, ctx.edx, ctx.esi, ctx.edi, ctx.ebp]

/-- save from's registers -/
def switchSave : List Instr :=
  [.load 4#32 .esp .eax,
    .popl 0#32 .eax,
    .store .esp 4#32 .eax,
    .store .ebx 8#32 .eax,
    .store .ecx 12#32 .eax,
    .store .edx 16#32 .eax,
    .store .esi 20#32 .eax,
    .store .edi 24#32 .eax,
    .store .ebp 28#32 .eax]

/-- restore to's registers -/
def switchRestore : List Instr :=
  [.load 4#32 .esp .eax,
    .load 28#32 .eax .ebp,
    .load 24#32 .eax .edi,
    .load 20#32 .eax .esi,
    .load 16#32 .eax .edx,
    .load 12#32 .eax .ecx,
    .load 8#32 .eax .ebx,
    .load 4#32 .eax .esp,
    .pushl 0#32 .eax,
    .ret]

/-- `switch_to(from, to)` -/
def switchToCode : List Instr := switchSave ++ switchRestore

/-- What the caller of `switch_to` finds behind its call: the registers as they are now, the
return address, and the stack pointer above it. -/
def callContext (c : Cpu) : SwitchContext where
  eip := load c.mem (c.reg .esp)
  esp := c.reg .esp + 4#32
  ebx := c.reg .ebx
  ecx := c.reg .ecx
  edx := c.reg .edx
  esi := c.reg .esi
  edi := c.reg .edi
  ebp := c.reg .ebp

theorem SwitchContext.words_le (ctx : SwitchContext) : 4 * ctx.words.length ≤ 2 ^ 32 := by
  show 4 * 8 ≤ 2 ^ 32
  omega

theorem exists_context (m : Memory) (a : Word) : ∃ ctx : SwitchContext, Holds m a ctx.words :=
  ⟨⟨_, _, _, _, _, _, _, _⟩, rfl, rfl, rfl, rfl, rfl, rfl, rfl, rfl, trivial⟩

/-- The CPU runs with the registers of `ctx`. -/
structure Resumed (ctx : SwitchContext) (c : Cpu) : Prop where
  eip : c.eip = ctx.eip
  esp : c.reg .esp = ctx.esp
  ebx : c.reg .ebx = ctx.ebx
  ecx : c.reg .ecx = ctx.ecx
  edx : c.reg .edx = ctx.edx
  esi : c.reg .esi = ctx.esi
  edi : c.reg .edi = ctx.edi
  ebp : c.reg .ebp = ctx.ebp

theorem run_switchSave (c : Cpu) : c.run switchSave =
    { c with
      reg := Function.update (Function.update c.reg .eax (load c.mem (c.reg .esp + 4#32))) .esp
        (c.reg .esp + 4#32)
      mem := storeWords c.mem (load c.mem (c.reg .esp + 4#32)) (callContext c).words } := by
  simp [Cpu.run, switchSave, Cpu.exec, Cpu.setReg, Cpu.setMem, storeWords, SwitchContext.words,
    callContext, BitVec.add_assoc]

/-- The second argument is where the first was before the return address was popped. -/
theorem run_switchRestore {c : Cpu} {ctx : SwitchContext}
    (h : Holds c.mem (load c.mem (c.reg .esp + 4#32)) ctx.words) :
    Resumed ctx (c.run switchRestore) ∧
      (c.run switchRestore).mem = store c.mem (ctx.esp - 4#32) ctx.eip := by
  simp only [Holds, SwitchContext.words, BitVec.add_assoc, BitVec.reduceAdd, and_true] at h
  obtain ⟨heip, hesp, hebx, hecx, hedx, hesi, hedi, hebp⟩ := h
  -- `ret` pops the word that `pushl` put below the stack of the context
  have hpop : (c.run switchRestore).reg .esp = ctx.esp - 4#32 + 4#32 := by
    simp [Cpu.run, switchRestore, Cpu.exec, Cpu.setReg, Cpu.setMem, hesp]
  rw [BitVec.sub_add_cancel] at hpop
  refine ⟨⟨?_, hpop, ?_, ?_, ?_, ?_, ?_, ?_⟩, ?_⟩
  all_goals simp [Cpu.run, switchRestore, Cpu.exec, Cpu.setReg, Cpu.setMem, heip, hesp, hebx, hecx,
    hedx, hesi, hedi, hebp]

/-- The arguments are on the stack, so they are still there when the registers are saved. -/
theorem load_saved {c : Cpu} {src k : Word}
    (happart : Disjoint (bytes src SIZEOF_CONTEXT) (bytes (c.reg .esp) 12)) (hk : k.toNat + 4 ≤ 12)
    (ctx : SwitchContext) :
    load (storeWords c.mem src ctx.words) (c.reg .esp + k) = load c.mem (c.reg .esp + k) := by
  apply load_congr
  intro x hx
  refine storeWords_off (fun hx' => ?_) ctx.words_le
  exact Set.disjoint_left.mp happart hx' (bytes_subset hk (by omega) hx)

/-- `switch_to(src, dst)`, when `ctx` is at `dst` once the registers are saved. -/
theorem run_switchTo {c : Cpu} {src dst : Word} {ctx : SwitchContext}
    (hsrc : load c.mem (c.reg .esp + 4#32) = src) (hdst : load c.mem (c.reg .esp + 8#32) = dst)
    (happart : Disjoint (bytes src SIZEOF_CONTEXT) (bytes (c.reg .esp) 12))
    (hctx : Holds (storeWords c.mem src (callContext c).words) dst ctx.words) :
    Resumed ctx (c.run switchToCode) ∧ (c.run switchToCode).mem =
      store (storeWords c.mem src (callContext c).words) (ctx.esp - 4#32) ctx.eip := by
  have hrestore : ∀ d : Cpu, d.mem = storeWords c.mem src (callContext c).words →
      d.reg .esp = c.reg .esp + 4#32 → Resumed ctx (d.run switchRestore) ∧
        (d.run switchRestore).mem = store d.mem (ctx.esp - 4#32) ctx.eip := by
    intro d hmem hesp
    apply run_switchRestore
    -- behind the pop, the second argument is 4 bytes up
    have harg : c.reg .esp + 4#32 + 4#32 = c.reg .esp + 8#32 := BitVec.add_assoc ..
    rw [hmem, hesp, harg, load_saved happart (by decide), hdst]
    exact hctx
  rw [switchToCode, Cpu.run_append, run_switchSave, hsrc]
  apply hrestore
  · rfl
  · simp only [Function.update_self]

/-! ## Many processes -/

/-- Where the processes have their contexts and stacks. -/
structure Layout (ι : Type*) where
  context : ι → Word
  stack : ι → Set Word
  contextsApart : ∀ i j, i ≠ j →
    Disjoint (bytes (context i) SIZEOF_CONTEXT) (bytes (context j) SIZEOF_CONTEXT)
  stacksApart : ∀ i j, i ≠ j → Disjoint (stack i) (stack j)
  apart : ∀ i j, Disjoint (bytes (context i) SIZEOF_CONTEXT) (stack j)

/-- The CPU, and for each process that waits in `switch_to` the CPU as it was when it called. -/
structure Processes (ι : Type*) where
  cpu : Cpu
  waiting : ι → Option Cpu

namespace Processes

variable {ι : Type*} {L : Layout ι} {w w' : Processes ι} {i p q : ι} {c : Cpu}

/-- `from` is at the first instruction of `switch_to(from, to)`: its stack has the return address
and the two arguments. -/
structure AtSwitch (L : Layout ι) (c : Cpu) (p q : ι) : Prop where
  frame : bytes (c.reg .esp) 12 ⊆ L.stack p
  fromArg : load c.mem (c.reg .esp + 4#32) = L.context p
  toArg : load c.mem (c.reg .esp + 8#32) = L.context q

/-- Nobody has written the context of `i`, nor its stack from its saved stack pointer minus 4 on,
where the call had the return address. -/
structure Untouched (L : Layout ι) (i : ι) (call : Cpu) (m m' : Memory) : Prop where
  context : ∀ x ∈ bytes (L.context i) SIZEOF_CONTEXT, m' x = m x
  stack : ∀ x ∈ L.stack i, call.reg .esp ≤ x → m' x = m x

/-- The process that calls waits from now on; the other one does not. -/
def switched [DecidableEq ι] (w : Processes ι) (p q : ι) : Processes ι where
  cpu := w.cpu.run switchToCode
  waiting := Function.update (Function.update w.waiting p (some w.cpu)) q none

/-- A process computes, and leaves those that wait alone; or it calls `switch_to`. A process that
does not wait is switched to for the first time, with the stack that it was given. -/
inductive Step [DecidableEq ι] (L : Layout ι) : Processes ι → Processes ι → Prop
  | compute {w : Processes ι} {c : Cpu}
      (huntouched : ∀ i call, w.waiting i = some call → Untouched L i call w.cpu.mem c.mem) :
      Step L w { w with cpu := c }
  | switch {w : Processes ι} {p q : ι} (hcall : AtSwitch L w.cpu p q)
      (hfresh : p ≠ q → w.waiting q = none →
        bytes (load w.cpu.mem (L.context q + 4#32) - 4#32) 4 ⊆ L.stack q) :
      Step L w (w.switched p q)

/-- The memory of a process that waits. -/
structure Kept (L : Layout ι) (i : ι) (call : Cpu) (m : Memory) : Prop where
  holds : Holds m (L.context i) (callContext call).words
  slot : bytes (call.reg .esp) 4 ⊆ L.stack i
  stack : ∀ x ∈ L.stack i, call.reg .esp ≤ x → m x = call.mem x

/-- Everybody who waits has kept what he saved. -/
def Inv (L : Layout ι) (w : Processes ι) : Prop :=
  ∀ i call, w.waiting i = some call → Kept L i call w.cpu.mem

theorem Kept.untouched {call : Cpu} {m m' : Memory} (h : Kept L i call m)
    (hu : Untouched L i call m m') : Kept L i call m' := by
  refine ⟨h.holds.congr (SwitchContext.words_le _) hu.context, h.slot, fun x hx hle => ?_⟩
  rw [hu.stack x hx hle, h.stack x hx hle]

/-- The others keep what they have when a word of the stack of `q` is written. -/
theorem Kept.store_stack {call : Cpu} {m : Memory} {a v : Word} (h : Kept L i call m)
    (ha : bytes a 4 ⊆ L.stack q) (hne : i ≠ q) : Kept L i call (store m a v) := by
  apply h.untouched
  constructor
  · intro x hx
    exact store_off fun hx' => Set.disjoint_left.mp (L.apart i q) hx (ha hx')
  · intro x hx _
    exact store_off fun hx' => Set.disjoint_left.mp (L.stacksApart i q hne) hx (ha hx')

/-- What `switch_to` does when `ctx` is in the context of `q` by then. -/
theorem AtSwitch.run (hcall : AtSwitch L w.cpu p q) {ctx : SwitchContext}
    (hctx : Holds (storeWords w.cpu.mem (L.context p) (callContext w.cpu).words) (L.context q)
      ctx.words) :
    Resumed ctx (w.cpu.run switchToCode) ∧ (w.cpu.run switchToCode).mem =
      store (storeWords w.cpu.mem (L.context p) (callContext w.cpu).words) (ctx.esp - 4#32)
        ctx.eip := by
  apply run_switchTo hcall.fromArg hcall.toArg _ hctx
  exact (L.apart p p).mono_right hcall.frame

variable [DecidableEq ι]

/-- The saved context of `q` after the registers of `p` were saved; `p` itself may be `q`. -/
theorem Inv.kept_saved (h : Inv L w) (hcall : AtSwitch L w.cpu p q) {call : Cpu}
    (hq : Function.update w.waiting p (some w.cpu) i = some call) :
    Kept L i call (storeWords w.cpu.mem (L.context p) (callContext w.cpu).words) := by
  -- only the context of `p` is written
  have hstack : ∀ x ∈ L.stack i, storeWords w.cpu.mem (L.context p) (callContext w.cpu).words x =
      w.cpu.mem x := by
    intro x hx
    refine storeWords_off (fun hx' => ?_) (SwitchContext.words_le _)
    exact Set.disjoint_left.mp (L.apart p i) hx' hx
  by_cases hip : i = p
  · subst hip
    rw [Function.update_self] at hq
    obtain rfl := Option.some.inj hq
    refine ⟨holds_storeWords (SwitchContext.words_le _), fun x hx => ?_, fun x hx _ => hstack x hx⟩
    rw [mem_bytes] at hx
    exact hcall.frame (mem_bytes.mpr (by omega))
  · rw [Function.update_of_ne hip] at hq
    apply (h i call hq).untouched
    refine ⟨fun x hx => ?_, fun x hx _ => hstack x hx⟩
    refine storeWords_off (fun hx' => ?_) (SwitchContext.words_le _)
    exact Set.disjoint_left.mp (L.contextsApart i p hip) hx hx'

theorem sub_add_slot (a : Word) : a + 4#32 - 4#32 = a := BitVec.add_sub_cancel ..

/-- The process that is resumed has its registers, and the stack that it left. -/
theorem Inv.resumed (h : Inv L w) (hcall : AtSwitch L w.cpu p q) {call : Cpu}
    (hq : Function.update w.waiting p (some w.cpu) q = some call) :
    Resumed (callContext call) (w.cpu.run switchToCode) ∧
      ∀ x ∈ L.stack q, call.reg .esp ≤ x → (w.cpu.run switchToCode).mem x = call.mem x := by
  have hkept := h.kept_saved hcall hq
  obtain ⟨hresumed, hmem⟩ := hcall.run hkept.holds
  refine ⟨hresumed, fun x hx hle => ?_⟩
  have hesp : (callContext call).esp - 4#32 = call.reg .esp := sub_add_slot _
  rw [hmem, hesp]
  -- the return address is pushed where it was
  by_cases hslot : x ∈ bytes (call.reg .esp) 4
  · exact store_eq rfl hslot
  · rw [store_off hslot, hkept.stack x hx hle]

/-- `push` writes into the stack of the process that runs next. -/
theorem Inv.switched (h : Inv L w) (hcall : AtSwitch L w.cpu p q)
    (hfresh : p ≠ q → w.waiting q = none →
      bytes (load w.cpu.mem (L.context q + 4#32) - 4#32) 4 ⊆ L.stack q) :
    Inv L (w.switched p q) := by
  obtain ⟨ctx, hctx, hslot⟩ : ∃ ctx : SwitchContext,
      Holds (storeWords w.cpu.mem (L.context p) (callContext w.cpu).words) (L.context q)
        ctx.words ∧ bytes (ctx.esp - 4#32) 4 ⊆ L.stack q := by
    cases hq : Function.update w.waiting p (some w.cpu) q with
    | some call =>
      have hkept := h.kept_saved hcall hq
      refine ⟨callContext call, hkept.holds, ?_⟩
      have hesp : (callContext call).esp - 4#32 = call.reg .esp := sub_add_slot _
      rw [hesp]
      exact hkept.slot
    | none =>
      have hne : q ≠ p := by
        rintro rfl
        rw [Function.update_self] at hq
        exact absurd hq (by simp)
      rw [Function.update_of_ne hne] at hq
      obtain ⟨ctx, hctx⟩ := exists_context
        (storeWords w.cpu.mem (L.context p) (callContext w.cpu).words) (L.context q)
      -- the context of another process is as it was
      have hesp : ctx.esp = load w.cpu.mem (L.context q + 4#32) := by
        rw [← hctx.2.1]
        apply load_congr
        intro x hx
        refine storeWords_off (fun hx' => ?_) (SwitchContext.words_le _)
        have hx := bytes_subset (k := SIZEOF_CONTEXT) (by decide) (by decide) hx
        exact Set.disjoint_left.mp (L.contextsApart q p hne) hx hx'
      refine ⟨ctx, hctx, ?_⟩
      rw [hesp]
      exact hfresh (Ne.symm hne) hq
  obtain ⟨-, hmem⟩ := hcall.run hctx
  intro i call hi
  have hiq : i ≠ q := by
    rintro rfl
    have hnone : (w.switched p i).waiting i = none := Function.update_self ..
    rw [hnone] at hi
    exact absurd hi (by simp)
  have hwait : Function.update w.waiting p (some w.cpu) i = some call := by
    rw [← hi]
    exact (Function.update_of_ne hiq ..).symm
  show Kept L i call (w.cpu.run switchToCode).mem
  rw [hmem]
  exact (h.kept_saved hcall hwait).store_stack hslot hiq

theorem Inv.step (h : Inv L w) (hstep : Step L w w') : Inv L w' := by
  cases hstep with
  | compute huntouched => exact fun i call hi => (h i call hi).untouched (huntouched i call hi)
  | switch hcall hfresh => exact h.switched hcall hfresh

theorem Inv.run (h : Inv L w) (hr : Relation.ReflTransGen (Step L) w w') : Inv L w' := by
  induction hr with
  | refl => exact h
  | tail _ hstep ih => exact ih.step hstep

/-- In every run in which at first nobody waits: when `switch_to` is called for a process that
waits since its own call (or for the caller itself), execution continues behind that call, with
the registers as they were and the stack pointer above the return address; and the stack is as it
was from the return address on. -/
theorem switchTo_transparent {w₀ : Processes ι} (h₀ : ∀ i, w₀.waiting i = none)
    (hr : Relation.ReflTransGen (Step L) w₀ w) (hcall : AtSwitch L w.cpu p q) {call : Cpu}
    (hq : Function.update w.waiting p (some w.cpu) q = some call) :
    (w.cpu.run switchToCode).eip = load call.mem (call.reg .esp) ∧
      (w.cpu.run switchToCode).reg .esp = call.reg .esp + 4#32 ∧
      (∀ r ∈ [Reg.ebx, .ecx, .edx, .esi, .edi, .ebp],
        (w.cpu.run switchToCode).reg r = call.reg r) ∧
      ∀ x ∈ L.stack q, call.reg .esp ≤ x → (w.cpu.run switchToCode).mem x = call.mem x := by
  have hinit : Inv L w₀ := by
    intro i call hi
    rw [h₀ i] at hi
    exact absurd hi (by simp)
  obtain ⟨hresumed, hstack⟩ := (hinit.run hr).resumed hcall hq
  refine ⟨hresumed.eip, hresumed.esp, fun r hr => ?_, hstack⟩
  simp only [List.mem_cons, List.not_mem_nil, or_false] at hr
  rcases hr with rfl | rfl | rfl | rfl | rfl | rfl
  · exact hresumed.ebx
  · exact hresumed.ecx
  · exact hresumed.edx
  · exact hresumed.esi
  · exact hresumed.edi
  · exact hresumed.ebp

/-! ### Two processes -/

/-- Contexts and stacks of two processes, a page each. -/
def sampleLayout : Layout Bool where
  context i := if i then 0x2000#32 else 0x1000#32
  stack i := if i then bytes 0x9000#32 4096 else bytes 0x8000#32 4096
  contextsApart i j hij := by
    have h : Disjoint (bytes 0x1000#32 SIZEOF_CONTEXT)
      (bytes (0x1000#32 + 0x1000#32) SIZEOF_CONTEXT) := bytes_disjoint (by decide) (by decide)
    cases i <;> cases j
    · exact absurd rfl hij
    · exact h
    · exact h.symm
    · exact absurd rfl hij
  stacksApart i j hij := by
    have h : Disjoint (bytes 0x8000#32 4096) (bytes (0x8000#32 + 0x1000#32) 4096) :=
      bytes_disjoint (by decide) (by decide)
    cases i <;> cases j
    · exact absurd rfl hij
    · exact h
    · exact h.symm
    · exact absurd rfl hij
  apart i j := by
    cases i <;> cases j
    · exact bytes_disjoint (d := 0x7000#32) (by decide) (by decide)
    · exact bytes_disjoint (d := 0x8000#32) (by decide) (by decide)
    · exact bytes_disjoint (d := 0x6000#32) (by decide) (by decide)
    · exact bytes_disjoint (d := 0x7000#32) (by decide) (by decide)

/-- The first process calls `switch_to` from `0x111`, with 5 in `ebx`; the second one is new. -/
def sampleCall : Cpu where
  reg r := if r = .esp then 0x8F00#32 else if r = .ebx then 5#32 else 0#32
  eip := 0#32
  mem := storeWords (storeWords (fun _ => 0#8) 0x8F00#32 [0x111#32, 0x1000#32, 0x2000#32]) 0x2000#32
    [0x222#32, 0x9F00#32]

/-- The second one calls `switch_to` in turn, with 77 in `ebx`. -/
def sampleReturn : Cpu where
  reg r := if r = .esp then 0x9E00#32 else 77#32
  eip := 0#32
  mem := storeWords (sampleCall.run switchToCode).mem 0x9E00#32 [0x333#32, 0x2000#32, 0x1000#32]

def sampleStart : Processes Bool := ⟨sampleCall, fun _ => none⟩

def sampleEnd : Processes Bool := { sampleStart.switched false true with cpu := sampleReturn }

/-- The first process is resumed. -/
theorem switchTo_transparent_sample : (sampleReturn.run switchToCode).eip = 0x111#32 ∧
    (sampleReturn.run switchToCode).reg .ebx = 5#32 ∧
    (sampleReturn.run switchToCode).reg .esp = 0x8F04#32 := by
  have hframe : bytes 0x8F00#32 12 ⊆ bytes 0x8000#32 4096 :=
    bytes_subset (a := 0x8000#32) (d := 0xF00#32) (by decide) (by decide)
  have hframe' : bytes 0x9E00#32 12 ⊆ bytes 0x9000#32 4096 :=
    bytes_subset (a := 0x9000#32) (d := 0xE00#32) (by decide) (by decide)
  have hslot : bytes 0x9EFC#32 4 ⊆ bytes 0x9000#32 4096 :=
    bytes_subset (a := 0x9000#32) (d := 0xEFC#32) (by decide) (by decide)
  have hcall : AtSwitch sampleLayout sampleCall false true :=
    ⟨hframe, by decide +kernel, by decide +kernel⟩
  have hreturn : AtSwitch sampleLayout sampleReturn true false :=
    ⟨hframe', by decide +kernel, by decide +kernel⟩
  have hesp : load sampleCall.mem (sampleLayout.context true + 4#32) - 4#32 = 0x9EFC#32 := by
    decide +kernel
  -- the new process writes its stack only
  have hoff : ∀ x, x ∉ bytes 0x9000#32 4096 →
      sampleReturn.mem x = (sampleCall.run switchToCode).mem x := by
    intro x hx
    exact storeWords_off (fun hx' => hx (hframe' hx')) (by decide)
  have hfirst : Step sampleLayout sampleStart (sampleStart.switched false true) := by
    apply Step.switch hcall
    intro _ _
    show bytes (load sampleCall.mem (sampleLayout.context true + 4#32) - 4#32) 4 ⊆ _
    rw [hesp]
    exact hslot
  have hsecond : Step sampleLayout (sampleStart.switched false true) sampleEnd := by
    apply Step.compute
    intro i call hi
    constructor
    · intro x hx
      exact hoff x fun hx' => Set.disjoint_left.mp (sampleLayout.apart i true) hx hx'
    · intro x hx _
      cases i with
      | false => exact hoff x fun hx' =>
          Set.disjoint_left.mp (sampleLayout.stacksApart false true (by decide)) hx hx'
      | true => exact absurd hi (by simp [switched])
  have hrun : Relation.ReflTransGen (Step sampleLayout) sampleStart sampleEnd :=
    (Relation.ReflTransGen.single hfirst).tail hsecond
  have hwaits : Function.update sampleEnd.waiting true (some sampleReturn) false =
    some sampleCall := rfl
  obtain ⟨heip, hesp', hregs, -⟩ := switchTo_transparent (fun _ => rfl) hrun hreturn hwaits
  exact ⟨heip, hregs .ebx (by simp), hesp'⟩

end Processes
end Zonix
