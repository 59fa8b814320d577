import Zonix.Sched.Scheduling

/-!
# The interrupt flag across switches

`IF` is one bit of the CPU, and each process keeps the value it has to go back to in two local
variables on its own stack. `Recorded` writes down the value beside the system when a process
leaves the CPU. `Asleep` says what the stack of a process that is not `current` leads to: the
value recorded, or for a forked process that has not run yet a trap frame with `IF` set, in a page
that nobody else has.
-/

namespace Zonix
open Lib

/-! ## The frame on a new stack -/

section Stack
variable {kst : ℕ} (hlow : kst < 2 ^ 20)
include hlow

/-- Where `copy_thread` puts the trap frame: at the end of the stack page, in the direct map. -/
theorem stackFrame_kva : (page2kva kst + KSTACK_SIZE - SIZEOF_TRAP_FRAME).toNat =
    (0xC0000000 + kst * 4096 + 4036) % 2 ^ 32 := by
  have hpa := page2pa_toNat hlow
  have hsize : KSTACK_SIZE.toNat = 4096 := rfl
  have hframe : SIZEOF_TRAP_FRAME.toNat = 60 := rfl
  have hbase : KERNEL_BASE.toNat = 0xC0000000 := rfl
  unfold page2kva
  rw [BitVec.toNat_sub, BitVec.toNat_add, BitVec.toNat_add, hpa, hsize, hframe, hbase]
  omega

theorem kva2page_stackFrame :
    kva2page (page2kva kst + KSTACK_SIZE - SIZEOF_TRAP_FRAME) = kst := by
  have hkva := stackFrame_kva hlow
  have hbase : KERNEL_BASE.toNat = 0xC0000000 := rfl
  unfold kva2page pa2page
  rw [pagNum_eq, BitVec.toNat_sub, hkva, hbase]
  omega

theorem stackFrame_index :
    (page2kva kst + KSTACK_SIZE - SIZEOF_TRAP_FRAME).toNat % 4096 / 4 = 1009 := by
  rw [stackFrame_kva hlow]
  omega

end Stack

namespace Sched

variable {s t u : Sched} {ram : Set ℕ} {procs : List ℕ} {proc kst p q next : ℕ} {esp : Word}
  {saved : ℕ → Option Bool}

/-- `tf_eflags` of the frame at `esp` -/
def frameEflags (s : Sched) (esp : Word) : Word :=
  s.vm.mem (kva2page esp) (esp.toNat % 4096 / 4 + EFLAGS_WORD)

/-- A frame as `copy_thread` left it. -/
structure FrameReady (s : Sched) (esp : Word) : Prop where
  ifSet : s.frameEflags esp &&& FL_IF ≠ 0#32
  taken : kva2page esp ∉ s.vm.pmm.freePages

theorem FrameReady.congr (h : s.FrameReady esp) (hmem : t.vm.mem = s.vm.mem)
    (hpmm : t.vm.pmm = s.vm.pmm) : t.FrameReady esp := by
  constructor
  · unfold frameEflags
    rw [hmem]
    exact h.ifSet
  · rw [hpmm]
    exact h.taken

section Forked
variable {stack : Word} {tf : TrapFrame}

/-- `do_fork` writes nothing but the new stack page, which was free. -/
theorem Forked.mem_of_ne (h : s.Forked stack tf proc kst t) (hlow : kst < 2 ^ 20) {f : ℕ}
    (hf : f ≠ kst) : t.vm.mem f = s.vm.mem f := by
  rw [h.mem, Vm.storeTrapFrame, kva2page_stackFrame hlow]
  exact Function.update_of_ne hf ..

theorem Forked.frameReady (h : s.Forked stack tf proc kst t) (hlow : kst < 2 ^ 20) :
    t.FrameReady (page2kva kst + KSTACK_SIZE - SIZEOF_TRAP_FRAME) := by
  constructor
  · have hword : t.frameEflags (page2kva kst + KSTACK_SIZE - SIZEOF_TRAP_FRAME) =
        tf.eflags ||| 0x200#32 := by
      unfold frameEflags
      rw [h.mem, Vm.storeTrapFrame, kva2page_stackFrame hlow, stackFrame_index hlow,
        Vm.setFrame_mem, if_pos rfl]
      rfl
    rw [hword, FL_IF]
    intro hzero
    -- bit 9 is set
    have hbit := congrArg (BitVec.getLsbD · 9) hzero
    simp at hbit
  · rw [h.freePages, kva2page_stackFrame hlow]
    simp

theorem FrameReady.forked (h : s.FrameReady esp) (hf : s.Forked stack tf proc kst t)
    (hlow : kst < 2 ^ 20) : t.FrameReady esp := by
  have hne : kva2page esp ≠ kst := fun heq => h.taken (heq ▸ hf.kstFree)
  constructor
  · unfold frameEflags
    rw [hf.mem_of_ne hlow hne]
    exact h.ifSet
  · rw [hf.freePages]
    exact fun hmem => h.taken hmem.1

end Forked

/-! ## The stacks of the others -/

/-- What brings `IF` back when `p` runs again. -/
def Asleep (s : Sched) (saved : ℕ → Option Bool) (p : ℕ) : Prop :=
  (∃ esp, (s.task p).context = .forkret esp ∧ saved p = none ∧ s.FrameReady esp) ∨
    ∃ b, saved p = some b ∧ (s.task p).context = .switchTo [0#32, if b then 1#32 else 0#32]

theorem intrSave_fst (s : Sched) : s.intrSave.1 = if decide s.IfSet then 1#32 else 0#32 := by
  by_cases h : s.IfSet
  · rw [intrSave_of_set h, decide_eq_true h]
    rfl
  · rw [intrSave_of_not_set h, decide_eq_false h]
    rfl

/-- The flags on the stack decide about `IF` when it is off before. -/
theorem ifSet_restoreAll (h : ¬ s.IfSet) (b : Bool) :
    (s.restoreAll [0#32, if b then 1#32 else 0#32]).IfSet ↔ b = true := by
  rw [restoreAll_eq]
  cases b with
  | false => exact iff_of_false h (by simp)
  | true =>
    refine iff_of_true ?_ rfl
    show (s.eflags ||| FL_IF) &&& FL_IF ≠ 0#32
    intro hzero
    have hbit := congrArg (BitVec.getLsbD · 9) hzero
    simp [FL_IF] at hbit

/-- A process that is switched to finds the value that was recorded for it; a forked process
begins with `IF` set. -/
theorem Asleep.resumes (h : s.Asleep saved p)
    (hr : s.intrSave.2.Resumes (s.task p).context t.eflags) :
    (∃ esp, (s.task p).context = .forkret esp ∧ saved p = none ∧ t.IfSet) ∨
      ∃ b, saved p = some b ∧ (t.IfSet ↔ b = true) := by
  rcases h with ⟨esp, hcontext, hnone, hframe⟩ | ⟨b, hsome, hcontext⟩
  · refine Or.inl ⟨esp, hcontext, hnone, ?_⟩
    rw [hcontext] at hr
    have heflags : t.eflags = s.intrSave.2.frameEflags esp := hr
    unfold IfSet
    rw [heflags, frameEflags, intrSave_vm]
    exact hframe.ifSet
  · refine Or.inr ⟨b, hsome, ?_⟩
    rw [hcontext] at hr
    have heflags : t.eflags = (s.intrSave.2.restoreAll _).eflags := hr
    rw [IfSet, heflags]
    exact ifSet_restoreAll s.intrSave_clear b

theorem Asleep.congr (h : s.Asleep saved p) (hcontext : (t.task p).context = (s.task p).context)
    (hmem : t.vm.mem = s.vm.mem) (hpmm : t.vm.pmm = s.vm.pmm) : t.Asleep saved p := by
  unfold Asleep
  rw [hcontext]
  rcases h with ⟨esp, hesp, hnone, hframe⟩ | hsome
  · exact Or.inl ⟨esp, hesp, hnone, hframe.congr hmem hpmm⟩
  · exact Or.inr hsome

/-- The record after a step from `s` to `t`. -/
def noteIf (s : Sched) (saved : ℕ → Option Bool) (t : Sched) : ℕ → Option Bool :=
  if t.current = s.current then saved
  else Function.update saved s.current (some (decide s.IfSet))

theorem Sane.schedule_asleep (h : s.Sane ram procs)
    (hasleep : ∀ p ∈ procs, p ≠ s.current → s.Asleep saved p) (heq : s.schedule = some t) :
    ∀ p ∈ procs, p ≠ t.current → t.Asleep (s.noteIf saved t) p := by
  have hs := h.toTable.schedule_spec heq
  intro p hp hne
  by_cases hkept : t.current = s.current
  · have hcontext := hs.context p
    rw [if_neg fun hn => hn.1 (hs.current ▸ hkept)] at hcontext
    rw [noteIf, if_pos hkept]
    exact (hasleep p hp (hkept ▸ hne)).congr hcontext hs.mem hs.pmm
  · have hnext : s.choice procs ≠ s.current := hs.current ▸ hkept
    have hcontext := hs.context p
    rw [noteIf, if_neg hkept]
    by_cases hcur : p = s.current
    · -- the process that left; `proc_run` found the flag off, `schedule` as it was
      rw [if_pos ⟨hnext, hcur⟩, intrSave_fst] at hcontext
      refine Or.inr ⟨decide s.IfSet, ?_, hcontext⟩
      rw [hcur]
      exact Function.update_self ..
    · rw [if_neg fun hn => hcur hn.2] at hcontext
      have hsame : Function.update saved s.current (some (decide s.IfSet)) p = saved p :=
        Function.update_of_ne hcur ..
      unfold Asleep
      rw [hsame]
      exact (hasleep p hp hcur).congr hcontext hs.mem hs.pmm

/-- `schedule` that comes back in the process that called it, and in another one. -/
theorem Sane.schedule_if (h : s.Sane ram procs)
    (hasleep : ∀ p ∈ procs, p ≠ s.current → s.Asleep saved p) (heq : s.schedule = some t) :
    (t.current = s.current → (t.IfSet ↔ s.IfSet)) ∧ (t.current ≠ s.current →
      (∃ esp, (s.task t.current).context = .forkret esp ∧ saved t.current = none ∧ t.IfSet) ∨
        ∃ b, saved t.current = some b ∧ (t.IfSet ↔ b = true)) := by
  have hs := h.toTable.schedule_spec heq
  constructor
  · intro hkept
    unfold IfSet
    rw [hs.kept (hs.current ▸ hkept)]
  · intro hne
    rw [hs.current] at hne ⊢
    exact (hasleep _ h.choice_mem hne).resumes (hs.resumes hne)

/-- `IF` is off whenever `switch_to` is called. -/
theorem beforeSwitch_if {flag : Word} (h : s.beforeSwitch p = some (flag, u)) : ¬ u.IfSet := by
  rw [beforeSwitch_eq, Option.bind_eq_some_iff] at h
  obtain ⟨next, -, h⟩ := h
  rw [Option.bind_eq_some_iff] at h
  obtain ⟨prev, -, h⟩ := h
  obtain ⟨-, rfl⟩ := Prod.mk.inj (Option.some.inj h)
  exact s.intrSave_clear

end Sched

/-! ## Runs -/

/-- The system, and the value of `IF` with which each process that is not `current` made the call
that it is waiting in. -/
structure Recorded where
  sys : Sched
  saved : ℕ → Option Bool

namespace Recorded

variable {r r' : Recorded} {ram : Set ℕ} {procs : List ℕ} {p : ℕ}

/-- The process that leaves the CPU is recorded. -/
def exec (r : Recorded) (op : SchedOp) : Option Recorded := do
  let t ← r.sys.exec op
  some ⟨t, r.sys.noteIf r.saved t⟩

def SchedOk (r : Recorded) (op : SchedOp) : Prop := r.sys.SchedOk op

structure Inv (r : Recorded) (ram : Set ℕ) (procs : List ℕ) : Prop where
  sane : r.sys.Sane ram procs
  alive : r.sys.Alive
  low : ∀ p ∈ ram, p < 2 ^ 20
  asleep : ∀ p ∈ procs, p ≠ r.sys.current → r.sys.Asleep r.saved p
  unknown : ∀ p, p ∉ procs → r.saved p = none

/-- `sched_init` came back, and nobody waits yet. -/
def Started (r : Recorded) (ram : Set ℕ) : Prop := r.sys.Started ram ∧ r.saved = fun _ => none

namespace Inv

theorem asleep_exited {u : Sched} {code : ℤ} (h : r.Inv ram procs) (he : r.sys.Exited code u) :
    ∀ p ∈ procs, p ≠ u.current → u.Asleep r.saved p := by
  intro p hp hne
  rw [he.current_eq] at hne
  have hcontext := he.same TaskStruct.context (fun _ => rfl) (fun _ => rfl) p
  have hmem : u.vm.mem = r.sys.vm.mem := by
    rw [he.tasks]
    rfl
  exact (h.asleep p hp hne).congr hcontext hmem he.sameTable.pmm

/-- Steps after which the same processes are there. -/
theorem same {t : Sched} {saved : ℕ → Option Bool} (h : r.Inv ram procs) (hsane : t.Sane ram procs)
    (halive : t.Alive) (hasleep : ∀ p ∈ procs, p ≠ t.current → t.Asleep saved p)
    (hsaved : ∀ p, p ∉ procs → saved p = r.saved p) : Inv ⟨t, saved⟩ ram procs :=
  ⟨hsane, halive, h.low, hasleep, fun p hp => (hsaved p hp).trans (h.unknown p hp)⟩

/-- Only a process of the table is recorded. -/
theorem noteIf_unknown {s t : Sched} (h : r.Inv ram procs) (hcur : s.current = r.sys.current) :
    ∀ p, p ∉ procs → s.noteIf r.saved t p = r.saved p := by
  intro p hp
  unfold Sched.noteIf
  split_ifs
  · rfl
  · refine Function.update_of_ne (fun heq => hp ?_) ..
    rw [heq, hcur]
    exact h.sane.toTable.current

theorem forked {stack : Word} {tf : TrapFrame} {proc kst : ℕ} {t : Sched} (h : r.Inv ram procs)
    (hf : r.sys.Forked stack tf proc kst t) (halive : t.Alive) :
    Inv ⟨t, r.saved⟩ ram (proc :: procs) := by
  have hnew := h.sane.toTable.new hf
  obtain ⟨bs, hinv⟩ := h.sane.free
  have hlow : kst < 2 ^ 20 := h.low kst (hinv.mem_ram hf.kstFree)
  refine ⟨h.sane.forked hf, halive, h.low, fun p hp hne => ?_, fun p hp => ?_⟩
  · by_cases hpp : p = proc
    · refine Or.inl ⟨_, hpp ▸ hf.child_context, ?_, hf.frameReady hlow⟩
      exact h.unknown p (hpp ▸ hnew)
    · have hold : p ∈ procs := List.mem_of_ne_of_mem hpp hp
      have hcontext := TaskStruct.core_congr TaskStruct.context (fun _ => rfl) (hf.others p hpp)
      have hne' : p ≠ r.sys.current := hf.current ▸ hne
      show t.Asleep r.saved p
      unfold Sched.Asleep
      rw [hcontext]
      rcases h.asleep p hold hne' with ⟨esp, hesp, hnone, hframe⟩ | hsome
      · exact Or.inl ⟨esp, hesp, hnone, hframe.forked hf hlow⟩
      · exact Or.inr hsome
  · exact h.unknown p fun hmem => hp (List.mem_cons_of_mem proc hmem)

theorem exec {op : SchedOp} (h : r.Inv ram procs) (hok : r.SchedOk op)
    (heq : r.exec op = some r') : ∃ procs', r'.Inv ram procs' := by
  obtain ⟨t, ht, heq⟩ := Option.bind_eq_some_iff.mp heq
  obtain rfl := Option.some.inj heq
  obtain ⟨_, -, halive⟩ := h.sane.exec h.alive hok ht
  cases op with
  | fork cloneFlags stack tf =>
    obtain ⟨⟨pid, u⟩, hfork, rfl⟩ := Option.map_eq_some_iff.mp ht
    obtain ⟨-, proc, kst, hf, -⟩ := h.sane.doFork hfork
    rw [Sched.noteIf, if_pos hf.current]
    exact ⟨proc :: procs, h.forked hf halive⟩
  | exit code =>
    obtain ⟨u, hbody, hsched, -⟩ := Sched.doExit_eq_some ht
    obtain ⟨he, hu⟩ := h.sane.exitBody hbody
    have hif : u.IfSet ↔ r.sys.IfSet := by
      rw [he.tasks]
      rfl
    -- `schedule` is called with the flag that `do_exit` was called with
    have hnote : r.sys.noteIf r.saved t = u.noteIf r.saved t := by
      simp only [Sched.noteIf, he.current_eq, hif]
    rw [hnote]
    exact ⟨procs, h.same (hu.schedule hsched) halive
      (hu.schedule_asleep (h.asleep_exited he) hsched) (h.noteIf_unknown he.current_eq)⟩
  | schedule =>
    exact ⟨procs, h.same (h.sane.schedule ht) halive (h.sane.schedule_asleep h.asleep ht)
      (h.noteIf_unknown rfl)⟩
  | wakeup q =>
    have hsane := h.sane.wakeup ht
    obtain ⟨-, rfl⟩ := Sched.wakeupProc_eq_some ht
    have hkept : r.sys.noteIf r.saved (r.sys.setState q .runnable) = r.saved := if_pos rfl
    rw [hkept]
    refine ⟨procs, h.same hsane halive (fun p hp hne => ?_) fun p _ => rfl⟩
    refine (h.asleep p hp hne).congr ?_ rfl rfl
    exact Sched.setState_keeps TaskStruct.context .runnable fun _ _ => rfl
  | run q => exact absurd rfl (hok.2 q)
  | intr on =>
    obtain rfl := Option.some.inj ht
    have hkept : r.sys.noteIf r.saved (r.sys.setIf on) = r.saved := if_pos rfl
    rw [hkept]
    exact ⟨procs, h.same (h.sane.setEflags _) halive
      (fun p hp hne => (h.asleep p hp hne).congr rfl rfl rfl) fun p _ => rfl⟩

theorem run (h : r.Inv ram procs) (hr : Run Recorded.exec SchedOk r r') :
    ∃ procs', r'.Inv ram procs' := by
  refine hr.invariant (I := fun r => ∃ procs', r.Inv ram procs') ⟨procs, h⟩ ?_
  rintro u op v ⟨procs', hu⟩ hok heq
  exact hu.exec hok heq

end Inv

theorem Started.inv (h : r.Started ram) : ∃ procs, r.Inv ram procs := by
  obtain ⟨hstarted, hsaved⟩ := h
  obtain ⟨procs, hsane, halive⟩ := hstarted.sane
  obtain ⟨hlow, u, v, idle, init, kst, userStack, initMain, ho, hu, hf, hsys, htable⟩ :=
    hstarted.cases
  obtain ⟨bs, hinv⟩ := hu.free
  have hkst : kst < 2 ^ 20 := hlow kst (hinv.mem_ram hf.kstFree)
  refine ⟨procs, hsane, halive, hlow, fun p hp hne => ?_, fun p _ => congrFun hsaved p⟩
  have hmem : p ∈ [init, idle] := htable.mem_iff.mp (hsane.toTable.mem_iff.mpr hp)
  have hidle : r.sys.current = idle := by
    rw [hsys]
    exact hf.current.trans ho.current
  have hpinit : p = init := by
    rcases List.mem_cons.mp hmem with heq | hmem
    · exact heq
    · exact absurd (List.mem_singleton.mp hmem) (hidle ▸ hne)
  refine Or.inl ⟨page2kva kst + KSTACK_SIZE - SIZEOF_TRAP_FRAME, ?_, congrFun hsaved p, ?_⟩
  · rw [hsys, hpinit]
    exact hf.child_context
  · rw [hsys]
    exact (hf.frameReady hkst).congr rfl rfl

/-- In every run: a `schedule` that comes back in the process that called it leaves `IF` as it
was. When a step switches to another process, that process either returns from its own call and
finds `IF` as it was when it made the call, or it was forked and runs for the first time, with
`IF` set. And whatever the state, `proc_run` calls `switch_to` with `IF` clear. -/
theorem schedule_keeps_if {r₀ : Recorded} (h : r₀.Started ram)
    (hr : Run Recorded.exec SchedOk r₀ r) {op : SchedOp} (hok : r.SchedOk op)
    (heq : r.exec op = some r') :
    (op = .schedule → r'.sys.current = r.sys.current → (r'.sys.IfSet ↔ r.sys.IfSet)) ∧
      (r'.sys.current ≠ r.sys.current →
        (∃ b, r.saved r'.sys.current = some b ∧ (r'.sys.IfSet ↔ b = true)) ∨
          ∃ esp, (r.sys.task r'.sys.current).context = .forkret esp ∧
            r.saved r'.sys.current = none ∧ r'.sys.IfSet) ∧
      ∀ (s : Sched) proc flag u, s.beforeSwitch proc = some (flag, u) → ¬ u.IfSet := by
  obtain ⟨procs₀, h₀⟩ := h.inv
  obtain ⟨procs, hinv⟩ := h₀.run hr
  obtain ⟨t, ht, heq⟩ := Option.bind_eq_some_iff.mp heq
  obtain rfl := Option.some.inj heq
  refine ⟨?_, fun hne => ?_, fun s proc flag u => Sched.beforeSwitch_if⟩
  · rintro rfl hkept
    exact (hinv.sane.schedule_if hinv.asleep ht).1 hkept
  · have hstep : (∃ esp, (r.sys.task t.current).context = .forkret esp ∧
        r.saved t.current = none ∧ t.IfSet) ∨
        ∃ b, r.saved t.current = some b ∧ (t.IfSet ↔ b = true) := by
      cases op with
      | fork cloneFlags stack tf =>
        obtain ⟨⟨pid, u⟩, hfork, rfl⟩ := Option.map_eq_some_iff.mp ht
        obtain ⟨-, proc, kst, hf, -⟩ := hinv.sane.doFork hfork
        exact absurd hf.current hne
      | exit code =>
        obtain ⟨u, hbody, hsched, hcur⟩ := Sched.doExit_eq_some ht
        obtain ⟨he, hu⟩ := hinv.sane.exitBody hbody
        -- `do_exit` itself leaves the other contexts alone
        have hcontext := he.same TaskStruct.context (fun _ => rfl) (fun _ => rfl) t.current
        have hif := (hu.schedule_if (hinv.asleep_exited he) hsched).2 hcur
        rwa [hcontext] at hif
      | schedule => exact (hinv.sane.schedule_if hinv.asleep ht).2 hne
      | wakeup q =>
        obtain ⟨-, rfl⟩ := Sched.wakeupProc_eq_some ht
        exact absurd rfl hne
      | run q => exact absurd rfl (hok.2 q)
      | intr on =>
        obtain rfl := Option.some.inj ht
        exact absurd rfl hne
    exact hstep.symm

/-- `init` turns interrupts off and calls `schedule`; the process that it forked runs with
interrupts on, and exits. -/
theorem schedule_keeps_if_sample : ∃ s r r', Sched.sampleInit 12 = some s ∧
    [.intr true, .schedule, .intr false, Sched.forkOp, .schedule].foldlM exec ⟨s, fun _ => none⟩ =
      some r ∧ r.exec (.exit 0) = some r' ∧ r.sys.IfSet ∧ r'.sys.current = 5 ∧ ¬ r'.sys.IfSet := by
  have hsome : ((Sched.sampleInit 12).bind fun s =>
      ([.intr true, .schedule, .intr false, Sched.forkOp, .schedule].foldlM exec
        ⟨s, fun _ => none⟩).bind fun r => (r.exec (.exit 0)).map fun r' =>
          (decide r.sys.IfSet, r.sys.current, r.saved 5, r'.sys.current)) =
            some (true, 7, some false, 5) := by
    decide +kernel
  obtain ⟨s, hs, hsome⟩ := Option.bind_eq_some_iff.mp hsome
  obtain ⟨r, hr, hsome⟩ := Option.bind_eq_some_iff.mp hsome
  obtain ⟨r', hr', hfields⟩ := Option.map_eq_some_iff.mp hsome
  simp only [Prod.mk.injEq, decide_eq_true_eq] at hfields
  obtain ⟨hif, hcur, hsaved, hcur'⟩ := hfields
  have hstarted : Started ⟨s, fun _ => none⟩ (Set.Ico 4 (4 + 12)) :=
    ⟨Sched.sampleInit_started (by decide) (by decide) hs, rfl⟩
  have hallowed : Allowed exec SchedOk
      [.intr true, .schedule, .intr false, Sched.forkOp, .schedule] ⟨s, fun _ => none⟩ := by
    refine ⟨⟨trivial, ?_⟩, fun _ _ => ⟨⟨trivial, ?_⟩, fun _ _ => ⟨⟨trivial, ?_⟩,
      fun _ _ => ⟨⟨trivial, ?_⟩, fun _ _ => ⟨⟨trivial, ?_⟩, fun _ _ => trivial⟩⟩⟩⟩⟩
    all_goals simp [Sched.forkOp]
  have hok : r.SchedOk (.exit 0) := ⟨trivial, by simp⟩
  obtain ⟨-, hreturn, -⟩ := schedule_keeps_if hstarted (Run.of_foldlM hallowed hr) hok hr'
  have hne : r'.sys.current ≠ r.sys.current := by
    rw [hcur, hcur']
    decide
  refine ⟨s, r, r', hs, hr, hr', hif, hcur', fun hset => ?_⟩
  rw [hcur', hsaved] at hreturn
  rcases hreturn (hcur' ▸ hne) with ⟨b, hb, hiff⟩ | ⟨esp, -, hnone, -⟩
  · rw [← Option.some.inj hb] at hiff
    exact absurd (hiff.mp hset) (by decide)
  · exact absurd hnone (by simp)

end Recorded
end Zonix
