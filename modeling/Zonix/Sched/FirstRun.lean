import Zonix.Sched.Fork
import Zonix.Sched.Interrupts
import Zonix.Sched.Switch

/-!
# The first run of a forked thread

From `do_fork` on, the child's context leads to `forkret`, with the trap frame at the end of its
stack page, and nobody writes either of them until the child is switched to. `trapret` then takes
the registers out of the frame word for word. `Fresh` is what every run keeps; `InMemory` says where
the model's contexts and frames lie in the memory of the machine.
-/

namespace Zonix
open Lib X86

/-! ## The assembly -/

/-- `trapret`, which `forkret` falls into. -/
def trapretCode (m : Machine) : Machine :=
  let m := { m with cpu := m.cpu.popal }
  let m := { m with cpu := m.cpu.addEsp 8#32 }
  m.iret

/-- The machine runs where the trap frame `tf` says, with its registers. -/
structure Entered (tf : TrapFrame) (m : Machine) : Prop where
  eip : m.cpu.eip = tf.eip
  cs : m.cs = tf.cs
  eflags : m.eflags = tf.eflags
  edi : m.cpu.reg .edi = tf.regs.edi
  esi : m.cpu.reg .esi = tf.regs.esi
  ebp : m.cpu.reg .ebp = tf.regs.ebp
  ebx : m.cpu.reg .ebx = tf.regs.ebx
  edx : m.cpu.reg .edx = tf.regs.edx
  ecx : m.cpu.reg .ecx = tf.regs.ecx
  eax : m.cpu.reg .eax = tf.regs.eax

/-- The two words that an `iret` to the same privilege level leaves on the stack are the last ones
of the frame. -/
theorem trapretCode_spec {m : Machine} {tf : TrapFrame}
    (h : Holds m.cpu.mem (m.cpu.reg .esp) tf.words) (hcs : rpl tf.cs = rpl m.cs) :
    Entered tf (trapretCode m) ∧ (trapretCode m).cpu.reg .esp = m.cpu.reg .esp + 52#32 := by
  simp only [Holds, TrapFrame.words, BitVec.add_assoc, BitVec.reduceAdd, and_true] at h
  obtain ⟨hedi, hesi, hebp, -, hebx, hedx, hecx, heax, -, -, heip, hcsw, heflags, -⟩ := h
  have hselector : (tf.padding1 ++ tf.cs).setWidth 16 = tf.cs := by
    apply BitVec.eq_of_getLsbD_eq
    intro i hi
    rw [BitVec.getLsbD_setWidth, BitVec.getLsbD_append, if_pos hi, decide_eq_true hi,
      Bool.true_and]
  refine ⟨⟨?_, ?_, ?_, ?_, ?_, ?_, ?_, ?_, ?_, ?_⟩, ?_⟩
  all_goals simp [trapretCode, Machine.iret, Cpu.popal, Cpu.addEsp, Cpu.setReg, BitVec.add_assoc,
    hedi, hesi, hebp, hebx, hedx, hecx, heax, heip, hcsw, heflags, hselector, hcs]

/-! ## Where tasks and stacks lie -/

/-- `offsetof(task_struct, context)` -/
def CONTEXT_OFFSET : Word := 20#32

/-- `&proc->context` -/
def contextAddr (proc : ℕ) : Word := page2kva proc + CONTEXT_OFFSET

/-- `proc->tf` of a new process with the kernel stack `kst`. -/
def frameAddr (kst : ℕ) : Word := page2kva kst + KSTACK_SIZE - SIZEOF_TRAP_FRAME

section Pages
variable {p q kst : ℕ}

theorem frameAddr_eq (kst : ℕ) : frameAddr kst = page2kva kst + 4036#32 := by
  unfold frameAddr KSTACK_SIZE SIZEOF_TRAP_FRAME
  bv_omega

/-- Two pages have no byte in common. -/
theorem pages_disjoint (hp : p < 2 ^ 20) (hq : q < 2 ^ 20) (hne : p ≠ q) :
    Disjoint (bytes (page2kva p) 4096) (bytes (page2kva q) 4096) := by
  have hbase : KERNEL_BASE.toNat = 0xC0000000 := rfl
  have hpa := page2pa_toNat hp
  have hqa := page2pa_toNat hq
  rw [Set.disjoint_left]
  intro x hx hx'
  rw [mem_bytes, BitVec.toNat_sub, page2kva, BitVec.toNat_add, hpa, hbase] at hx
  rw [mem_bytes, BitVec.toNat_sub, page2kva, BitVec.toNat_add, hqa, hbase] at hx'
  have hlt := x.isLt
  omega

theorem context_subset (p : ℕ) :
    bytes (contextAddr p) SIZEOF_CONTEXT ⊆ bytes (page2kva p) 4096 :=
  bytes_subset (by decide) (by decide)

/-- The frame, and the word below it. -/
theorem frame_subset (kst : ℕ) : bytes (frameAddr kst - 4#32) 64 ⊆ bytes (page2kva kst) 4096 := by
  have hbelow : frameAddr kst - 4#32 = page2kva kst + 4032#32 := by
    rw [frameAddr_eq]
    bv_omega
  rw [hbelow]
  exact bytes_subset (by decide) (by decide)

end Pages

/-- The thread runs as `tf` says, on the kernel stack `kst`. -/
structure Begins (tf : TrapFrame) (kst : ℕ) (m : Machine) : Prop where
  eip : m.cpu.eip = tf.eip
  cs : m.cs = tf.cs
  edi : m.cpu.reg .edi = tf.regs.edi
  esi : m.cpu.reg .esi = tf.regs.esi
  ebp : m.cpu.reg .ebp = tf.regs.ebp
  ebx : m.cpu.reg .ebx = tf.regs.ebx
  edx : m.cpu.reg .edx = tf.regs.edx
  ecx : m.cpu.reg .ecx = tf.regs.ecx
  eax : m.cpu.reg .eax = 0#32
  eflags : m.eflags = tf.eflags ||| FL_IF
  esp : m.cpu.reg .esp ∈ bytes (page2kva kst) 4096

theorem Entered.begins {m : Machine} {tf : TrapFrame} {stack : Word} {kst : ℕ}
    (h : Entered (Sched.childFrame stack tf) m)
    (hesp : m.cpu.reg .esp = frameAddr kst + 52#32) : Begins tf kst m := by
  refine ⟨h.eip, h.cs, h.edi, h.esi, h.ebp, h.ebx, h.edx, h.ecx, h.eax, h.eflags, ?_⟩
  rw [hesp, frameAddr_eq, mem_bytes]
  bv_omega

/-! ## Nobody writes the frame -/

namespace Sched

variable {s t u : Sched} {ram : Set ℕ} {procs : List ℕ} {proc kst p : ℕ} {stack : Word}
  {tf frame : TrapFrame}

/-- `proc` has not run yet: it is still to begin with `frame`, on the stack `kst`. -/
structure Fresh (s : Sched) (ram : Set ℕ) (procs : List ℕ) (proc kst : ℕ) (frame : TrapFrame) :
    Prop where
  table : s.Table ram procs
  listed : proc ∈ procs
  context : (s.task proc).context = .forkret (frameAddr kst)
  taken : kst ∉ s.vm.pmm.freePages
  stack : kst ∉ procs
  frame : ∀ i < frame.words.length, s.vm.mem kst (1009 + i) = frame.words.getD i 0#32

theorem Forked.fresh (h : s.Forked stack tf proc kst t) (ht : s.Table ram procs)
    (hlow : kst < 2 ^ 20) (hne : kst ≠ proc) :
    t.Fresh ram (proc :: procs) proc kst (childFrame stack tf) := by
  refine ⟨ht.forked h, List.mem_cons_self, h.child_context, ?_, fun hmem => ?_, fun i hi => ?_⟩
  · rw [h.freePages]
    simp
  · rcases List.mem_cons.mp hmem with heq | hold
    · exact hne heq
    · exact ht.notFree kst hold h.kstFree
  · have hin : 1009 ≤ 1009 + i ∧ 1009 + i < 1009 + (childFrame stack tf).words.length := by omega
    rw [h.mem, Vm.storeTrapFrame, kva2page_stackFrame hlow, stackFrame_index hlow, Vm.setFrame_mem,
      if_pos rfl, if_pos hin, Nat.add_sub_cancel_left]

namespace Fresh

/-- A step that writes neither the context nor the memory. -/
theorem same (h : s.Fresh ram procs proc kst frame) (ht : t.Table ram procs)
    (hcontext : (t.task proc).context = (s.task proc).context) (hpmm : t.vm.pmm = s.vm.pmm)
    (hmem : t.vm.mem = s.vm.mem) : t.Fresh ram procs proc kst frame := by
  refine ⟨ht, h.listed, hcontext.trans h.context, ?_, h.stack, fun i hi => ?_⟩
  · rw [hpmm]
    exact h.taken
  · rw [hmem]
    exact h.frame i hi

/-- Another child is in other pages. -/
theorem forked {proc' kst' : ℕ} (h : s.Fresh ram procs proc kst frame)
    (hf : s.Forked stack tf proc' kst' t) (hlow : kst' < 2 ^ 20) :
    t.Fresh ram (proc' :: procs) proc kst frame := by
  have hproc : proc ≠ proc' := fun heq => h.table.new hf (heq ▸ h.listed)
  have hkst : kst ≠ kst' := fun heq => h.taken (heq ▸ hf.kstFree)
  refine ⟨h.table.forked hf, List.mem_cons_of_mem proc' h.listed, ?_, ?_, ?_, fun i hi => ?_⟩
  · rw [TaskStruct.core_congr TaskStruct.context (fun _ => rfl) (hf.others proc hproc)]
    exact h.context
  · rw [hf.freePages]
    exact fun hmem => h.taken hmem.1
  · intro hmem
    rcases List.mem_cons.mp hmem with heq | hold
    · exact h.taken (heq ▸ hf.wasFree)
    · exact h.stack hold
  · rw [hf.mem_of_ne hlow hkst]
    exact h.frame i hi

theorem schedule (h : s.Fresh ram procs proc kst frame) (hcur : s.current ≠ proc)
    (heq : s.schedule = some t) : t.Fresh ram procs proc kst frame := by
  have hs := h.table.schedule_spec heq
  have hcontext := hs.context proc
  rw [if_neg fun hn => hcur hn.2.symm] at hcontext
  exact h.same (h.table.schedule heq) hcontext hs.pmm hs.mem

theorem exitBody {code : ℤ} (h : s.Fresh ram procs proc kst frame)
    (heq : s.exitBody code = some t) :
    t.current = s.current ∧ t.Fresh ram procs proc kst frame := by
  obtain ⟨he, htable⟩ := h.table.exitBody heq
  have hmem : t.vm.mem = s.vm.mem := by
    rw [he.tasks]
    rfl
  have hcontext := he.same TaskStruct.context (fun _ => rfl) (fun _ => rfl) proc
  exact ⟨he.current_eq, h.same htable hcontext he.sameTable.pmm hmem⟩

/-- Until the child is the current process, it stays as it is. -/
theorem exec {op : SchedOp} (h : s.Fresh ram procs proc kst frame) (hlow : ∀ p ∈ ram, p < 2 ^ 20)
    (hok : s.Callable op) (hcur : s.current ≠ proc) (heq : s.exec op = some t) :
    ∃ procs', t.Fresh ram procs' proc kst frame := by
  cases op with
  | fork cloneFlags stack tf =>
    obtain ⟨⟨pid, u⟩, hfork, rfl⟩ := Option.map_eq_some_iff.mp heq
    obtain ⟨-, proc', kst', hf, -⟩ := h.table.doFork hfork
    obtain ⟨bs, hinv⟩ := h.table.free
    exact ⟨proc' :: procs, h.forked hf (hlow kst' (hinv.mem_ram hf.kstFree))⟩
  | exit code =>
    obtain ⟨u, hbody, hsched, -⟩ := doExit_eq_some heq
    obtain ⟨hcur', hu⟩ := h.exitBody hbody
    exact ⟨procs, hu.schedule (hcur' ▸ hcur) hsched⟩
  | schedule => exact ⟨procs, h.schedule hcur heq⟩
  | wakeup q =>
    have ht := h.table.wakeup heq
    obtain ⟨-, rfl⟩ := wakeupProc_eq_some heq
    exact ⟨procs, h.same ht (setState_keeps TaskStruct.context .runnable fun _ _ => rfl) rfl rfl⟩
  | run q =>
    have ht := h.table.procRun (h.table.mem_iff.mp hok) heq
    by_cases hq : q = s.current
    · rw [Sched.exec, procRun, if_neg (not_not.mpr hq)] at heq
      exact ⟨procs, Option.some.inj heq ▸ h⟩
    · have hs := procRun_spec hq heq
      have hcontext : (t.task proc).context = (s.task proc).context := by
        rw [hs.task_eq, if_neg (Ne.symm hcur)]
        split_ifs <;> rfl
      obtain ⟨next, prev, -, -, hvm⟩ := hs.vm
      refine ⟨procs, h.same ht hcontext hs.sameTable.pmm ?_⟩
      rw [hvm, switchVm_mem]
  | intr on =>
    obtain rfl := Option.some.inj heq
    exact ⟨procs, h.same (h.table.setEflags _) rfl rfl rfl⟩

theorem run {v : Sched} (h : s.Fresh ram procs proc kst frame) (hlow : ∀ p ∈ ram, p < 2 ^ 20)
    (hr : Run Sched.exec (fun s op => s.Callable op ∧ s.current ≠ proc) s v) :
    ∃ procs', v.Fresh ram procs' proc kst frame := by
  refine hr.invariant (I := fun s => ∃ procs', s.Fresh ram procs' proc kst frame) ⟨procs, h⟩ ?_
  rintro u op v ⟨procs', hu⟩ ⟨hok, hcur⟩ heq
  exact hu.exec hlow hok hcur heq

/-- The flags in the frame. -/
theorem frameEflags (h : s.Fresh ram procs proc kst frame) (hlow : kst < 2 ^ 20) :
    s.frameEflags (frameAddr kst) = frame.eflags := by
  unfold Sched.frameEflags frameAddr
  rw [kva2page_stackFrame hlow, stackFrame_index hlow]
  have hlen : frame.words.length = 15 := rfl
  exact h.frame EFLAGS_WORD (by rw [hlen]; decide)

end Fresh

/-! ## In the memory of the machine -/

/-- The context that leads to `forkret`, as `alloc_proc` and `copy_thread` leave it. -/
def forkretContext (forkret esp : Word) : SwitchContext :=
  ⟨forkret, esp, 0#32, 0#32, 0#32, 0#32, 0#32, 0#32⟩

/-- The words of a frame in the memory of the model. -/
def frameWords (s : Sched) (esp : Word) : List Word :=
  (List.range 15).map fun i => s.vm.mem (kva2page esp) (esp.toNat % 4096 / 4 + i)

/-- The contexts and the frames of the processes that have not run yet are in the memory of the
machine; `forkret` is the address of the routine. -/
structure InMemory (s : Sched) (forkret : Word) (m : Memory) : Prop where
  context : ∀ p esp, s.link.OnList .procList (.listLink p) → (s.task p).context = .forkret esp →
    Holds m (contextAddr p) (forkretContext forkret esp).words
  frame : ∀ p esp, s.link.OnList .procList (.listLink p) → (s.task p).context = .forkret esp →
    Holds m esp (s.frameWords esp)

/-- The CPU is at the first instruction of `switch_to(&prev->context, &next->context)`. -/
structure CallsSwitch (c : Cpu) (prev next : ℕ) : Prop where
  fromArg : load c.mem (c.reg .esp + 4#32) = contextAddr prev
  toArg : load c.mem (c.reg .esp + 8#32) = contextAddr next
  apart : Disjoint (bytes (contextAddr prev) SIZEOF_CONTEXT) (bytes (c.reg .esp) 12)

theorem Fresh.frameWords (h : s.Fresh ram procs proc kst frame) (hlow : kst < 2 ^ 20) :
    s.frameWords (frameAddr kst) = frame.words := by
  have hlen : frame.words.length = 15 := rfl
  unfold Sched.frameWords frameAddr
  rw [kva2page_stackFrame hlow, stackFrame_index hlow]
  apply List.ext_getElem
  · rw [List.length_map, List.length_range, hlen]
  · intro i hi hi'
    rw [List.getElem_map, List.getElem_range, h.frame i hi', List.getElem_eq_getD]

/-- `switch_to` leads to `forkret`, on a stack that begins with the frame. -/
theorem CallsSwitch.forkret {m : Machine} {prev : ℕ} {forkret : Word}
    (h : CallsSwitch m.cpu prev proc) (hprev : prev < 2 ^ 20) (hproc : proc < 2 ^ 20)
    (hkst : kst < 2 ^ 20) (hne : prev ≠ proc) (hstack : prev ≠ kst)
    (hcontext : Holds m.cpu.mem (contextAddr proc) (forkretContext forkret (frameAddr kst)).words)
    (hframe : Holds m.cpu.mem (frameAddr kst) frame.words) :
    (m.cpu.run switchToCode).eip = forkret ∧
      (m.cpu.run switchToCode).reg .esp = frameAddr kst ∧
      Holds (m.cpu.run switchToCode).mem (frameAddr kst) frame.words := by
  -- the registers of `prev` go into its own page
  have hoff : ∀ q < 2 ^ 20, prev ≠ q → ∀ x ∈ bytes (page2kva q) 4096,
      storeWords m.cpu.mem (contextAddr prev) (callContext m.cpu).words x = m.cpu.mem x := by
    intro q hq hne x hx
    apply storeWords_off _ (SwitchContext.words_le _)
    exact fun hx' => Set.disjoint_left.mp (pages_disjoint hprev hq hne) (context_subset prev hx') hx
  have hcontext' := hcontext.congr (SwitchContext.words_le _)
    fun x hx => hoff proc hproc hne x (context_subset proc hx)
  obtain ⟨hresumed, hmem⟩ := run_switchTo h.fromArg h.toArg h.apart hcontext'
  have hbelow : bytes (frameAddr kst) 60 ⊆ bytes (frameAddr kst - 4#32) 64 := by
    have hsub := bytes_subset (a := frameAddr kst - 4#32) (d := 4#32) (n := 60) (k := 64)
      (by decide) (by decide)
    rwa [BitVec.sub_add_cancel] at hsub
  have happart : Disjoint (bytes (frameAddr kst - 4#32) 4) (bytes (frameAddr kst) 60) := by
    have hdisjoint := bytes_disjoint (a := frameAddr kst - 4#32) (d := 4#32) (n := 4) (k := 60)
      (by decide) (by decide)
    rwa [BitVec.sub_add_cancel] at hdisjoint
  have hlen : frame.words.length = 15 := rfl
  have hmem' : (m.cpu.run switchToCode).mem =
      store (storeWords m.cpu.mem (contextAddr prev) (callContext m.cpu).words)
        (frameAddr kst - 4#32) forkret := hmem
  refine ⟨hresumed.eip, hresumed.esp, hframe.congr (by rw [hlen]; decide) fun x hx => ?_⟩
  rw [hlen] at hx
  -- the address of `forkret` is pushed below the frame
  rw [hmem', store_off fun hx' => Set.disjoint_left.mp happart hx' hx]
  exact hoff kst hkst hstack x (frame_subset kst (hbelow hx))

/-! ## The first switch -/

/-- A step to a process that has not run yet: the flags are those of its frame. -/
theorem Table.exec_forkret {op : SchedOp} {esp : Word} (h : s.Table ram procs)
    (heq : s.exec op = some t) (hne : t.current ≠ s.current)
    (hcontext : (s.task t.current).context = .forkret esp) : t.eflags = s.frameEflags esp := by
  have hsched : ∀ {u : Sched}, u.Table ram procs → u.schedule = some t → u.current = s.current →
      (u.task t.current).context = .forkret esp → u.vm.mem = s.vm.mem →
        t.eflags = s.frameEflags esp := by
    intro u hu heq hcur hcontext hmem
    have hs := hu.schedule_spec heq
    have hresumes := hs.resumes (by rwa [← hs.current, hcur])
    rw [← hs.current, hcontext] at hresumes
    have heflags : t.eflags = u.intrSave.2.frameEflags esp := hresumes
    rw [heflags, Sched.frameEflags, intrSave_vm, hmem]
    rfl
  cases op with
  | fork cloneFlags stack tf =>
    obtain ⟨⟨pid, u⟩, hfork, rfl⟩ := Option.map_eq_some_iff.mp heq
    obtain ⟨-, proc', kst', hf, -⟩ := h.doFork hfork
    exact absurd hf.current hne
  | exit code =>
    obtain ⟨u, hbody, heq', -⟩ := doExit_eq_some heq
    obtain ⟨he, hu⟩ := h.exitBody hbody
    refine hsched hu heq' he.current_eq ?_ ?_
    · rw [he.same TaskStruct.context (fun _ => rfl) (fun _ => rfl)]
      exact hcontext
    · rw [he.tasks]
      rfl
  | schedule => exact hsched h heq rfl hcontext rfl
  | wakeup q =>
    obtain ⟨-, rfl⟩ := wakeupProc_eq_some heq
    exact absurd rfl hne
  | run q =>
    by_cases hq : q = s.current
    · rw [Sched.exec, Sched.procRun, if_neg (not_not.mpr hq)] at heq
      obtain rfl := Option.some.inj heq
      exact absurd rfl hne
    · have hs := procRun_spec hq heq
      have hresumes := hs.resumes
      rw [← hs.current, hcontext] at hresumes
      have heflags : t.eflags = s.intrSave.2.frameEflags esp := hresumes
      rw [heflags, Sched.frameEflags, intrSave_vm]
      rfl
  | intr on =>
    obtain rfl := Option.some.inj heq
    exact absurd rfl hne

/-- The first switch to `proc`, which `switch_to` is called for. -/
theorem Fresh.begins {op : SchedOp} {forkret : Word} {m : Machine}
    (h : s.Fresh ram procs proc kst (childFrame stack tf)) (hlow : ∀ p ∈ ram, p < 2 ^ 20)
    (hkst : kst < 2 ^ 20) (hcs : rpl tf.cs = rpl m.cs) (hcur : s.current ≠ proc)
    (heq : s.exec op = some t) (hnext : t.current = proc) (hmem : s.InMemory forkret m.cpu.mem)
    (hcall : CallsSwitch m.cpu s.current proc) :
    (m.cpu.run switchToCode).eip = forkret ∧
      Begins tf kst (trapretCode { m with cpu := m.cpu.run switchToCode }) ∧
      t.eflags = tf.eflags ||| FL_IF := by
  have hcurrent := h.table.current
  have honList := h.table.mem_iff.mpr h.listed
  have hframe := hmem.frame proc _ honList h.context
  rw [h.frameWords hkst] at hframe
  obtain ⟨heip, hesp, hholds⟩ := hcall.forkret (hlow _ (h.table.inRam _ hcurrent))
    (hlow _ (h.table.inRam _ h.listed)) hkst hcur (fun heq => h.stack (heq ▸ hcurrent))
    (hmem.context proc _ honList h.context) hframe
  rw [← hesp] at hholds
  obtain ⟨hentered, hesp'⟩ :=
    trapretCode_spec (m := { m with cpu := m.cpu.run switchToCode }) hholds hcs
  refine ⟨heip, hentered.begins ?_, ?_⟩
  · rw [hesp']
    exact congrArg (· + 52#32) hesp
  · rw [h.table.exec_forkret heq (hnext ▸ Ne.symm hcur) (hnext ▸ h.context), h.frameEflags hkst]
    rfl

/-- `do_fork` with a frame of kernel code, in any state since `sched_init`. However the run goes on
until the child becomes the current process: `switch_to` leads to `forkret`, and `trapret` begins
the thread with the registers of the frame and with `IF` set. -/
theorem forked_begins {s₀ : Sched} {cloneFlags : Word} {pid : ℤ} (h : s₀.Started ram)
    (hr : Run Sched.exec Callable s₀ s) (hcs : tf.cs = KERNEL_CS)
    (hfork : s.doFork cloneFlags stack tf = some (pid, u)) :
    ∃ proc kst, u.findProc pid = some (some proc) ∧ (u.task proc).kstack = page2kva kst ∧
      ∀ v w op forkret (m : Machine),
        Run Sched.exec (fun s op => s.Callable op ∧ s.current ≠ proc) u v → v.current ≠ proc →
        v.Callable op → v.exec op = some w → w.current = proc →
        v.InMemory forkret m.cpu.mem → CallsSwitch m.cpu v.current proc → m.cs = KERNEL_CS →
          (m.cpu.run switchToCode).eip = forkret ∧
          Begins tf kst (trapretCode { m with cpu := m.cpu.run switchToCode }) ∧
          w.eflags = tf.eflags ||| FL_IF := by
  obtain ⟨hlow, _, _, _, _, _, _, _, -, -, -, -, htable₀⟩ := h.cases
  obtain ⟨procs, htable⟩ := htable₀.run hr
  obtain ⟨bs, hinv⟩ := htable.free
  obtain ⟨rfl, proc, kst, pmm, pmm', hp, hp', hf⟩ :=
    doFork_takes hinv (htable.notFree _ htable.current) hfork
  have hkst := hlow kst (hinv.mem_ram hf.kstFree)
  have hfresh := hf.fresh htable hkst (hp.apart hp')
  refine ⟨proc, kst, hf.findProc htable, hf.kstack, ?_⟩
  intro v w op forkret m hrun hcur _ heq hnext hmem hcall hmcs
  obtain ⟨procs', hv⟩ := hfresh.run hlow hrun
  exact hv.begins hlow hkst (by rw [hcs, hmcs]) hcur heq hnext hmem hcall

/-! ### A thread of the small machine -/

/-- The frame of a thread at `0x1234`. -/
def sampleFrame : TrapFrame :=
  { initFrame 0x1234#32 with
    regs := ⟨1#32, 2#32, 3#32, 4#32, 5#32, 6#32, 7#32, 8#32⟩
    eflags := 2#32 }

/-- The idle process, on page 4, calls `switch_to` for the thread on page 7. The stack of the
thread is page 8, `init` is on the pages 5 and 6, and `forkret` is at `0x111`. -/
def sampleMachine : Machine where
  cpu :=
    { reg := fun r => if r = .esp then 0xC0100000#32 else 9#32
      eip := 0#32
      mem :=
        let m := storeWords (fun _ => 0#8) 0xC0100000#32 [0x222#32, contextAddr 4, contextAddr 7]
        let m := storeWords m (contextAddr 5) (forkretContext 0x111#32 (frameAddr 6)).words
        let m := storeWords m (frameAddr 6) (childFrame 0#32 (initFrame 0#32)).words
        let m := storeWords m (contextAddr 7) (forkretContext 0x111#32 (frameAddr 8)).words
        storeWords m (frameAddr 8) (childFrame 0#32 sampleFrame).words }
  cs := KERNEL_CS
  ss := 0x10#16
  eflags := 0#32

/-- What `sampleMachine` holds is right for a state with the two contexts and frames. -/
theorem sampleMachine_inMemory
    (hforked : ∀ p esp, u.link.OnList .procList (.listLink p) → (u.task p).context = .forkret esp →
      p = 5 ∧ esp = frameAddr 6 ∨ p = 7 ∧ esp = frameAddr 8)
    (hframe : u.frameWords (frameAddr 6) = (childFrame 0#32 (initFrame 0#32)).words)
    (hframe' : u.frameWords (frameAddr 8) = (childFrame 0#32 sampleFrame).words) :
    u.InMemory 0x111#32 sampleMachine.cpu.mem := by
  constructor
  · intro p esp hp hcontext
    rcases hforked p esp hp hcontext with ⟨rfl, rfl⟩ | ⟨rfl, rfl⟩
    · decide +kernel
    · decide +kernel
  · intro p esp hp hcontext
    rcases hforked p esp hp hcontext with ⟨rfl, rfl⟩ | ⟨rfl, rfl⟩
    · rw [hframe]
      decide +kernel
    · rw [hframe']
      decide +kernel

theorem sampleMachine_callsSwitch : CallsSwitch sampleMachine.cpu 4 7 := by
  refine ⟨by decide +kernel, by decide +kernel, ?_⟩
  have h := bytes_disjoint (a := contextAddr 4) (d := 0xC0100000#32 - contextAddr 4)
    (n := SIZEOF_CONTEXT) (k := 12) (by decide) (by decide)
  rwa [BitVec.add_comm, BitVec.sub_add_cancel] at h

/-- When the idle process has forked 7, it, `init` and 7 are the processes. -/
theorem sample_listed {pid : ℤ} (hs : sampleInit 5 = some s) (hinit : s.initProc = some 5)
    (hcur : s.current = 4) (hfork : s.doFork 0#32 0#32 sampleFrame = some (pid, u))
    (hfind : u.findProc 2 = some (some 7)) (p : ℕ)
    (hp : u.link.OnList .procList (.listLink p)) : p = 4 ∨ p = 5 ∨ p = 7 := by
  have hstarted := sampleInit_started (by decide) (by decide) hs
  obtain ⟨-, _, _, idle, init, _, _, _, -, -, -, hinit', htable⟩ := hstarted.cases
  obtain ⟨-, proc, _, hf, htable'⟩ := htable.doFork hfork
  have hnext : s.nextPid = 2 := htable.nextPid
  have hchild := hf.findProc htable
  rw [hnext] at hchild
  obtain rfl := Option.some.inj (Option.some.inj (hfind.symm.trans hchild))
  obtain rfl : init = 5 := by
    rw [hinit'] at hinit
    exact Option.some.inj hinit
  have hcurrent := htable.current
  rw [hcur] at hcurrent
  have hmem := htable'.mem_iff.mp hp
  simp only [List.mem_cons, List.not_mem_nil, or_false] at hcurrent hmem
  omega

/-- `schedule` switches from the idle process to the thread. -/
theorem forked_begins_seven : ∃ s u w kst, sampleInit 5 = some s ∧
    s.doFork 0#32 0#32 sampleFrame = some (2, u) ∧ u.exec .schedule = some w ∧ w.current = 7 ∧
    (u.task 7).kstack = page2kva kst ∧ (sampleMachine.cpu.run switchToCode).eip = 0x111#32 ∧
    Begins sampleFrame kst
      (trapretCode { sampleMachine with cpu := sampleMachine.cpu.run switchToCode }) ∧
    w.eflags = 0x202#32 := by
  have hsome : ((sampleInit 5).bind fun s => (s.doFork 0#32 0#32 sampleFrame).bind fun r =>
      (r.2.exec .schedule).map fun w =>
        (r.1, r.2.findProc 2, [s.current, r.2.current, w.current], s.initProc)) =
      some (2, some (some 7), [4, 4, 7], some 5) := by
    decide +kernel
  have hmemory : ((sampleInit 5).bind fun s => (s.doFork 0#32 0#32 sampleFrame).map fun r =>
      ([4, 5, 7].map fun p => (r.2.task p).context,
        [6, 8].map fun p => r.2.frameWords (frameAddr p))) =
      some ([.zero, .forkret (frameAddr 6), .forkret (frameAddr 8)],
        [(childFrame 0#32 (initFrame 0#32)).words, (childFrame 0#32 sampleFrame).words]) := by
    decide +kernel
  obtain ⟨s, hs, hsome⟩ := Option.bind_eq_some_iff.mp hsome
  obtain ⟨⟨pid, u⟩, hfork, hsome⟩ := Option.bind_eq_some_iff.mp hsome
  obtain ⟨w, heq, hfields⟩ := Option.map_eq_some_iff.mp hsome
  simp only [Prod.mk.injEq, List.cons.injEq, and_true] at hfields
  obtain ⟨rfl, hfind, ⟨hcur, hcur', hcur''⟩, hinit⟩ := hfields
  rw [hs, Option.bind_some, hfork, Option.map_some] at hmemory
  simp only [Option.some.injEq, Prod.mk.injEq, List.map_cons, List.map_nil, List.cons.injEq,
    and_true] at hmemory
  obtain ⟨⟨hidle, hfirst, hsecond⟩, hframe, hframe'⟩ := hmemory
  have hstarted := sampleInit_started (by decide) (by decide) hs
  obtain ⟨proc, kst, hproc, hkstack, hbegins⟩ := forked_begins hstarted (Run.refl s) rfl hfork
  obtain rfl := Option.some.inj (Option.some.inj (hfind.symm.trans hproc))
  have hlisted := sample_listed hs hinit hcur hfork hfind
  have hforked : ∀ p esp, u.link.OnList .procList (.listLink p) →
      (u.task p).context = .forkret esp →
      p = 5 ∧ esp = frameAddr 6 ∨ p = 7 ∧ esp = frameAddr 8 := by
    intro p esp hp hcontext
    rcases hlisted p hp with rfl | rfl | rfl
    · rw [hidle] at hcontext
      exact absurd hcontext (by simp)
    · rw [hfirst] at hcontext
      exact Or.inl ⟨rfl, (Context.forkret.inj hcontext).symm⟩
    · rw [hsecond] at hcontext
      exact Or.inr ⟨rfl, (Context.forkret.inj hcontext).symm⟩
  have hin := sampleMachine_inMemory hforked hframe hframe'
  have hcall : CallsSwitch sampleMachine.cpu u.current 7 := hcur' ▸ sampleMachine_callsSwitch
  obtain ⟨heip, hbegin, heflags⟩ := hbegins u w .schedule 0x111#32 sampleMachine (Run.refl u)
    (by rw [hcur']; decide) trivial heq hcur'' hin hcall rfl
  exact ⟨s, u, w, kst, hs, hfork, heq, hcur'', hkstack, heip, hbegin, heflags⟩

end Sched
end Zonix
