import Zonix.Mm.PageInit
import Zonix.Mm.Vm

/-!
# Processes: `kern/sched/sched.c`, `kern/sched/sched.h` and `kern/drivers/intr.h`

A `task_struct *` is the page that `kmalloc` took for it, and an `mm_struct *` an index;
`NULL` is `none`. The links of a task are in one memory of links with the heads of
`proc_list` and of the hash buckets. `pid`, `nr_process` and `next_pid` are integers: there
are at most `2^20` pages, so no `int` that counts processes overflows. `flags` and `name`,
which no function here reads, are left out.

What a suspended process has on its kernel stack is the `Context` of its task: where
`switch_to` resumes it, and the local variables that are still needed there. That `switch_to`
brings the stack and the registers back is shown for the assembly itself.

The functions return `none` when they do not come back: a failed assertion, an access through
`NULL` (there is no memory left to map page 0 when an allocation has failed), or a loop that
takes more steps than there are processes.
-/

namespace Zonix
open Lib

def FL_IF : Word := 0x200#32
def KERNEL_CS : BitVec 16 := 0x8#16
def KSTACK_SIZE : Word := 4096#32
def HASH_SHIFT : ℕ := 10
def HASH_LIST_SIZE : ℕ := 1 <<< HASH_SHIFT

/-! ## Data -/

structure TrapRegs where
  edi : Word
  esi : Word
  ebp : Word
  unused : Word
  ebx : Word
  edx : Word
  ecx : Word
  eax : Word

structure TrapFrame where
  regs : TrapRegs
  trapno : Word
  err : Word
  eip : Word
  cs : BitVec 16
  padding1 : BitVec 16
  eflags : Word
  esp : Word
  ss : BitVec 16
  padding2 : BitVec 16

/-- The frame as it lies in memory. -/
def TrapFrame.words (tf : TrapFrame) : List Word :=
  [tf.regs.edi, tf.regs.esi, tf.regs.ebp, tf.regs.unused, tf.regs.ebx, tf.regs.edx, tf.regs.ecx,
    tf.regs.eax, tf.trapno, tf.err, tf.eip, tf.padding1 ++ tf.cs, tf.eflags, tf.esp,
    tf.padding2 ++ tf.ss]

/-- `sizeof(trap_frame)` -/
def SIZEOF_TRAP_FRAME : Word := 60#32

/-- The word of a frame that holds `tf_eflags`. -/
def EFLAGS_WORD : ℕ := 12

/-- `enum proc_state` -/
inductive ProcState
  | uninit
  | sleeping
  | runnable
  | running
  | zombie
deriving DecidableEq

/-- What `context.eip` and `context.esp` lead to. -/
inductive Context
  /-- all zero, as `alloc_proc` leaves it -/
  | zero
  /-- `forkret`, with a trap frame at `esp` -/
  | forkret (esp : Word)
  /-- behind `switch_to` in `proc_run`; `flags` are the variables `__intr_flag` of `proc_run` and
  of its callers, which they restore on their way out -/
  | switchTo (flags : List Word)
deriving DecidableEq

/-- `task_struct`, without its list links. -/
structure TaskStruct where
  state : ProcState
  pid : ℤ
  kstack : Word
  parent : Option ℕ
  mm : Option ℕ
  context : Context
  tf : Word
  exitCode : ℤ
  waitState : Word
  cptr : Option ℕ
  yptr : Option ℕ
  optr : Option ℕ

/-- The heads `proc_list` and `hash_list + i`, and the `list_link` and `hash_link` of a task. -/
inductive SchedEntry
  | procList
  | hashList (i : ℕ)
  | listLink (proc : ℕ)
  | hashLink (proc : ℕ)
deriving DecidableEq

/-- `le2proc(le, list_link)`; a head is embedded in no task. -/
def le2procList : SchedEntry → Option ℕ
  | .listLink proc => some proc
  | _ => none

/-- `le2proc(le, hash_link)` -/
def le2procHash : SchedEntry → Option ℕ
  | .hashLink proc => some proc
  | _ => none

/-- `&init_mm` -/
def initMmPtr : ℕ := 0

/-- The memory of the tasks. -/
abbrev Tasks := ℕ → TaskStruct

structure Sched where
  vm : Vm
  /-- The `mm_struct`s. -/
  mms : ℕ → MmStruct
  task : Tasks
  link : Links SchedEntry
  current : ℕ
  idleProc : ℕ
  initProc : Option ℕ
  nrProcess : ℤ
  nextPid : ℤ
  eflags : Word

/-- `hash32(val, bits)` -/
def hash32 (val : Word) (bits : ℕ) : Word := (val * 0x61C88647#32) >>> (32 - bits)

/-- `pid_hashfn(pid)`, as an index of `hash_list`. -/
def pidHashfn (pid : ℤ) : ℕ := (hash32 (BitVec.ofInt 32 pid) HASH_SHIFT).toNat

/-- `*tf = ...`, at the kernel address `kva`. -/
def Vm.storeTrapFrame (s : Vm) (kva : Word) (tf : TrapFrame) : Vm :=
  s.setFrame (kva2page kva) fun i =>
    if kva.toNat % 4096 / 4 ≤ i ∧ i < kva.toNat % 4096 / 4 + tf.words.length then
      tf.words.getD (i - kva.toNat % 4096 / 4) 0#32
    else s.mem (kva2page kva) i

/-- `lcr3(cr3)`, which empties the TLB. -/
def Vm.lcr3 (s : Vm) (cr3 : Word) : Vm := { s with cr3 := cr3, tlb := fun _ => none }

/-! ## Family pointers -/

namespace Tasks

def setParent (task : Tasks) (proc : ℕ) (p : Option ℕ) : Tasks :=
  Function.update task proc { task proc with parent := p }

def setCptr (task : Tasks) (proc : ℕ) (p : Option ℕ) : Tasks :=
  Function.update task proc { task proc with cptr := p }

def setYptr (task : Tasks) (proc : ℕ) (p : Option ℕ) : Tasks :=
  Function.update task proc { task proc with yptr := p }

def setOptr (task : Tasks) (proc : ℕ) (p : Option ℕ) : Tasks :=
  Function.update task proc { task proc with optr := p }

/-- `if (proc != NULL) proc->yptr = p;` -/
def setYptrOf (task : Tasks) : Option ℕ → Option ℕ → Tasks
  | some proc, p => task.setYptr proc p
  | none, _ => task

/-- What `set_links(proc)` writes into the tasks. -/
def link (task : Tasks) (proc parent : ℕ) : Tasks :=
  let task := task.setYptr proc none
  let optr := (task parent).cptr
  let task := task.setOptr proc optr
  let task := task.setYptrOf optr (some proc)
  task.setCptr parent (some proc)

/-- What `remove_links(proc)` writes into the tasks. -/
def unlink (task : Tasks) (proc : ℕ) : Option Tasks := do
  let task := task.setYptrOf (task proc).optr (task proc).yptr
  match (task proc).yptr with
  | some yptr => some (task.setOptr yptr (task proc).optr)
  | none => do
    let parent ← (task proc).parent
    some (task.setCptr parent (task proc).optr)

/-- What one turn of the loop in `do_exit` writes into the tasks. -/
def adopt (task : Tasks) (current init proc : ℕ) : Tasks :=
  let task := task.setCptr current (task proc).optr
  let task := task.setYptr proc none
  let optr := (task init).cptr
  let task := task.setOptr proc optr
  let task := task.setYptrOf optr (some proc)
  let task := task.setParent proc (some init)
  task.setCptr init (some proc)

end Tasks

namespace Sched

/-! ## Field accesses -/

def setVm (s : Sched) (vm : Vm) : Sched := { s with vm := vm }

def setTask (s : Sched) (proc : ℕ) (t : TaskStruct) : Sched :=
  { s with task := Function.update s.task proc t }

def setLink (s : Sched) (link : Links SchedEntry) : Sched := { s with link := link }

def setCurrent (s : Sched) (proc : ℕ) : Sched := { s with current := proc }

def setEflags (s : Sched) (eflags : Word) : Sched := { s with eflags := eflags }

def setState (s : Sched) (proc : ℕ) (state : ProcState) : Sched :=
  s.setTask proc { s.task proc with state := state }

def setPid (s : Sched) (proc : ℕ) (pid : ℤ) : Sched :=
  s.setTask proc { s.task proc with pid := pid }

def setKstack (s : Sched) (proc : ℕ) (kstack : Word) : Sched :=
  s.setTask proc { s.task proc with kstack := kstack }

def setParent (s : Sched) (proc : ℕ) (parent : Option ℕ) : Sched :=
  s.setTask proc { s.task proc with parent := parent }

def setMm (s : Sched) (proc : ℕ) (mm : Option ℕ) : Sched :=
  s.setTask proc { s.task proc with mm := mm }

def setContext (s : Sched) (proc : ℕ) (context : Context) : Sched :=
  s.setTask proc { s.task proc with context := context }

def setTf (s : Sched) (proc : ℕ) (tf : Word) : Sched := s.setTask proc { s.task proc with tf := tf }

def setExitCode (s : Sched) (proc : ℕ) (code : ℤ) : Sched :=
  s.setTask proc { s.task proc with exitCode := code }

def setTasks (s : Sched) (task : Tasks) : Sched := { s with task := task }

@[simp] theorem setTask_task (s : Sched) (p : ℕ) (t : TaskStruct) (q : ℕ) :
    (s.setTask p t).task q = if q = p then t else s.task q := Function.update_apply ..

/-! ## `intr.h` -/

/-- `__intr_save()` -/
def intrSave (s : Sched) : Word × Sched :=
  if s.eflags &&& FL_IF ≠ 0#32 then (1#32, s.setEflags (s.eflags &&& ~~~FL_IF)) else (0#32, s)

/-- `__intr_restore(flag)` -/
def intrRestore (s : Sched) (flag : Word) : Sched :=
  if flag ≠ 0#32 then s.setEflags (s.eflags ||| FL_IF) else s

/-! ## Creating a process -/

/-- `proc_get_cr3(proc)` -/
def procGetCr3 (s : Sched) (proc : ℕ) : Option Word := do
  let mm ← (s.task proc).mm
  some (page2pa (s.mms mm).pgdir)

/-- `alloc_proc()` -/
def allocProc (s : Sched) : Option (Option ℕ × Sched) := do
  match ← s.vm.allocPages 1 with
  | (none, vm) => some (none, s.setVm vm)
  | (some proc, vm) =>
    let s := s.setVm vm
    -- `exit_code` and the list links keep what the page held before
    some (some proc, s.setTask proc { s.task proc with
      state := .uninit, pid := -1, kstack := 0#32, parent := none, mm := none, context := .zero,
      tf := 0#32, waitState := 0#32, cptr := none, optr := none, yptr := none })

/-- `setup_kstack(proc)` -/
def setupKstack (s : Sched) (proc : ℕ) : Option (ℤ × Sched) := do
  match ← s.vm.allocPages 1 with
  | (none, vm) => some (-1, s.setVm vm)
  | (some page, vm) => some (0, (s.setVm vm).setKstack proc (page2kva page))

/-- `copy_mm(clone_flags, proc)` -/
def copyMm (s : Sched) (_cloneFlags : Word) (proc : ℕ) : Sched :=
  if (s.task s.current).mm = some initMmPtr then s.setMm proc (some initMmPtr)
  else s.setMm proc (s.task s.current).mm

/-- `copy_thread(proc, esp, tf)` -/
def copyThread (s : Sched) (proc : ℕ) (esp : Word) (tf : TrapFrame) : Option Sched :=
  let s := s.setTf proc ((s.task proc).kstack + KSTACK_SIZE - SIZEOF_TRAP_FRAME)
  -- without a stack the frame lies in page 0, and the store faults
  if (s.task proc).kstack = 0#32 then none
  else
    let tf := { tf with regs := { tf.regs with eax := 0#32 }, esp := esp,
                        eflags := tf.eflags ||| 0x200#32 }
    let s := s.setVm (s.vm.storeTrapFrame (s.task proc).tf tf)
    some (s.setContext proc (.forkret (s.task proc).tf))

/-- `get_pid()` -/
def getPid (s : Sched) : ℤ × Sched := (s.nextPid, { s with nextPid := s.nextPid + 1 })

/-- `hash_proc(proc)` -/
def hashProc (s : Sched) (proc : ℕ) : Sched :=
  s.setLink (listAdd s.link (.hashList (pidHashfn (s.task proc).pid)) (.hashLink proc))

/-- `unhash_proc(proc)` -/
def unhashProc (s : Sched) (proc : ℕ) : Sched := s.setLink (listDel s.link (.hashLink proc))

/-- `find_proc(pid)` -/
def findProc (s : Sched) (pid : ℤ) : Option (Option ℕ) :=
  if pid ≤ 0 then some none
  else
    listSearch s.link (.hashList (pidHashfn pid)) le2procHash (fun proc => (s.task proc).pid = pid)
      (s.nrProcess.toNat + 1) (.hashList (pidHashfn pid))

/-- `set_links(proc)` -/
def setLinks (s : Sched) (proc : ℕ) : Option Sched := do
  let parent ← (s.task proc).parent
  some { s with
    link := listAdd s.link .procList (.listLink proc)
    task := s.task.link proc parent
    nrProcess := s.nrProcess + 1 }

/-- `remove_links(proc)` -/
def removeLinks (s : Sched) (proc : ℕ) : Option Sched := do
  let task ← s.task.unlink proc
  some { s with
    link := listDel s.link (.listLink proc)
    task := task
    nrProcess := s.nrProcess - 1 }

/-- `wakeup_proc(proc)` -/
def wakeupProc (s : Sched) (proc : ℕ) : Option Sched :=
  -- the assertion
  if (s.task proc).state = .zombie then none
  else if (s.task proc).state ≠ .runnable then some (s.setState proc .runnable)
  else some s

/-- The part of `do_fork` that makes the child; the result of `setup_kstack` is not looked at. -/
def forkChild (s : Sched) (cloneFlags stack : Word) (tf : TrapFrame) : Option (ℕ × Sched) := do
  let (proc, s) ← s.allocProc
  -- `proc->parent = current` goes through a null `proc`
  let proc ← proc
  let s := s.setParent proc (some s.current)
  let (_, s) ← s.setupKstack proc
  let s := s.copyMm cloneFlags proc
  let s ← s.copyThread proc stack tf
  some (proc, s)

/-- The part of `do_fork` that enters the child in the tables, and makes it runnable. -/
def enlist (s : Sched) (proc : ℕ) : Option (ℤ × Sched) := do
  let (flag, s) := s.intrSave
  let (pid, s) := s.getPid
  let s := s.setPid proc pid
  let s := s.hashProc proc
  let s ← s.setLinks proc
  let s := s.intrRestore flag
  let s ← s.wakeupProc proc
  some ((s.task proc).pid, s)

/-- `do_fork(clone_flags, stack, tf)` -/
def doFork (s : Sched) (cloneFlags stack : Word) (tf : TrapFrame) : Option (ℤ × Sched) := do
  let (proc, s) ← s.forkChild cloneFlags stack tf
  s.enlist proc

/-! ## Switching -/

/-- `popal`, `addl $8, %esp` and `iret`, with a trap frame at `esp`. -/
def trapret (s : Sched) (esp : Word) : Sched :=
  s.setEflags (s.vm.mem (kva2page esp) (esp.toNat % 4096 / 4 + EFLAGS_WORD))

/-- The callers return one after the other. -/
def restoreAll (s : Sched) (flags : List Word) : Sched := flags.foldl intrRestore s

/-- `switch_to(&prev->context, &next->context)`, and what follows up to the code of `next`. -/
def switchTo (s : Sched) (prev next : ℕ) (flags : List Word) : Option Sched :=
  let s := s.setContext prev (.switchTo flags)
  match (s.task next).context with
  | .zero => none
  | .forkret esp => some (s.trapret esp)
  | .switchTo flags => some (s.restoreAll flags)

/-- What `proc_run(proc)` does before it calls `switch_to`, and its `__intr_flag`. -/
def beforeSwitch (s : Sched) (proc : ℕ) : Option (Word × Sched) := do
  let (flag, s) := s.intrSave
  let prev := s.current
  let s := s.setCurrent proc
  let s := s.setState proc .running
  -- `current` is the next process already when these are compared
  let nextCr3 ← s.procGetCr3 proc
  let prevCr3 ← s.procGetCr3 prev
  let s := if nextCr3 ≠ prevCr3 then s.setVm (s.vm.lcr3 nextCr3) else s
  some (flag, s)

/-- `proc_run(proc)`, called from functions with the variables `__intr_flag` in `callers`; up to
the code behind these calls, in whatever process that is. -/
def procRun (s : Sched) (proc : ℕ) (callers : List Word) : Option Sched :=
  if proc ≠ s.current then do
    let (flag, t) ← s.beforeSwitch proc
    t.switchTo s.current proc (flag :: callers)
  else some (s.restoreAll callers)

/-- `if (current->state == TASK_RUNNING) current->state = TASK_RUNNABLE;` -/
def demote (s : Sched) : Sched :=
  if (s.task s.current).state = .running then s.setState s.current .runnable else s

/-- The loop of `schedule`. -/
def pickNext (s : Sched) : Option ℕ := do
  -- a step for each process, and one back to the head
  let next ← listSearch s.link .procList le2procList (fun proc => (s.task proc).state = .runnable)
    (s.nrProcess.toNat + 1) .procList
  some (next.getD s.idleProc)

/-- `schedule()`, up to the code that runs afterwards: behind the call, behind the call that
another process made earlier, or the first code of a new process. -/
def schedule (s : Sched) : Option Sched := do
  let (flag, s) := s.intrSave
  let s := s.demote
  let next ← s.pickNext
  if next ≠ s.current then s.procRun next [flag] else some (s.intrRestore flag)

/-! ## `do_exit` -/

/-- One turn of the loop that gives the children of `current` to `init`. -/
def adoptChild (s : Sched) (init proc : ℕ) : Option Sched :=
  let s := s.setTasks (s.task.adopt s.current init proc)
  if (s.task proc).state = .zombie ∧ (s.task init).waitState ≠ 0#32 then s.wakeupProc init
  else some s

/-- The loop. -/
def adoptChildren (s : Sched) (init : ℕ) : ℕ → Option Sched
  | 0 => none
  | k + 1 =>
    match (s.task s.current).cptr with
    | none => some s
    | some proc => do
      let s ← s.adoptChild init proc
      s.adoptChildren init k

/-- Wake up the parent if it waits. -/
def wakeParent (s : Sched) : Option Sched :=
  match (s.task s.current).parent with
  | some parent => if (s.task parent).waitState ≠ 0#32 then s.wakeupProc parent else some s
  | none => some s

/-- Give the children to `init` if it exists. -/
def giveChildren (s : Sched) : Option Sched :=
  match s.initProc with
  | some init => s.adoptChildren init (s.nrProcess.toNat + 1)
  | none => some s

/-- `do_exit(error_code)` before it calls `schedule`. -/
def exitBody (s : Sched) (errorCode : ℤ) : Option Sched := do
  let s := s.setState s.current .zombie
  let s := s.setExitCode s.current errorCode
  let (flag, s) := s.intrSave
  let s ← s.wakeParent
  let s ← s.giveChildren
  some (s.intrRestore flag)

/-- `do_exit(error_code)`; when `schedule` returns to it, it panics. -/
def doExit (s : Sched) (errorCode : ℤ) : Option Sched := do
  let body ← s.exitBody errorCode
  let t ← body.schedule
  -- with another `current` it is that process that runs on, and not the code behind the call
  if t.current = body.current then none else some t

/-! ## `sched_init` -/

/-- `idle_init()`, with the address of `user_stack`. -/
def idleInit (s : Sched) (userStack : Word) : Option Sched := do
  let (proc, s) ← s.allocProc
  let idle ← proc
  let s := { s with idleProc := idle }
  let s := s.setPid idle 0
  let s := s.setState idle .runnable
  let s := s.setKstack idle userStack
  let s := s.setMm idle (some initMmPtr)
  let s := { s with nrProcess := s.nrProcess + 1 }
  let s := s.setCurrent idle
  let s := s.hashProc idle
  some (s.setLink (listAdd s.link .procList (.listLink idle)))

/-- The trap frame of `init_proc_init`, with the address of `init_main`. -/
def initFrame (initMain : Word) : TrapFrame where
  regs := ⟨0#32, 0#32, 0#32, 0#32, 0#32, 0#32, 0#32, 0#32⟩
  trapno := 0#32
  err := 0#32
  eip := initMain
  cs := KERNEL_CS
  padding1 := 0#16
  eflags := FL_IF
  esp := 0#32
  ss := 0#16
  padding2 := 0#16

/-- `init_proc_init()` -/
def initProcInit (s : Sched) (initMain : Word) : Option Sched := do
  let (ret, s) ← s.doFork 0#32 0#32 (initFrame initMain)
  let init ← s.findProc ret
  let s := { s with initProc := init }
  -- the name is copied into it
  let _ ← init
  some s

/-- The initialised heads. -/
def initHeads (link : Links SchedEntry) : Links SchedEntry :=
  (List.range HASH_LIST_SIZE).foldl (fun link i => listInit link (.hashList i))
    (listInit link .procList)

/-- `sched_init()` -/
def schedInit (s : Sched) (userStack initMain : Word) : Option Sched := do
  let s := s.setLink (initHeads s.link)
  let s ← s.idleInit userStack
  s.initProcInit initMain

end Sched
end Zonix
