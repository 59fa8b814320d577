import Zonix.Mm.Lists
import Zonix.Sched.Sched
import Zonix.Lib.Kin

/-!
# What the functions of `sched.c` do to the processes

One lemma for each function says what it leaves behind: `Forked` for `do_fork`, `Adopted` for
the loop of `do_exit`, `Switched` for `proc_run`. The family pointers of all tasks together
are a `Kin`, and the edits of `set_links`, `remove_links` and of the adoption are those of
the library.
-/

namespace Zonix
open Lib

/-- A task without its family pointers. -/
def TaskStruct.core (t : TaskStruct) : TaskStruct :=
  { t with parent := none, cptr := none, yptr := none, optr := none }

/-- A task without its state and its context. -/
def TaskStruct.steady (t : TaskStruct) : TaskStruct :=
  { t with state := .uninit, context := .zero }

/-- Tasks with the same core agree on every other field. -/
theorem TaskStruct.core_congr {α : Type*} {a b : TaskStruct} (f : TaskStruct → α)
    (hf : ∀ t : TaskStruct, f t.core = f t) (h : a.core = b.core) : f a = f b := by
  rw [← hf a, h, hf b]

theorem TaskStruct.steady_congr {α : Type*} {a b : TaskStruct} (f : TaskStruct → α)
    (hf : ∀ t : TaskStruct, f t.steady = f t) (h : a.steady = b.steady) : f a = f b := by
  rw [← hf a, h, hf b]

/-- The family pointers of the tasks. -/
def Tasks.kin (task : Tasks) : Kin ℕ where
  parent p := (task p).parent
  cptr p := (task p).cptr
  yptr p := (task p).yptr
  optr p := (task p).optr

theorem Tasks.kin_congr {task task' : Tasks} (h : ∀ p, (task' p).steady = (task p).steady) :
    task'.kin = task.kin := by
  ext1 <;> funext p
  · exact TaskStruct.steady_congr TaskStruct.parent (fun _ => rfl) (h p)
  · exact TaskStruct.steady_congr TaskStruct.cptr (fun _ => rfl) (h p)
  · exact TaskStruct.steady_congr TaskStruct.yptr (fun _ => rfl) (h p)
  · exact TaskStruct.steady_congr TaskStruct.optr (fun _ => rfl) (h p)

namespace Sched

variable {s t : Sched} {proc p q : ℕ}

/-! ## Interrupts -/

/-- `s.eflags & FL_IF` -/
def IfSet (s : Sched) : Prop := s.eflags &&& FL_IF ≠ 0#32

instance (s : Sched) : Decidable s.IfSet := inferInstanceAs (Decidable (_ ≠ _))

theorem intrSave_of_set (h : s.IfSet) :
    s.intrSave = (1#32, s.setEflags (s.eflags &&& ~~~FL_IF)) := if_pos h

theorem intrSave_of_not_set (h : ¬ s.IfSet) : s.intrSave = (0#32, s) := if_neg h

theorem intrSave_snd (s : Sched) : ∃ e, s.intrSave.2 = s.setEflags e := by
  by_cases h : s.IfSet
  · exact ⟨_, by rw [intrSave_of_set h]⟩
  · exact ⟨s.eflags, by rw [intrSave_of_not_set h]; rfl⟩

theorem intrRestore_eq (s : Sched) (flag : Word) : ∃ e, s.intrRestore flag = s.setEflags e := by
  rw [intrRestore]
  split_ifs with h
  · exact ⟨_, rfl⟩
  · exact ⟨s.eflags, rfl⟩

theorem and_or_flag (e : Word) (h : e &&& FL_IF ≠ 0#32) : e &&& ~~~FL_IF ||| FL_IF = e := by
  have hbit : e.getLsbD 9 = true := by
    by_contra hno
    refine h (BitVec.eq_of_getLsbD_eq fun i hi => ?_)
    have hmask : ∀ j < 32, (FL_IF).getLsbD j = decide (j = 9) := by decide
    rw [BitVec.getLsbD_and, hmask i hi]
    by_cases h9 : i = 9
    · rw [h9, Bool.not_eq_true _ |>.mp hno]
      rfl
    · simp [h9]
  apply BitVec.eq_of_getLsbD_eq
  intro i hi
  have hmask : ∀ j < 32, (FL_IF).getLsbD j = decide (j = 9) := by decide
  rw [BitVec.getLsbD_or, BitVec.getLsbD_and, BitVec.getLsbD_not, hmask i hi]
  by_cases h9 : i = 9
  · subst h9
    simp [hbit]
  · simp [h9, hi]

/-- What `intr_save` changed, `intr_restore` changes back. -/
theorem intrRestore_intrSave (ht : t.eflags = s.intrSave.2.eflags) :
    (t.intrRestore s.intrSave.1).eflags = s.eflags := by
  by_cases h : s.IfSet
  · rw [intrSave_of_set h] at ht ⊢
    rw [intrRestore, if_pos (show (1#32 : Word) ≠ 0#32 by decide)]
    show t.eflags ||| FL_IF = s.eflags
    rw [ht]
    exact and_or_flag s.eflags h
  · rw [intrSave_of_not_set h] at ht ⊢
    rw [intrRestore, if_neg (show ¬ (0#32 : Word) ≠ 0#32 by decide)]
    exact ht

theorem intrRestore_of_saved {u v : Sched} {flag : Word} (hsave : s.intrSave = (flag, v))
    (hu : u.eflags = v.eflags) : u.intrRestore flag = u.setEflags s.eflags := by
  obtain ⟨e, he⟩ := u.intrRestore_eq flag
  have hflag : flag = s.intrSave.1 := by rw [hsave]
  have heflags : (u.intrRestore s.intrSave.1).eflags = s.eflags :=
    intrRestore_intrSave (by rw [hsave, hu])
  rw [← hflag, he] at heflags
  rw [he, show e = s.eflags from heflags]

/-! ## `do_fork` -/

/-- The task of a new child of `parent`, before it is entered anywhere. -/
def childTask (s : Sched) (proc kst : ℕ) : TaskStruct where
  state := .uninit
  pid := -1
  kstack := page2kva kst
  parent := some s.current
  mm := (s.task s.current).mm
  context := .forkret (page2kva kst + KSTACK_SIZE - SIZEOF_TRAP_FRAME)
  tf := page2kva kst + KSTACK_SIZE - SIZEOF_TRAP_FRAME
  exitCode := (s.task proc).exitCode
  waitState := 0#32
  cptr := none
  yptr := none
  optr := none

/-- The frame that `copy_thread` writes. -/
def childFrame (stack : Word) (tf : TrapFrame) : TrapFrame :=
  { tf with regs := { tf.regs with eax := 0#32 }, esp := stack, eflags := tf.eflags ||| 0x200#32 }

@[simp] theorem setTask_setTask (a b : TaskStruct) :
    (s.setTask p a).setTask p b = s.setTask p b := by
  simp only [setTask, Function.update_idem]

theorem setTask_self (a : TaskStruct) : (s.setTask p a).task p = a := Function.update_self ..

theorem setVm_setTask (vm vm' : Vm) (a : TaskStruct) :
    ((s.setVm vm).setTask p a).setVm vm' = (s.setVm vm').setTask p a := rfl

/-- What `alloc_proc` fills in. -/
def freshTask (t : TaskStruct) : TaskStruct :=
  { t with
    state := .uninit, pid := -1, kstack := 0#32, parent := none, mm := none, context := .zero,
    tf := 0#32, waitState := 0#32, cptr := none, optr := none, yptr := none }

theorem allocProc_of_alloc {pmm : Pmm} (h : s.vm.pmm.alloc 1 = some (some proc, pmm)) :
    s.allocProc = some (some proc,
      (s.setVm (s.vm.setPmm pmm)).setTask proc (freshTask (s.task proc))) := by
  rw [allocProc, Vm.allocPages, h]
  rfl

theorem setupKstack_of_alloc {page : ℕ} {pmm : Pmm}
    (h : s.vm.pmm.alloc 1 = some (some page, pmm)) : s.setupKstack proc =
      some (0, (s.setVm (s.vm.setPmm pmm)).setTask proc
        { s.task proc with kstack := page2kva page }) := by
  rw [setupKstack, Vm.allocPages, h]
  rfl

theorem copyMm_eq (s : Sched) (cloneFlags : Word) (proc : ℕ) :
    s.copyMm cloneFlags proc = s.setMm proc (s.task s.current).mm := by
  rw [copyMm]
  split_ifs with h
  · rw [h]
  · rfl

/-- `do_fork` with a child that is in no table yet. -/
def withChild (s : Sched) (stack : Word) (tf : TrapFrame) (proc kst : ℕ) (pmm : Pmm) : Sched :=
  (s.setVm ((s.vm.setPmm pmm).storeTrapFrame (page2kva kst + KSTACK_SIZE - SIZEOF_TRAP_FRAME)
    (childFrame stack tf))).setTask proc (s.childTask proc kst)

section ForkChild
variable {cloneFlags stack : Word} {tf : TrapFrame} {kst : ℕ} {pmm pmm' : Pmm}

/-- Without a page for the task, `proc` is `NULL`. -/
theorem forkChild_noTask (h : s.vm.pmm.alloc 1 = some (none, pmm)) :
    s.forkChild cloneFlags stack tf = none := by
  simp [forkChild, allocProc, Vm.allocPages, h]

/-- Without a page for the stack, `kstack` stays 0. -/
theorem forkChild_noStack (h : s.vm.pmm.alloc 1 = some (some proc, pmm))
    (h' : pmm.alloc 1 = some (none, pmm')) : s.forkChild cloneFlags stack tf = none := by
  rw [forkChild, allocProc_of_alloc h]
  simp [setupKstack, Vm.allocPages, setParent, setTask, setVm, h', copyMm_eq, setMm, copyThread,
    setTf, freshTask]

theorem forkChild_of_alloc (hne : s.current ≠ proc)
    (h : s.vm.pmm.alloc 1 = some (some proc, pmm)) (h' : pmm.alloc 1 = some (some kst, pmm')) :
    s.forkChild cloneFlags stack tf =
      if page2kva kst = 0#32 then none else some (proc, s.withChild stack tf proc kst pmm') := by
  rw [forkChild, allocProc_of_alloc h]
  simp only [Option.bind_eq_bind, Option.bind_some, setParent, setTask_self, setTask_setTask]
  rw [setupKstack_of_alloc h']
  simp only [Option.bind_some, setTask_self, setVm_setTask, setTask_setTask, copyMm_eq, setMm,
    copyThread, setTf, setContext]
  split_ifs with hzero
  · rfl
  · -- the task of `current` is not the one that was written
    simp only [setTask, setVm, Vm.setPmm, Function.update_of_ne hne]
    rfl

/-- The child is in a page of its own, and so is its stack. -/
theorem forkChild_spec {ram : Set ℕ} {bs : List Extent} (h : s.vm.pmm.Inv ram bs)
    (hcur : s.current ∉ s.vm.pmm.freePages)
    (heq : s.forkChild cloneFlags stack tf = some (proc, t)) :
    ∃ kst pmm pmm', s.vm.pmm.alloc 1 = some (some proc, pmm) ∧ s.vm.pmm.Takes 1 proc pmm ∧
      pmm.alloc 1 = some (some kst, pmm') ∧ pmm.Takes 1 kst pmm' ∧ page2kva kst ≠ 0#32 ∧
      t = s.withChild stack tf proc kst pmm' := by
  rcases h.alloc_cases le_rfl with ⟨hall, -⟩ | ⟨page, pmm, hall, ht⟩
  · rw [forkChild_noTask hall] at heq
    exact absurd heq (by simp)
  have hne : s.current ≠ page := fun hcp => hcur (hcp ▸ ht.one.1)
  obtain ⟨bs', h'⟩ := ht.inv ram bs h
  rcases h'.alloc_cases le_rfl with ⟨hall', -⟩ | ⟨kst, pmm', hall', ht'⟩
  · rw [forkChild_noStack hall hall'] at heq
    exact absurd heq (by simp)
  · rw [forkChild_of_alloc hne hall hall'] at heq
    split_ifs at heq with hzero
    obtain ⟨rfl, rfl⟩ := Prod.mk.inj (Option.some.inj heq)
    exact ⟨kst, pmm, pmm', hall, ht, hall', ht', hzero, rfl⟩

end ForkChild

end Sched

/-! ## Family pointers -/

namespace Tasks

variable {task : Tasks} {proc p init : ℕ}

section Pointers
variable (task p) (v : Option ℕ) (r : ℕ)

theorem update_core {a : TaskStruct} (ha : a.core = (task p).core) :
    (Function.update task p a r).core = (task r).core := by
  rw [Function.update_apply]
  split_ifs with h
  · rw [h, ha]
  · rfl

@[simp] theorem setParent_core : (task.setParent p v r).core = (task r).core :=
  update_core task p r rfl

@[simp] theorem setCptr_core : (task.setCptr p v r).core = (task r).core :=
  update_core task p r rfl

@[simp] theorem setYptr_core : (task.setYptr p v r).core = (task r).core :=
  update_core task p r rfl

@[simp] theorem setOptr_core : (task.setOptr p v r).core = (task r).core :=
  update_core task p r rfl

theorem setParent_kin :
    (task.setParent p v).kin = { task.kin with parent := Function.update task.kin.parent p v } := by
  ext1 <;> funext q <;> by_cases h : q = p <;> simp [kin, setParent, h]

theorem setCptr_kin :
    (task.setCptr p v).kin = { task.kin with cptr := Function.update task.kin.cptr p v } := by
  ext1 <;> funext q <;> by_cases h : q = p <;> simp [kin, setCptr, h]

theorem setYptr_kin :
    (task.setYptr p v).kin = { task.kin with yptr := Function.update task.kin.yptr p v } := by
  ext1 <;> funext q <;> by_cases h : q = p <;> simp [kin, setYptr, h]

theorem setOptr_kin :
    (task.setOptr p v).kin = { task.kin with optr := Function.update task.kin.optr p v } := by
  ext1 <;> funext q <;> by_cases h : q = p <;> simp [kin, setOptr, h]

@[simp] theorem setYptrOf_core (o : Option ℕ) :
    (task.setYptrOf o v r).core = (task r).core := by
  cases o with
  | none => rfl
  | some o => exact setYptr_core task o v r

theorem setYptrOf_kin (o : Option ℕ) : (task.setYptrOf o v).kin =
    { task.kin with yptr := fun x => if o = some x then v else task.kin.yptr x } := by
  cases o with
  | none => simp [setYptrOf]
  | some o =>
    rw [setYptrOf, setYptr_kin]
    ext1
    · rfl
    · rfl
    · funext x
      simp [Function.update_apply, eq_comm]
    · rfl

end Pointers

theorem link_core (r : ℕ) : (task.link proc p r).core = (task r).core := by
  simp [link]

/-- `set_links` of a new process is `push`. -/
theorem link_kin (hparent : task.kin.parent proc = some p) (hcptr : task.kin.cptr proc = none) :
    (task.link proc p).kin = task.kin.push p proc := by
  have hhead : (task.setYptr proc none p).cptr = task.kin.cptr p := by
    show (task.setYptr proc none).kin.cptr p = task.kin.cptr p
    rw [setYptr_kin]
  have hp : Function.update task.kin.parent proc (some p) = task.kin.parent := by
    rw [← hparent, Function.update_eq_self]
  have hc : Function.update task.kin.cptr proc none = task.kin.cptr := by
    rw [← hcptr, Function.update_eq_self]
  rw [link, hhead, Kin.push, hp, hc, setCptr_kin, setYptrOf_kin, setOptr_kin, setYptr_kin]
  ext1
  · rfl
  · rfl
  · funext x
    simp [Function.update_apply]
  · rfl

theorem adopt_core (current r : ℕ) : (task.adopt current init proc r).core = (task r).core := by
  simp [adopt]

theorem adopt_parent (current r : ℕ) :
    (task.adopt current init proc).kin.parent r = task.kin.parent r ∨
      (task.adopt current init proc).kin.parent r = some init := by
  rw [adopt, setCptr_kin, setParent_kin, setYptrOf_kin, setOptr_kin, setYptr_kin, setCptr_kin]
  by_cases hr : r = proc
  · right
    rw [hr]
    exact Function.update_self ..
  · left
    exact Function.update_of_ne hr ..

/-- A turn of the loop in `do_exit` is `adopt`. -/
theorem adopt_kin {current : ℕ} (hne : init ≠ current) :
    (task.adopt current init proc).kin = task.kin.adopt current init proc := by
  have hhead : ((task.setCptr current (task proc).optr).setYptr proc none init).cptr =
      task.kin.cptr init := by
    show ((task.setCptr current (task proc).optr).setYptr proc none).kin.cptr init = _
    rw [setYptr_kin, setCptr_kin]
    exact Function.update_of_ne hne ..
  rw [adopt, hhead, Kin.adopt, setCptr_kin, setParent_kin, setYptrOf_kin, setOptr_kin,
    setYptr_kin, setCptr_kin]
  ext1
  · rfl
  · rfl
  · funext x
    simp [Function.update_apply]
  · rfl

/-- `remove_links` is `remove`. -/
theorem unlink_spec (hparent : task.kin.parent proc = some p) :
    ∃ task', task.unlink proc = some task' ∧ task'.kin = task.kin.remove proc ∧
      ∀ r, (task' r).core = (task r).core := by
  set u := task.setYptrOf (task proc).optr (task proc).yptr with hu
  have hkin : u.kin = { task.kin with
      yptr := fun x => if (task proc).optr = some x then (task proc).yptr else task.kin.yptr x } :=
    setYptrOf_kin ..
  have hcore : ∀ r, (u r).core = (task r).core := fun r => setYptrOf_core ..
  -- `proc` keeps its own pointers
  have hyptr : (u proc).yptr = task.kin.yptr proc := by
    show u.kin.yptr proc = _
    rw [hkin]
    exact ite_self _
  have hoptr : (u proc).optr = task.kin.optr proc := by
    show u.kin.optr proc = _
    rw [hkin]
  have hpar : (u proc).parent = some p := by
    show u.kin.parent proc = _
    rw [hkin]
    exact hparent
  rw [unlink, ← hu]
  simp only [hyptr, hoptr, hpar, Option.bind_eq_bind, Option.bind_some]
  cases h : task.kin.yptr proc with
  | some y =>
    refine ⟨_, rfl, ?_, fun r => by rw [setOptr_core, hcore]⟩
    rw [setOptr_kin, hkin, Kin.remove, h]
    ext1
    · rfl
    · simp
    · show (fun x => if (task proc).optr = some x then task.kin.yptr proc else _) = _
      rw [h]
      rfl
    · funext x
      simp [Function.update_apply, eq_comm]
  | none =>
    refine ⟨_, rfl, ?_, fun r => by rw [setCptr_core, hcore]⟩
    rw [setCptr_kin, hkin, Kin.remove, h, hparent]
    ext1
    · rfl
    · funext x
      simp [Function.update_apply, eq_comm]
    · show (fun x => if (task proc).optr = some x then task.kin.yptr proc else _) = _
      rw [h]
      rfl
    · simp

end Tasks

namespace Sched

variable {s t : Sched} {proc p q init : ℕ}

/-! ## `wakeup_proc` and `do_fork` -/

theorem setState_self (h : (s.task p).state = .runnable) : s.setState p .runnable = s := by
  have ht : ({ s.task p with state := .runnable } : TaskStruct) = s.task p := by rw [← h]
  rw [setState, setTask, ht, Function.update_eq_self]

theorem wakeupProc_eq (h : (s.task p).state ≠ .zombie) :
    s.wakeupProc p = some (s.setState p .runnable) := by
  rw [wakeupProc, if_neg h]
  split_ifs with hr
  · rfl
  · rw [setState_self (not_not.mp hr)]

theorem wakeupProc_eq_some (h : s.wakeupProc p = some t) :
    (s.task p).state ≠ .zombie ∧ t = s.setState p .runnable := by
  by_cases hz : (s.task p).state = .zombie
  · rw [wakeupProc, if_pos hz] at h
    exact absurd h (by simp)
  · rw [wakeupProc_eq hz] at h
    exact ⟨hz, (Option.some.inj h).symm⟩

/-- `do_fork` made the process `proc` with the kernel stack `kst`. -/
structure Forked (s : Sched) (stack : Word) (tf : TrapFrame) (proc kst : ℕ) (t : Sched) :
    Prop where
  wasFree : proc ∈ s.vm.pmm.freePages
  kstFree : kst ∈ s.vm.pmm.freePages
  freePages : t.vm.pmm.freePages = s.vm.pmm.freePages \ {proc, kst}
  inv : ∀ ram, (∃ bs, s.vm.pmm.Inv ram bs) → ∃ bs, t.vm.pmm.Inv ram bs
  mem : t.vm.mem = (s.vm.storeTrapFrame (page2kva kst + KSTACK_SIZE - SIZEOF_TRAP_FRAME)
    (childFrame stack tf)).mem
  cr3 : t.vm.cr3 = s.vm.cr3
  mms : t.mms = s.mms
  link : t.link = listAdd (listAdd s.link (.hashList (pidHashfn s.nextPid)) (.hashLink proc))
    .procList (.listLink proc)
  current : t.current = s.current
  idleProc : t.idleProc = s.idleProc
  initProc : t.initProc = s.initProc
  nrProcess : t.nrProcess = s.nrProcess + 1
  nextPid : t.nextPid = s.nextPid + 1
  eflags : t.eflags = s.eflags
  others : ∀ r, r ≠ proc → (t.task r).core = (s.task r).core
  child : (t.task proc).core =
    { s.childTask proc kst with state := .runnable, pid := s.nextPid, parent := none }
  kin : t.task.kin = s.task.kin.push s.current proc

theorem kin_update_core {task : Tasks} {a : TaskStruct} (hparent : a.parent = (task p).parent)
    (hcptr : a.cptr = (task p).cptr) (hyptr : a.yptr = (task p).yptr)
    (hoptr : a.optr = (task p).optr) :
    Tasks.kin (Function.update task p a) = task.kin := by
  ext1 <;> funext q <;> by_cases h : q = p <;> simp [Tasks.kin, h, hparent, hcptr, hyptr, hoptr]

/-- What `do_fork` does to a child that is a child of `p` and in no table yet. -/
theorem enlist_spec (hparent : s.task.kin.parent proc = some p)
    (hcptr : s.task.kin.cptr proc = none) (hstate : (s.task proc).state = .uninit) :
    ∃ task, s.enlist proc = some (s.nextPid, { s with
        task := task
        link := listAdd (listAdd s.link (.hashList (pidHashfn s.nextPid)) (.hashLink proc))
          .procList (.listLink proc)
        nrProcess := s.nrProcess + 1
        nextPid := s.nextPid + 1 }) ∧
      (∀ r, r ≠ proc → (task r).core = (s.task r).core) ∧
      (task proc).core = { (s.task proc).core with state := .runnable, pid := s.nextPid } ∧
      task.kin = s.task.kin.push p proc := by
  set task₁ : Tasks := Function.update s.task proc { s.task proc with pid := s.nextPid } with htask₁
  have hkin₁ : task₁.kin = s.task.kin := kin_update_core rfl rfl rfl rfl
  set task₂ := task₁.link proc p with htask₂
  have hkin₂ : task₂.kin = s.task.kin.push p proc := by
    rw [htask₂, Tasks.link_kin (hkin₁ ▸ hparent) (hkin₁ ▸ hcptr), hkin₁]
  have hcore₂ : ∀ r, (task₂ r).core = (task₁ r).core := fun r => Tasks.link_core r
  set task₃ : Tasks := Function.update task₂ proc { task₂ proc with state := .runnable }
    with htask₃
  have hkin₃ : task₃.kin = task₂.kin := kin_update_core rfl rfl rfl rfl
  have hchild : (task₂ proc).core = { (s.task proc).core with pid := s.nextPid } := by
    rw [hcore₂, htask₁, Function.update_self]
    rfl
  refine ⟨task₃, ?_, fun r hr => ?_, ?_, hkin₃.trans hkin₂⟩
  · obtain ⟨e, hsave⟩ := s.intrSave_snd
    rcases hflag : s.intrSave with ⟨flag, v⟩
    obtain rfl : v = s.setEflags e := by rw [← hsave, hflag]
    have hparent₁ : (task₁ proc).parent = some p := (congrArg (·.parent proc) hkin₁).trans hparent
    have hz : (task₂ proc).state ≠ .zombie := by
      have hcore : (task₂ proc).core.state = (s.task proc).state := by rw [hchild]; rfl
      rw [show (task₂ proc).state = (s.task proc).state from hcore, hstate]
      simp
    have hpid : (task₂ proc).core.pid = s.nextPid := by rw [hchild]
    set link₁ := listAdd s.link (.hashList (pidHashfn s.nextPid)) (.hashLink proc) with hlink₁
    -- the state that `hash_proc` leaves
    have hhash : (((s.setEflags e).getPid.2.setPid proc s.nextPid).hashProc proc) =
        { s with eflags := e, task := task₁, link := link₁, nextPid := s.nextPid + 1 } := by
      rw [hashProc, setPid, setTask_self]
      rfl
    rw [enlist, hflag]
    show (setLinks (((s.setEflags e).getPid.2.setPid proc s.nextPid).hashProc proc) proc).bind _ = _
    rw [hhash, setLinks, show (task₁ proc).parent = some p from hparent₁]
    show Option.bind (wakeupProc (intrRestore _ flag) proc) _ = _
    rw [intrRestore_of_saved hflag (by rfl), wakeupProc_eq hz, Option.bind_some]
    refine congrArg some (Prod.ext ?_ rfl)
    show (Function.update task₂ proc _ proc).pid = s.nextPid
    rw [Function.update_self]
    exact hpid
  · rw [htask₃, Function.update_of_ne hr, hcore₂, htask₁, Function.update_of_ne hr]
  · rw [htask₃, Function.update_self]
    exact congrArg (fun c : TaskStruct => { c with state := .runnable }) hchild

/-- `push` writes all pointers of the new child. -/
theorem push_congr {k k' : Kin ℕ} (hne : p ≠ proc)
    (hparent : ∀ r, r ≠ proc → k'.parent r = k.parent r)
    (hcptr : ∀ r, r ≠ proc → k'.cptr r = k.cptr r) (hyptr : ∀ r, r ≠ proc → k'.yptr r = k.yptr r)
    (hoptr : ∀ r, r ≠ proc → k'.optr r = k.optr r) : k'.push p proc = k.push p proc := by
  ext1 <;> funext r <;> by_cases hr : r = proc
  all_goals simp only [Kin.push, Function.update_apply, hr, hcptr p hne, if_true, if_false]
  · rw [hparent r hr]
  · rw [hcptr r hr]
  · rw [hyptr r hr]
  · rw [hoptr r hr]

/-- The child is entered, and is as `Forked` says. -/
theorem enlist_forked (stack : Word) (tf : TrapFrame) {kst : ℕ} {pmm pmm' : Pmm}
    (hcur : s.current ∉ s.vm.pmm.freePages) (ht : s.vm.pmm.Takes 1 proc pmm)
    (ht' : pmm.Takes 1 kst pmm') : ∃ t, (s.withChild stack tf proc kst pmm').enlist proc =
      some (s.nextPid, t) ∧ s.Forked stack tf proc kst t := by
  obtain ⟨hfree, hfree'⟩ := ht.one
  obtain ⟨hkst, hkst'⟩ := ht'.one
  have hne : s.current ≠ proc := fun hcp => hcur (hcp ▸ hfree)
  set u := s.withChild stack tf proc kst pmm' with hu
  have hself : u.task proc = s.childTask proc kst := Function.update_self ..
  have hother : ∀ r, r ≠ proc → u.task r = s.task r := fun r hr => Function.update_of_ne hr ..
  have hparent : u.task.kin.parent proc = some s.current := congrArg TaskStruct.parent hself
  have hcptr : u.task.kin.cptr proc = none := congrArg TaskStruct.cptr hself
  have hstate : (u.task proc).state = .uninit := congrArg TaskStruct.state hself
  obtain ⟨task, hlist, hothers, hcore, hkin⟩ := enlist_spec hparent hcptr hstate
  refine ⟨_, hlist, ?_⟩
  have hkst₂ : kst ∈ s.vm.pmm.freePages := by
    rw [hfree'] at hkst
    exact hkst.1
  have htaken : pmm'.freePages = s.vm.pmm.freePages \ {proc, kst} := by
    rw [hkst', hfree', Set.sdiff_sdiff, Set.singleton_union]
  have hinv : ∀ ram, (∃ bs, s.vm.pmm.Inv ram bs) → ∃ bs, pmm'.Inv ram bs := by
    rintro ram ⟨bs, hb⟩
    obtain ⟨bs', hb'⟩ := ht.inv ram bs hb
    exact ht'.inv ram bs' hb'
  have hchild : (task proc).core =
      { s.childTask proc kst with state := .runnable, pid := s.nextPid, parent := none } := by
    rw [hcore, hself]
    rfl
  have hpush : u.task.kin.push s.current proc = s.task.kin.push s.current proc :=
    push_congr hne (fun r hr => congrArg TaskStruct.parent (hother r hr))
      (fun r hr => congrArg TaskStruct.cptr (hother r hr))
      (fun r hr => congrArg TaskStruct.yptr (hother r hr))
      fun r hr => congrArg TaskStruct.optr (hother r hr)
  refine ⟨hfree, hkst₂, htaken, hinv, rfl, rfl, rfl, rfl, rfl, rfl, rfl, rfl, rfl,
    rfl, fun r hr => ?_, hchild, hkin.trans hpush⟩
  rw [hothers r hr, hother r hr]

/-- The pages of the task and of its stack. -/
theorem doFork_takes {ram : Set ℕ} {bs : List Extent} (h : s.vm.pmm.Inv ram bs)
    (hcur : s.current ∉ s.vm.pmm.freePages) {cloneFlags stack : Word} {tf : TrapFrame} {pid : ℤ}
    (heq : s.doFork cloneFlags stack tf = some (pid, t)) :
    pid = s.nextPid ∧ ∃ proc kst pmm pmm', s.vm.pmm.Takes 1 proc pmm ∧ pmm.Takes 1 kst pmm' ∧
      s.Forked stack tf proc kst t := by
  rw [doFork, Option.bind_eq_bind, Option.bind_eq_some_iff] at heq
  obtain ⟨⟨proc, u⟩, hchild, heq⟩ := heq
  obtain ⟨kst, pmm, pmm', -, ht, -, ht', -, rfl⟩ := forkChild_spec h hcur hchild
  obtain ⟨v, hlist, hf⟩ := enlist_forked stack tf hcur ht ht'
  obtain ⟨rfl, rfl⟩ := Prod.mk.inj (Option.some.inj (hlist.symm.trans heq))
  exact ⟨rfl, proc, kst, pmm, pmm', ht, ht', hf⟩

theorem doFork_spec {ram : Set ℕ} {bs : List Extent} (h : s.vm.pmm.Inv ram bs)
    (hcur : s.current ∉ s.vm.pmm.freePages) {cloneFlags stack : Word} {tf : TrapFrame} {pid : ℤ}
    (heq : s.doFork cloneFlags stack tf = some (pid, t)) :
    pid = s.nextPid ∧ ∃ proc kst, s.Forked stack tf proc kst t := by
  obtain ⟨hpid, proc, kst, pmm, pmm', -, -, hf⟩ := doFork_takes h hcur heq
  exact ⟨hpid, proc, kst, hf⟩

/-! ## Switching -/

/-- `eflags` when the code that `context` leads to runs again. -/
def Resumes (s : Sched) (context : Context) (eflags : Word) : Prop :=
  match context with
  | .zero => False
  | .forkret esp => eflags = (s.trapret esp).eflags
  | .switchTo flags => eflags = (s.restoreAll flags).eflags

/-- `lcr3` when the next process has another directory. -/
def switchVm (s : Sched) (next : Word) (prev : Word) : Vm :=
  if next ≠ prev then s.vm.lcr3 next else s.vm

/-- `proc_run(proc)` switched to another process; `callers` are those of the old one. -/
structure Switched (s : Sched) (proc : ℕ) (callers : List Word) (t : Sched) : Prop where
  current : t.current = proc
  vm : ∃ next prev, s.procGetCr3 proc = some next ∧ s.procGetCr3 s.current = some prev ∧
    t.vm = s.switchVm next prev
  mms : t.mms = s.mms
  link : t.link = s.link
  idleProc : t.idleProc = s.idleProc
  initProc : t.initProc = s.initProc
  nrProcess : t.nrProcess = s.nrProcess
  nextPid : t.nextPid = s.nextPid
  next : t.task proc = { s.task proc with state := .running }
  prev : t.task s.current =
    { s.task s.current with context := .switchTo (s.intrSave.1 :: callers) }
  others : ∀ p, p ≠ proc → p ≠ s.current → t.task p = s.task p
  resumes : s.intrSave.2.Resumes (s.task proc).context t.eflags

/-- One `intr_restore`, as a function of `eflags`. -/
def restoreFlag (eflags flag : Word) : Word := if flag ≠ 0#32 then eflags ||| FL_IF else eflags

theorem restoreAll_eq (s : Sched) (flags : List Word) :
    s.restoreAll flags = s.setEflags (flags.foldl restoreFlag s.eflags) := by
  induction flags generalizing s with
  | nil => rfl
  | cons flag flags ih =>
    have hone : s.intrRestore flag = s.setEflags (restoreFlag s.eflags flag) := by
      rw [intrRestore, restoreFlag]
      split_ifs <;> rfl
    show (s.intrRestore flag).restoreAll flags = _
    rw [ih, hone]
    rfl

theorem procGetCr3_congr (hmm : (t.task p).mm = (s.task p).mm) (hmms : t.mms = s.mms) :
    t.procGetCr3 p = s.procGetCr3 p := by
  rw [procGetCr3, procGetCr3, hmm, hmms]

/-- `setState` changes the state of one process. -/
theorem setState_state (state : ProcState) : ((s.setState p state).task q).state =
    if q = p then state else (s.task q).state := by
  rw [setState, setTask_task]
  split_ifs <;> rfl

/-- It changes no other field. -/
theorem setState_keeps {α : Type*} (field : TaskStruct → α) (state : ProcState)
    (hfield : ∀ (task : TaskStruct) state, field { task with state := state } = field task) :
    field ((s.setState p state).task q) = field (s.task q) := by
  rw [setState, setTask_task]
  split_ifs with h
  · rw [h, hfield]
  · rfl

theorem setState_mm (state : ProcState) : ((s.setState p state).task q).mm = (s.task q).mm :=
  setState_keeps TaskStruct.mm state fun _ _ => rfl

/-- The state in which `proc_run` calls `switch_to`. -/
def atSwitch (s : Sched) (proc : ℕ) (next prev : Word) : Sched :=
  { s with
    vm := s.switchVm next prev
    task := Function.update s.task proc { s.task proc with state := .running }
    current := proc
    eflags := s.intrSave.2.eflags }

theorem atSwitch_next (s : Sched) (proc : ℕ) (next prev : Word) :
    (s.atSwitch proc next prev).task proc = { s.task proc with state := .running } :=
  Function.update_self ..

theorem beforeSwitch_eq (s : Sched) (proc : ℕ) : s.beforeSwitch proc =
    (s.procGetCr3 proc).bind fun next => (s.procGetCr3 s.current).bind fun prev =>
      some (s.intrSave.1, s.atSwitch proc next prev) := by
  obtain ⟨e, hsave⟩ := s.intrSave_snd
  rcases hflag : s.intrSave with ⟨f, v⟩
  obtain rfl : v = s.setEflags e := by rw [← hsave, hflag]
  have hcr3 : ∀ q, (((s.setEflags e).setCurrent proc).setState proc .running).procGetCr3 q =
      s.procGetCr3 q := fun q => procGetCr3_congr (setState_mm _) rfl
  rw [beforeSwitch, hflag]
  simp only [Option.bind_eq_bind, hcr3]
  refine congrArg _ (funext fun next => congrArg _ (funext fun prev => ?_))
  rw [atSwitch, switchVm, hflag]
  split_ifs <;> rfl

/-- `switch_to` leads somewhere unless the context is all zero. -/
theorem switchTo_spec {prev : ℕ} {flags : List Word} (hne : proc ≠ prev)
    (h : s.switchTo prev proc flags = some t) :
    ∃ e, t = { s with
        task := Function.update s.task prev { s.task prev with context := .switchTo flags }
        eflags := e } ∧ s.Resumes (s.task proc).context e := by
  have hself : ((s.setContext prev (.switchTo flags)).task proc).context =
      (s.task proc).context := by
    rw [setContext, setTask_task, if_neg hne]
  rw [switchTo, hself] at h
  cases hc : (s.task proc).context with
  | zero =>
    rw [hc] at h
    exact absurd h (by simp)
  | forkret esp =>
    rw [hc] at h
    obtain rfl := Option.some.inj h
    exact ⟨_, rfl, rfl⟩
  | switchTo resumed =>
    rw [hc] at h
    obtain rfl := Option.some.inj h
    rw [restoreAll_eq]
    refine ⟨_, rfl, ?_⟩
    rw [Resumes, restoreAll_eq]
    rfl

theorem Resumes.congr {context : Context} {eflags : Word} (h : s.Resumes context eflags)
    (heflags : t.eflags = s.eflags) (hmem : t.vm.mem = s.vm.mem) : t.Resumes context eflags := by
  cases context with
  | zero => exact h
  | forkret esp =>
    rw [Resumes, trapret, hmem]
    exact h
  | switchTo flags =>
    rw [Resumes, restoreAll_eq] at h ⊢
    rw [heflags]
    exact h

theorem switchVm_pmm (next prev : Word) : (s.switchVm next prev).pmm = s.vm.pmm := by
  rw [switchVm]
  split_ifs <;> rfl

theorem switchVm_mem (next prev : Word) : (s.switchVm next prev).mem = s.vm.mem := by
  rw [switchVm]
  split_ifs <;> rfl

theorem intrSave_vm (s : Sched) : s.intrSave.2.vm = s.vm := by
  obtain ⟨e, he⟩ := s.intrSave_snd
  rw [he]
  rfl

/-- `proc_run` of another process. -/
theorem procRun_spec {callers : List Word} (hne : proc ≠ s.current)
    (h : s.procRun proc callers = some t) : s.Switched proc callers t := by
  rw [procRun, if_pos hne, Option.bind_eq_bind, Option.bind_eq_some_iff] at h
  obtain ⟨⟨flag, u⟩, hbefore, h⟩ := h
  rw [beforeSwitch_eq, Option.bind_eq_some_iff] at hbefore
  obtain ⟨next, hnext, hbefore⟩ := hbefore
  rw [Option.bind_eq_some_iff] at hbefore
  obtain ⟨prev, hprev, hbefore⟩ := hbefore
  obtain ⟨rfl, rfl⟩ := Prod.mk.inj (Option.some.inj hbefore)
  obtain ⟨e, rfl, hresumes⟩ := switchTo_spec hne h
  have hself := s.atSwitch_next proc next prev
  have hold : (s.atSwitch proc next prev).task s.current = s.task s.current :=
    Function.update_of_ne (Ne.symm hne) ..
  have hmem : s.intrSave.2.vm.mem = (s.atSwitch proc next prev).vm.mem := by
    rw [intrSave_vm, atSwitch, switchVm_mem]
  rw [hself] at hresumes
  refine ⟨rfl, ⟨next, prev, hnext, hprev, rfl⟩, rfl, rfl, rfl, rfl, rfl, rfl, ?_, ?_, ?_,
    hresumes.congr rfl hmem⟩
  · exact (Function.update_of_ne hne ..).trans hself
  · rw [← hold]
    exact Function.update_self ..
  · intro p hp hpc
    exact (Function.update_of_ne hpc ..).trans (Function.update_of_ne hp ..)

theorem procGetCr3_isSome (h : (s.task p).mm ≠ none) : ∃ cr3, s.procGetCr3 p = some cr3 := by
  obtain ⟨mm, hmm⟩ := Option.ne_none_iff_exists'.mp h
  exact ⟨_, by rw [procGetCr3, hmm]; rfl⟩

/-- `proc_run` comes back when both processes have an `mm` and the next one was suspended. -/
theorem procRun_isSome {callers : List Word} (hne : proc ≠ s.current)
    (hnext : (s.task proc).mm ≠ none) (hprev : (s.task s.current).mm ≠ none)
    (hcontext : (s.task proc).context ≠ .zero) : ∃ t, s.procRun proc callers = some t := by
  obtain ⟨next, hnext⟩ := procGetCr3_isSome hnext
  obtain ⟨prev, hprev⟩ := procGetCr3_isSome hprev
  rw [procRun, if_pos hne, beforeSwitch_eq, hnext, Option.bind_some, hprev]
  have hself : (((s.atSwitch proc next prev).setContext s.current
      (.switchTo (s.intrSave.1 :: callers))).task proc).context = (s.task proc).context := by
    rw [setContext, setTask_task, if_neg hne, atSwitch_next]
  show ∃ t, (s.atSwitch proc next prev).switchTo s.current proc (s.intrSave.1 :: callers) = some t
  rw [switchTo, hself]
  cases hc : (s.task proc).context with
  | zero => exact absurd hc hcontext
  | forkret esp => exact ⟨_, rfl⟩
  | switchTo flags => exact ⟨_, rfl⟩

/-! ## `schedule` -/

/-- The process is `TASK_RUNNABLE` once `schedule` has taken the CPU from `current`. -/
def Ready (s : Sched) (p : ℕ) : Prop :=
  (s.task p).state = .runnable ∨ (p = s.current ∧ (s.task p).state = .running)

instance (s : Sched) (p : ℕ) : Decidable (s.Ready p) := inferInstanceAs (Decidable (_ ∨ _))

/-- The process that `schedule` chooses from the list `procs`. -/
def choice (s : Sched) (procs : List ℕ) : ℕ :=
  (procs.find? fun p => decide (s.Ready p)).getD s.idleProc

/-- `schedule` made `next` the current process, or kept it. -/
structure Scheduled (s : Sched) (next : ℕ) (t : Sched) : Prop where
  current : t.current = next
  pmm : t.vm.pmm = s.vm.pmm
  mem : t.vm.mem = s.vm.mem
  mms : t.mms = s.mms
  link : t.link = s.link
  idleProc : t.idleProc = s.idleProc
  initProc : t.initProc = s.initProc
  nrProcess : t.nrProcess = s.nrProcess
  nextPid : t.nextPid = s.nextPid
  steady : ∀ p, (t.task p).steady = (s.task p).steady
  state : ∀ p, (t.task p).state =
    if next ≠ s.current ∧ p = next then .running
    else if p = s.current ∧ (s.task p).state = .running then .runnable else (s.task p).state
  context : ∀ p, (t.task p).context =
    if next ≠ s.current ∧ p = s.current then .switchTo [0#32, s.intrSave.1]
    else (s.task p).context
  kept : next = s.current → t.eflags = s.eflags
  resumes : next ≠ s.current → s.intrSave.2.Resumes (s.task next).context t.eflags

theorem demote_task (s : Sched) (p : ℕ) : s.demote.task p =
    if p = s.current ∧ (s.task p).state = .running then { s.task p with state := .runnable }
    else s.task p := by
  by_cases hr : (s.task s.current).state = .running
  · rw [demote, if_pos hr, setState, setTask_task]
    by_cases hp : p = s.current
    · rw [hp, if_pos rfl, if_pos ⟨rfl, hr⟩]
    · rw [if_neg hp, if_neg fun h => hp h.1]
  · rw [demote, if_neg hr, if_neg]
    rintro ⟨rfl, hrun⟩
    exact hr hrun

theorem setEflags_demote (s : Sched) (e : Word) :
    (s.setEflags e).demote = (s.setTasks s.demote.task).setEflags e := by
  rw [demote, demote]
  show (if (s.task s.current).state = .running then _ else _) = _
  split_ifs <;> rfl

theorem demote_runnable_iff (s : Sched) (p : ℕ) :
    (s.demote.task p).state = .runnable ↔ s.Ready p := by
  rw [demote_task, Ready]
  split_ifs with h
  · exact iff_of_true rfl (Or.inr h)
  · rw [or_iff_left h]

/-- The loop of `schedule` finds the first runnable process of the list. -/
theorem pickNext_eq {procs : List ℕ} (hr : s.link.Ring .procList (procs.map .listLink))
    (hn : s.nrProcess = procs.length) : s.pickNext =
      some ((procs.find? fun p => decide ((s.task p).state = .runnable)).getD s.idleProc) := by
  have hk : procs.length < s.nrProcess.toNat + 1 := by omega
  have hentry : ∀ p, le2procList (.listLink p) = some p := fun _ => rfl
  rw [pickNext, listSearch_ring hentry hr hk]
  rfl

theorem intrSave_clear (s : Sched) : ¬ s.intrSave.2.IfSet := by
  by_cases h : s.IfSet
  · rw [intrSave_of_set h]
    show ¬ (s.eflags &&& ~~~FL_IF) &&& FL_IF ≠ 0#32
    rw [BitVec.and_assoc, show ~~~FL_IF &&& FL_IF = 0#32 by decide, not_not]
    exact BitVec.and_zero
  · rw [intrSave_of_not_set h]
    exact h

/-- Interrupts are off when `proc_run` switches, so it has nothing to restore. -/
theorem intrSave_of_off (ht : t.eflags = s.intrSave.2.eflags) : t.intrSave = (0#32, t) := by
  have hclear : ¬ t.IfSet := by
    rw [IfSet, ht]
    exact s.intrSave_clear
  exact intrSave_of_not_set hclear

/-- The state in which `schedule` chooses: interrupts off, and `current` demoted. -/
def demoted (s : Sched) : Sched := (s.setTasks s.demote.task).setEflags s.intrSave.2.eflags

theorem demote_intrSave (s : Sched) : s.intrSave.2.demote = s.demoted := by
  obtain ⟨e, hsave⟩ := s.intrSave_snd
  rw [demoted, hsave, setEflags_demote]
  rfl

theorem demoted_intrSave (s : Sched) : s.demoted.intrSave = (0#32, s.demoted) :=
  intrSave_of_off (s := s) rfl

/-- Demoting changes no field but the state. -/
theorem demoted_keeps {α : Type*} (field : TaskStruct → α) (p : ℕ)
    (hfield : ∀ (task : TaskStruct) state, field { task with state := state } = field task) :
    field (s.demoted.task p) = field (s.task p) := by
  show field (s.demote.task p) = _
  rw [demote_task]
  split_ifs
  · exact hfield _ _
  · rfl

theorem demoted_steady (s : Sched) (p : ℕ) : (s.demoted.task p).steady = (s.task p).steady :=
  demoted_keeps TaskStruct.steady p fun _ _ => rfl

theorem demoted_context (s : Sched) (p : ℕ) : (s.demoted.task p).context = (s.task p).context :=
  demoted_keeps TaskStruct.context p fun _ _ => rfl

theorem demoted_mm (s : Sched) (p : ℕ) : (s.demoted.task p).mm = (s.task p).mm :=
  demoted_keeps TaskStruct.mm p fun _ _ => rfl

theorem demoted_state (s : Sched) (p : ℕ) : (s.demoted.task p).state =
    if p = s.current ∧ (s.task p).state = .running then .runnable else (s.task p).state := by
  show (s.demote.task p).state = _
  rw [demote_task]
  split_ifs <;> rfl

theorem demoted_pickNext {procs : List ℕ} (hr : s.link.Ring .procList (procs.map .listLink))
    (hn : s.nrProcess = procs.length) : s.demoted.pickNext = some (s.choice procs) := by
  have hring : s.demoted.link.Ring .procList (procs.map .listLink) := hr
  have hcount : s.demoted.nrProcess = procs.length := hn
  rw [pickNext_eq hring hcount, choice]
  refine congrArg (fun l => some (Option.getD (List.find? l procs) s.idleProc)) (funext fun p => ?_)
  rw [decide_eq_decide]
  exact s.demote_runnable_iff p

/-- `schedule` with its choice made. -/
theorem schedule_eq {procs : List ℕ} (hr : s.link.Ring .procList (procs.map .listLink))
    (hn : s.nrProcess = procs.length) : s.schedule =
      if s.choice procs ≠ s.current then s.demoted.procRun (s.choice procs) [s.intrSave.1]
      else some (s.demoted.setEflags s.eflags) := by
  have hrestore : s.demoted.intrRestore s.intrSave.1 = s.demoted.setEflags s.eflags :=
    intrRestore_of_saved rfl rfl
  rw [schedule]
  simp only [demote_intrSave, demoted_pickNext hr hn, Option.bind_eq_bind, Option.bind_some,
    hrestore]
  rfl

/-- The tasks after a switch, the three cases in one. -/
theorem Switched.task_eq {callers : List Word} (h : s.Switched proc callers t) (p : ℕ) :
    t.task p = if p = proc then { s.task p with state := .running }
      else if p = s.current then
        { s.task p with context := .switchTo (s.intrSave.1 :: callers) }
      else s.task p := by
  by_cases hp : p = proc
  · rw [if_pos hp, hp]
    exact h.next
  rw [if_neg hp]
  by_cases hp' : p = s.current
  · rw [if_pos hp', hp']
    exact h.prev
  · rw [if_neg hp']
    exact h.others p hp hp'

/-- A switch out of `schedule`. -/
theorem Switched.scheduled {next : ℕ} (hnext : next ≠ s.current)
    (h : s.demoted.Switched next [s.intrSave.1] t) : s.Scheduled next t := by
  obtain ⟨cr3, cr3', -, -, hvm⟩ := h.vm
  have hcur : s.demoted.current = s.current := rfl
  refine ⟨h.current, ?_, ?_, h.mms, h.link, h.idleProc, h.initProc, h.nrProcess, h.nextPid,
    fun p => ?_, fun p => ?_, fun p => ?_, fun hno => absurd hno hnext, fun _ => ?_⟩
  · rw [hvm, switchVm_pmm]
    rfl
  · rw [hvm, switchVm_mem]
    rfl
  · rw [← s.demoted_steady, h.task_eq]
    split_ifs <;> rfl
  · rw [← s.demoted_state, h.task_eq]
    by_cases hp : p = next
    · rw [if_pos hp, if_pos ⟨hnext, hp⟩]
    · have hno : ¬ (next ≠ s.current ∧ p = next) := fun hn => hp hn.2
      rw [if_neg hp, if_neg hno]
      split_ifs <;> rfl
  · rw [← s.demoted_context, h.task_eq, demoted_intrSave, hcur]
    by_cases hp : p = s.current
    · have hno : p ≠ next := fun hn => hnext (hn.symm.trans hp)
      rw [if_neg hno, if_pos hp, if_pos ⟨hnext, hp⟩]
    · have hno : ¬ (next ≠ s.current ∧ p = s.current) := fun hn => hp hn.2
      rw [if_neg hp, if_neg hno]
      split_ifs <;> rfl
  · -- interrupts were off already, so `proc_run` resumes the next process as `schedule` does
    have hresumes := h.resumes
    rw [demoted_intrSave, demoted_context] at hresumes
    exact hresumes.congr rfl (congrArg Vm.mem s.intrSave_vm)

/-- `schedule` keeps the current process. -/
theorem demoted_scheduled (s : Sched) : s.Scheduled s.current (s.demoted.setEflags s.eflags) := by
  refine ⟨rfl, rfl, rfl, rfl, rfl, rfl, rfl, rfl, rfl, s.demoted_steady, fun p => ?_, fun p => ?_,
    fun _ => rfl, fun hno => absurd rfl hno⟩
  · rw [if_neg fun hno => hno.1 rfl]
    exact s.demoted_state p
  · rw [if_neg fun hno => hno.1 rfl]
    exact s.demoted_context p

theorem schedule_spec {procs : List ℕ} (hr : s.link.Ring .procList (procs.map .listLink))
    (hn : s.nrProcess = procs.length) (h : s.schedule = some t) :
    s.Scheduled (s.choice procs) t := by
  rw [schedule_eq hr hn] at h
  split_ifs at h with hne
  · have hsw := procRun_spec (s := s.demoted) hne h
    exact hsw.scheduled hne
  · obtain rfl := Option.some.inj h
    rw [not_not.mp hne]
    exact s.demoted_scheduled

/-- `schedule` comes back when everybody has an `mm`, and a process that it switches to was
suspended. -/
theorem schedule_isSome {procs : List ℕ} (hr : s.link.Ring .procList (procs.map .listLink))
    (hn : s.nrProcess = procs.length) (hnext : (s.task (s.choice procs)).mm ≠ none)
    (hcur : (s.task s.current).mm ≠ none)
    (hcontext : s.choice procs ≠ s.current → (s.task (s.choice procs)).context ≠ .zero) :
    ∃ t, s.schedule = some t := by
  rw [schedule_eq hr hn]
  split_ifs with hne
  · apply procRun_isSome (s := s.demoted) hne
    · rwa [demoted_mm]
    · rw [demoted_mm]
      exact hcur
    · rw [demoted_context]
      exact hcontext hne
  · exact ⟨_, rfl⟩

/-! ## `do_exit` -/

theorem adoptChild_eq (hwait : (s.task init).waitState = 0#32) :
    s.adoptChild init proc = some (s.setTasks (s.task.adopt s.current init proc)) := by
  have hcore : (s.task.adopt s.current init proc init).core = (s.task init).core :=
    Tasks.adopt_core s.current init
  have hwait' : (s.task.adopt s.current init proc init).waitState = 0#32 :=
    (congrArg TaskStruct.waitState hcore).trans hwait
  rw [adoptChild, if_neg]
  exact fun h => h.2 hwait'

/-- What the loop of `do_exit` leaves alone, as long as `init` does not wait. -/
structure Adopted (s : Sched) (init : ℕ) (t : Sched) : Prop where
  tasks : t = s.setTasks t.task
  core : ∀ r, (t.task r).core = (s.task r).core
  parent : ∀ r, t.task.kin.parent r = s.task.kin.parent r ∨ t.task.kin.parent r = some init

theorem adoptChildren_spec {k : ℕ} (hwait : (s.task init).waitState = 0#32)
    (h : s.adoptChildren init k = some t) : s.Adopted init t := by
  induction k generalizing s with
  | zero => exact absurd h (by simp [adoptChildren])
  | succ k ih =>
    rw [adoptChildren] at h
    split at h
    · obtain rfl := Option.some.inj h
      exact ⟨rfl, fun r => rfl, fun r => Or.inl rfl⟩
    · rename_i proc hproc
      rw [adoptChild_eq hwait, Option.bind_eq_bind, Option.bind_some] at h
      have hcore : ∀ r, (s.task.adopt s.current init proc r).core = (s.task r).core :=
        fun r => Tasks.adopt_core s.current r
      have hwait' : (s.task.adopt s.current init proc init).waitState = 0#32 :=
        (congrArg TaskStruct.waitState (hcore init)).trans hwait
      obtain ⟨htasks, hcore', hparent⟩ := ih hwait' h
      refine ⟨htasks, fun r => (hcore' r).trans (hcore r), fun r => ?_⟩
      rcases hparent r with hr | hr
      · rw [hr]
        exact Tasks.adopt_parent s.current r
      · exact Or.inr hr

/-- The loop makes a turn for each child of `current`, and keeps what `adopt` keeps as long as there
are children. -/
theorem adoptChildren_loop {I : Kin ℕ → (ℕ → List ℕ) → Prop} {cs : List ℕ}
    {children : ℕ → List ℕ} (hne : s.current ≠ init) (hwait : (s.task init).waitState = 0#32)
    (hchain : ∀ k children, I k children → ∃ y, k.Chain y (k.cptr s.current) (children s.current))
    (hstep : ∀ k children c cs, I k children → children s.current = c :: cs →
      I (k.adopt s.current init c) (Kin.adopted children s.current init c cs))
    (h : I s.task.kin children) (hcs : children s.current = cs) :
    ∃ t children', (∀ k, s.adoptChildren init k = if cs.length < k then some t else none) ∧
      I t.task.kin children' ∧ children' s.current = [] ∧
      children' init = cs.reverse ++ children init ∧
      ∀ r, r ≠ s.current → r ≠ init → children' r = children r := by
  induction cs generalizing s children with
  | nil =>
    obtain ⟨y, hy⟩ := hchain _ _ h
    rw [hcs] at hy
    have hnone : (s.task s.current).cptr = none := hy
    refine ⟨s, children, fun k => ?_, h, hcs, rfl, fun r _ _ => rfl⟩
    cases k with
    | zero => rfl
    | succ k =>
      rw [adoptChildren, hnone]
      exact (if_pos (Nat.succ_pos k)).symm
  | cons c cs ih =>
    obtain ⟨y, hy⟩ := hchain _ _ h
    rw [hcs] at hy
    have hsome : (s.task s.current).cptr = some c := hy.1
    have hkin : (s.task.adopt s.current init c).kin = s.task.kin.adopt s.current init c :=
      Tasks.adopt_kin (Ne.symm hne)
    have hnext := hstep _ _ _ _ h hcs
    rw [← hkin] at hnext
    have hwait' : (s.task.adopt s.current init c init).waitState = 0#32 :=
      (congrArg TaskStruct.waitState (Tasks.adopt_core s.current init)).trans hwait
    have hrest : Kin.adopted children s.current init c cs s.current = cs := Kin.adopted_from hne
    obtain ⟨t, children', heq, hI, hnil, hlist, hothers⟩ :=
      ih (s := s.setTasks (s.task.adopt s.current init c)) hne hwait' hchain hstep hnext hrest
    refine ⟨t, children', fun k => ?_, hI, hnil, ?_, fun r hr hr' => ?_⟩
    · cases k with
      | zero => rfl
      | succ k =>
        rw [adoptChildren, hsome]
        show (s.adoptChild init c).bind _ = _
        rw [adoptChild_eq hwait, Option.bind_some, heq]
        simp only [List.length_cons, Nat.add_lt_add_iff_right]
    · rw [hlist, Kin.adopted_to, List.reverse_cons, List.append_assoc]
      rfl
    · rw [hothers r hr hr', Kin.adopted_of_ne hr hr']

/-- The loop leaves a family in which the children of `current` are children of `init` as well. -/
theorem adoptChildren_family {members cs : List ℕ} {root k : ℕ} {children : ℕ → List ℕ}
    (h : s.task.kin.Orphaning members root s.current children) (hcur : s.current ∈ members)
    (hinit : init ∈ members) (hno : ¬ s.task.kin.Descends init s.current)
    (hwait : (s.task init).waitState = 0#32) (hcs : children s.current = cs)
    (hk : cs.length < k) :
    ∃ t children', s.adoptChildren init k = some t ∧
      t.task.kin.Family members root children' ∧ children' s.current = [] ∧
      children' init = cs.reverse ++ children init ∧
      ∀ r, r ≠ s.current → r ≠ init → children' r = children r := by
  have hne : s.current ≠ init := by
    rintro hc
    exact hno (hc ▸ Kin.Descends.refl _ _)
  obtain ⟨t, children', heq, ⟨hfam, -⟩, hnil, hrest⟩ := adoptChildren_loop
    (I := fun k children =>
      k.Orphaning members root s.current children ∧ ¬ k.Descends init s.current)
    hne hwait (fun _ _ hI => hI.1.dyingChain)
    (fun _ _ _ _ hI => hI.1.adopt hcur hinit hI.2) ⟨h, hno⟩ hcs
  exact ⟨t, children', (heq k).trans (if_pos hk), hfam.family hnil, hnil, hrest⟩

/-- `current` with its state and exit code as `do_exit` writes them. -/
def dead (s : Sched) (code : ℤ) : Sched :=
  s.setTasks (Function.update s.task s.current
    { s.task s.current with state := .zombie, exitCode := code })

theorem dead_core (s : Sched) (code : ℤ) (r : ℕ) : ((s.dead code).task r).core =
    if r = s.current then { (s.task r).core with state := .zombie, exitCode := code }
    else (s.task r).core := by
  show (Function.update s.task s.current _ r).core = _
  rw [Function.update_apply]
  split_ifs with h
  · rw [h]
    rfl
  · rfl

theorem dead_kin (s : Sched) (code : ℤ) : (s.dead code).task.kin = s.task.kin :=
  kin_update_core rfl rfl rfl rfl

theorem dead_waitState (s : Sched) (code : ℤ) (r : ℕ) :
    ((s.dead code).task r).waitState = (s.task r).waitState := by
  have h : ((s.dead code).task r).core.waitState = (s.task r).core.waitState := by
    rw [dead_core]
    split_ifs <;> rfl
  exact h

/-- Nobody waits whom `do_exit` could wake up. -/
structure NoWaiter (s : Sched) : Prop where
  parent : ∀ p, s.task.kin.parent s.current = some p → (s.task p).waitState = 0#32
  init : ∀ p, s.initProc = some p → (s.task p).waitState = 0#32

theorem wakeParent_eq (h : ∀ p, (s.task s.current).parent = some p →
    (s.task p).waitState = 0#32) : s.wakeParent = some s := by
  rw [wakeParent]
  split
  · rename_i parent hp
    rw [if_neg (not_not.mpr (h parent hp))]
  · rfl

/-- `do_exit(error_code)` up to its loop, and its `__intr_flag`. -/
def beforeAdoption (s : Sched) (errorCode : ℤ) : Option (Word × Sched) := do
  let s := s.setState s.current .zombie
  let s := s.setExitCode s.current errorCode
  let (flag, s) := s.intrSave
  let s ← s.wakeParent
  some (flag, s)

theorem exitBody_eq_bind (s : Sched) (code : ℤ) : s.exitBody code =
    (s.beforeAdoption code).bind fun r =>
      r.2.giveChildren.bind fun t => some (t.intrRestore r.1) := by
  rw [exitBody, beforeAdoption]
  simp only [Option.bind_eq_bind, Option.bind_assoc, Option.bind_some]

/-- When nobody waits, the loop starts with the interrupts off and nothing else changed. -/
theorem beforeAdoption_eq (h : s.NoWaiter) (code : ℤ) :
    s.beforeAdoption code = some (s.dead code).intrSave := by
  obtain ⟨e, hsave⟩ := (s.dead code).intrSave_snd
  rcases hflag : (s.dead code).intrSave with ⟨flag, v⟩
  obtain rfl : v = (s.dead code).setEflags e := by rw [← hsave, hflag]
  have hdead : (s.setState s.current .zombie).setExitCode s.current code = s.dead code := by
    rw [setExitCode, setState, setTask_self, setTask_setTask]
    rfl
  have hwake : ((s.dead code).setEflags e).wakeParent = some ((s.dead code).setEflags e) := by
    apply wakeParent_eq
    intro p hp
    have hparent : (s.dead code).task.kin.parent s.current = some p := hp
    rw [dead_kin] at hparent
    exact (s.dead_waitState code p).trans (h.parent p hparent)
  have hcur : (s.setState s.current .zombie).current = s.current := rfl
  rw [beforeAdoption, hcur, hdead, hflag]
  show ((s.dead code).setEflags e).wakeParent.bind _ = _
  rw [hwake]
  rfl

/-- `do_exit` before `schedule`, when nobody waits. -/
theorem exitBody_eq (h : s.NoWaiter) (code : ℤ) :
    ∃ flag e, (s.dead code).intrSave = (flag, (s.dead code).setEflags e) ∧
      s.exitBody code =
        ((s.dead code).setEflags e).giveChildren.bind fun t => some (t.intrRestore flag) := by
  obtain ⟨e, hsave⟩ := (s.dead code).intrSave_snd
  rcases hflag : (s.dead code).intrSave with ⟨flag, v⟩
  obtain rfl : v = (s.dead code).setEflags e := by rw [← hsave, hflag]
  refine ⟨flag, e, rfl, ?_⟩
  rw [exitBody_eq_bind, beforeAdoption_eq h, hflag]
  rfl

/-- `do_exit` wrote its own task, and gave its children away. -/
structure Exited (s : Sched) (code : ℤ) (t : Sched) : Prop where
  tasks : t = s.setTasks t.task
  core : ∀ r, (t.task r).core = ((s.dead code).task r).core
  parent : ∀ r, t.task.kin.parent r = s.task.kin.parent r ∨
    ∃ init, s.initProc = some init ∧ t.task.kin.parent r = some init

theorem exitBody_spec {code : ℤ} (h : s.NoWaiter) (heq : s.exitBody code = some t) :
    s.Exited code t := by
  obtain ⟨flag, e, hsave, hbody⟩ := exitBody_eq h code
  rw [hbody, Option.bind_eq_some_iff] at heq
  obtain ⟨u, hgive, heq⟩ := heq
  obtain rfl := Option.some.inj heq
  have hkin : ((s.dead code).setEflags e).task.kin = s.task.kin := s.dead_kin code
  rw [giveChildren] at hgive
  split at hgive
  · rename_i init hinit
    have hinit' : s.initProc = some init := hinit
    have hwait : (((s.dead code).setEflags e).task init).waitState = 0#32 :=
      (s.dead_waitState code init).trans (h.init init hinit')
    obtain ⟨htasks, hcore, hparent⟩ := adoptChildren_spec hwait hgive
    have heflags : u.eflags = ((s.dead code).setEflags e).eflags := by rw [htasks]; rfl
    rw [intrRestore_of_saved hsave heflags]
    refine ⟨?_, hcore, fun r => ?_⟩
    · rw [htasks]
      rfl
    · rcases hparent r with hr | hr
      · exact Or.inl (hr.trans (congrArg (·.parent r) hkin))
      · exact Or.inr ⟨init, hinit', hr⟩
  · obtain rfl := Option.some.inj hgive
    rw [intrRestore_of_saved hsave rfl]
    exact ⟨rfl, fun r => rfl, fun r => Or.inl (congrArg (·.parent r) hkin)⟩

/-- `do_exit` comes as far as `schedule`, and leaves a family. -/
theorem exitBody_family {members : List ℕ} {root : ℕ} {children : ℕ → List ℕ} (h : s.NoWaiter)
    (hfam : s.task.kin.Family members root children) (hcur : s.current ∈ members)
    (heq : s.initProc = some init) (hinit : init ∈ members)
    (hno : ¬ s.task.kin.Descends init s.current)
    (hk : (children s.current).length ≤ s.nrProcess) (code : ℤ) :
    ∃ t children', s.exitBody code = some t ∧
      t.task.kin.Family members root children' ∧ children' s.current = [] ∧
      children' init = (children s.current).reverse ++ children init ∧
      ∀ r, r ≠ s.current → r ≠ init → children' r = children r := by
  obtain ⟨flag, e, hsave, hbody⟩ := exitBody_eq h code
  have hkin : ((s.dead code).setEflags e).task.kin = s.task.kin := s.dead_kin code
  have hwait : (((s.dead code).setEflags e).task init).waitState = 0#32 :=
    (s.dead_waitState code init).trans (h.init init heq)
  have horphan : ((s.dead code).setEflags e).task.kin.Orphaning members root s.current children :=
    hkin ▸ hfam.orphaning hcur
  have hno' : ¬ ((s.dead code).setEflags e).task.kin.Descends init s.current := hkin ▸ hno
  have hlt : (children s.current).length < s.nrProcess.toNat + 1 := by omega
  obtain ⟨u, children', hadopt, hfam', hnil, hlist, hothers⟩ :=
    adoptChildren_family (s := (s.dead code).setEflags e) horphan hcur hinit hno' hwait rfl hlt
  obtain ⟨e', he'⟩ := u.intrRestore_eq flag
  refine ⟨u.intrRestore flag, children', ?_, ?_, hnil, hlist, hothers⟩
  · rw [hbody, giveChildren, show ((s.dead code).setEflags e).initProc = some init from heq]
    show (adoptChildren _ init _).bind _ = _
    rw [show (((s.dead code).setEflags e).nrProcess.toNat + 1) = s.nrProcess.toNat + 1 from rfl,
      hadopt, Option.bind_some]
  · rw [he']
    exact hfam'

end Sched
end Zonix
