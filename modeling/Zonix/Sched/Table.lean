import Zonix.Sched.SchedTheorems
import Zonix.Lib.Machine
import Zonix.Mm.SpaceRun
import Mathlib.Data.List.Perm.Subperm

/-!
# Runs, and the tables of the processes

The kernel as a machine driven by the calls of its processes, from `sched_init` on. `Table`
says that `proc_list` and the hash buckets hold the same processes, the youngest first: the
pids along `proc_list` count down to 0, and each bucket has the processes with its hash in the
order of `proc_list`. No function but `do_fork` enters a process anywhere, so all others keep
the table because they leave links, pids and counters alone.
-/

namespace Zonix
open Lib

/-- What the current process may do. -/
inductive SchedOp
  | fork (cloneFlags stack : Word) (tf : TrapFrame)
  | exit (errorCode : ℤ)
  | schedule
  | wakeup (proc : ℕ)
  /-- `proc_run(proc)` -/
  | run (proc : ℕ)
  /-- `intr_enable()` or `intr_disable()` -/
  | intr (on : Bool)

namespace Sched

variable {s t u : Sched} {ram : Set ℕ} {procs : List ℕ} {proc kst p q init : ℕ}

/-- `intr_enable()` or `intr_disable()` -/
def setIf (s : Sched) (on : Bool) : Sched :=
  s.setEflags (if on then s.eflags ||| FL_IF else s.eflags &&& ~~~FL_IF)

def exec (s : Sched) : SchedOp → Option Sched
  | .fork cloneFlags stack tf => (s.doFork cloneFlags stack tf).map Prod.snd
  | .exit errorCode => s.doExit errorCode
  | .schedule => s.schedule
  | .wakeup proc => s.wakeupProc proc
  | .run proc => s.procRun proc []
  | .intr on => some (s.setIf on)

/-- The state that `sched_init` is called in: the frames of the allocator have 32-bit addresses,
and the variables of `sched.c` have their initial values. -/
structure Booted (s : Sched) (ram : Set ℕ) : Prop where
  free : ∃ bs, s.vm.pmm.Inv ram bs
  low : ∀ p ∈ ram, p < 2 ^ 20
  nrProcess : s.nrProcess = 0
  nextPid : s.nextPid = 1
  initProc : s.initProc = none

/-- `sched_init` came back. -/
def Started (s : Sched) (ram : Set ℕ) : Prop :=
  ∃ s₀ userStack initMain, Booted s₀ ram ∧ s₀.schedInit userStack initMain = some s

/-- What `proc_list`, the buckets and the counters hold. -/
structure Table (s : Sched) (ram : Set ℕ) (procs : List ℕ) : Prop where
  free : ∃ bs, s.vm.pmm.Inv ram bs
  roster : s.link.Ring .procList (procs.map .listLink)
  bucket : ∀ i < HASH_LIST_SIZE, s.link.Ring (.hashList i)
    ((procs.filter fun p => pidHashfn (s.task p).pid = i).map .hashLink)
  inRam : ∀ p ∈ procs, p ∈ ram
  notFree : ∀ p ∈ procs, p ∉ s.vm.pmm.freePages
  pids : procs.map (fun p => (s.task p).pid) =
    (List.range procs.length).reverse.map fun n : ℕ => (n : ℤ)
  nextPid : s.nextPid = procs.length
  nrProcess : s.nrProcess = procs.length
  current : s.current ∈ procs
  idleProc : s.idleProc ∈ procs
  initProc : ∀ p, s.initProc = some p → p ∈ procs
  parent : ∀ p ∈ procs, ∀ q, s.task.kin.parent p = some q → q ∈ procs
  waits : ∀ p ∈ procs, (s.task p).waitState = 0#32

theorem pidHashfn_lt (pid : ℤ) : pidHashfn pid < HASH_LIST_SIZE := by
  have hsize : HASH_LIST_SIZE = 1024 := rfl
  have hlt := (BitVec.ofInt 32 pid * 0x61C88647#32).isLt
  rw [hsize, pidHashfn, hash32, HASH_SHIFT, BitVec.toNat_ushiftRight, Nat.shiftRight_eq_div_pow]
  omega

namespace Table

theorem nodup (h : s.Table ram procs) : procs.Nodup := List.Nodup.of_map _ h.roster.nodup_entries

theorem mem_iff (h : s.Table ram procs) : s.link.OnList .procList (.listLink p) ↔ p ∈ procs := by
  rw [h.roster.onList_iff]
  simp

/-- There are not more processes than frames, so that no `int` overflows. -/
theorem length_le (h : s.Table ram procs) (hlow : ∀ p ∈ ram, p < 2 ^ 20) :
    procs.length ≤ 2 ^ 20 := by
  have hsub : procs ⊆ List.range (2 ^ 20) := fun p hp => List.mem_range.mpr (hlow p (h.inRam p hp))
  have hle := (List.Nodup.subperm h.nodup hsub).length_le
  rwa [List.length_range] at hle

/-- Pids count the processes. -/
theorem exists_pid_iff (h : s.Table ram procs) {pid : ℤ} :
    (∃ p ∈ procs, (s.task p).pid = pid) ↔ 0 ≤ pid ∧ pid < procs.length := by
  have hmem : (∃ p ∈ procs, (s.task p).pid = pid) ↔ pid ∈ procs.map fun p => (s.task p).pid := by
    simp
  rw [hmem, h.pids]
  simp only [List.mem_map, List.mem_reverse, List.mem_range]
  constructor
  · rintro ⟨n, hn, rfl⟩
    omega
  · rintro ⟨hpos, hlt⟩
    exact ⟨pid.toNat, by omega, by omega⟩

theorem nodup_pids (h : s.Table ram procs) : (procs.map fun p => (s.task p).pid).Nodup := by
  rw [h.pids]
  apply List.Nodup.map _ (List.nodup_reverse.mpr List.nodup_range)
  exact fun a b hab => Int.ofNat.inj hab

theorem pid_inj (h : s.Table ram procs) (hp : p ∈ procs) (hq : q ∈ procs)
    (heq : (s.task p).pid = (s.task q).pid) : p = q :=
  List.inj_on_of_nodup_map h.nodup_pids hp hq heq

/-- Looking for the pid of a process finds the process. -/
theorem find?_pid (h : s.Table ram procs) (hp : p ∈ procs) :
    (procs.find? fun q => (s.task q).pid = (s.task p).pid) = some p := by
  cases hfind : procs.find? fun q => decide ((s.task q).pid = (s.task p).pid) with
  | none =>
    have hno := List.find?_eq_none.mp hfind p hp
    exact absurd (decide_eq_true rfl) hno
  | some q =>
    have hpid : (s.task q).pid = (s.task p).pid := by simpa using List.find?_some hfind
    rw [h.pid_inj (List.mem_of_find?_eq_some hfind) hp hpid]

/-- `find_proc` comes back, with the process of the table that has the pid. -/
theorem findProc_eq (h : s.Table ram procs) {pid : ℤ} (hpid : 0 < pid) :
    s.findProc pid = some (procs.find? fun p => (s.task p).pid = pid) := by
  have hring := h.bucket _ (pidHashfn_lt pid)
  have hentry : ∀ p, le2procHash (.hashLink p) = some p := fun _ => rfl
  have hlen := List.length_filter_le
    (fun p => decide (pidHashfn (s.task p).pid = pidHashfn pid)) procs
  have hn := h.nrProcess
  rw [findProc, if_neg (by omega), listSearch_ring hentry hring (by omega), List.find?_filter]
  -- a process with the pid has its hash as well
  refine congrArg some (congrArg (List.find? · procs) (funext fun p => ?_))
  rw [Bool.eq_iff_iff]
  simp only [Bool.decide_and, Bool.and_eq_true, decide_eq_true_eq, and_iff_right_iff_imp]
  rintro rfl
  rfl

end Table

/-! ## Steps that leave the table alone -/

structure SameTable (s t : Sched) : Prop where
  pmm : t.vm.pmm = s.vm.pmm
  link : t.link = s.link
  idleProc : t.idleProc = s.idleProc
  initProc : t.initProc = s.initProc
  nrProcess : t.nrProcess = s.nrProcess
  nextPid : t.nextPid = s.nextPid
  pid : ∀ p, (t.task p).pid = (s.task p).pid
  waitState : ∀ p, (t.task p).waitState = (s.task p).waitState

theorem Table.same (h : s.Table ram procs) (hs : s.SameTable t) (hcur : t.current ∈ procs)
    (hparent : ∀ p ∈ procs, ∀ q, t.task.kin.parent p = some q → q ∈ procs) :
    t.Table ram procs where
  free := hs.pmm ▸ h.free
  roster := hs.link ▸ h.roster
  bucket i hi := by
    simp only [hs.link, hs.pid]
    exact h.bucket i hi
  inRam := h.inRam
  notFree p hp := hs.pmm ▸ h.notFree p hp
  pids := by
    simp only [hs.pid]
    exact h.pids
  nextPid := hs.nextPid.trans h.nextPid
  nrProcess := hs.nrProcess.trans h.nrProcess
  current := hcur
  idleProc := hs.idleProc ▸ h.idleProc
  initProc p hp := h.initProc p (hs.initProc ▸ hp)
  parent := hparent
  waits p hp := (hs.waitState p).trans (h.waits p hp)

theorem Scheduled.sameTable (h : s.Scheduled p t) : s.SameTable t where
  pmm := h.pmm
  link := h.link
  idleProc := h.idleProc
  initProc := h.initProc
  nrProcess := h.nrProcess
  nextPid := h.nextPid
  pid q := TaskStruct.steady_congr TaskStruct.pid (fun _ => rfl) (h.steady q)
  waitState q := TaskStruct.steady_congr TaskStruct.waitState (fun _ => rfl) (h.steady q)

theorem Scheduled.kin (h : s.Scheduled p t) : t.task.kin = s.task.kin :=
  Tasks.kin_congr h.steady

/-- The choice of `schedule` is a process of the table. -/
theorem Table.choice_mem (h : s.Table ram procs) : s.choice procs ∈ procs := by
  rw [choice]
  cases hfind : procs.find? fun p => decide (s.Ready p) with
  | none => exact h.idleProc
  | some p => exact List.mem_of_find?_eq_some hfind

theorem Table.schedule_spec (h : s.Table ram procs) (heq : s.schedule = some t) :
    s.Scheduled (s.choice procs) t := Sched.schedule_spec h.roster h.nrProcess heq

theorem Table.schedule (h : s.Table ram procs) (heq : s.schedule = some t) :
    t.Table ram procs := by
  have hs := h.schedule_spec heq
  refine h.same hs.sameTable (hs.current ▸ h.choice_mem) ?_
  rw [hs.kin]
  exact h.parent

/-! ### `do_exit` -/

theorem Table.noWaiter (h : s.Table ram procs) : s.NoWaiter :=
  ⟨fun p hp => h.waits p (h.parent s.current h.current p hp),
    fun p hp => h.waits p (h.initProc p hp)⟩

theorem Exited.sameTable {code : ℤ} (h : s.Exited code t) : s.SameTable t := by
  have hcore : ∀ r, (t.task r).pid = (s.task r).pid ∧
      (t.task r).waitState = (s.task r).waitState := by
    intro r
    have hpid : (t.task r).core.pid = (s.task r).core.pid := by
      rw [h.core, dead_core]
      split_ifs <;> rfl
    have hwait : (t.task r).core.waitState = (s.task r).core.waitState := by
      rw [h.core, dead_core]
      split_ifs <;> rfl
    exact ⟨hpid, hwait⟩
  have htasks := h.tasks
  refine ⟨?_, ?_, ?_, ?_, ?_, ?_, fun r => (hcore r).1, fun r => (hcore r).2⟩
  all_goals
    rw [htasks]
    rfl

theorem Table.exitBody {code : ℤ} (h : s.Table ram procs) (heq : s.exitBody code = some t) :
    s.Exited code t ∧ t.Table ram procs := by
  have he := exitBody_spec h.noWaiter heq
  have hcur : t.current = s.current := by
    rw [he.tasks]
    rfl
  refine ⟨he, h.same he.sameTable (hcur ▸ h.current) fun p hp q hq => ?_⟩
  rcases he.parent p with hsame | ⟨init, hinit, hnew⟩
  · exact h.parent p hp q (hsame ▸ hq)
  · rw [hnew] at hq
    exact Option.some.inj hq ▸ h.initProc init hinit

/-- `do_exit` that comes back is its body and a switch to another process. -/
theorem doExit_eq_some {code : ℤ} (h : s.doExit code = some t) :
    ∃ u, s.exitBody code = some u ∧ u.schedule = some t ∧ t.current ≠ u.current := by
  rw [doExit, Option.bind_eq_bind, Option.bind_eq_some_iff] at h
  obtain ⟨u, hbody, h⟩ := h
  rw [Option.bind_eq_some_iff] at h
  obtain ⟨v, hsched, h⟩ := h
  split_ifs at h with hc
  obtain rfl := Option.some.inj h
  exact ⟨u, hbody, hsched, hc⟩

theorem Table.doExit {code : ℤ} (h : s.Table ram procs) (heq : s.doExit code = some t) :
    t.Table ram procs := by
  obtain ⟨u, hbody, hsched, -⟩ := doExit_eq_some heq
  exact (h.exitBody hbody).2.schedule hsched

/-! ### The other calls -/

theorem setState_sameTable (s : Sched) (p : ℕ) (state : ProcState) :
    s.SameTable (s.setState p state) :=
  ⟨rfl, rfl, rfl, rfl, rfl, rfl, fun _ => setState_keeps TaskStruct.pid state fun _ _ => rfl,
    fun _ => setState_keeps TaskStruct.waitState state fun _ _ => rfl⟩

theorem setState_kin (s : Sched) (p : ℕ) (state : ProcState) :
    (s.setState p state).task.kin = s.task.kin := kin_update_core rfl rfl rfl rfl

theorem Table.wakeup (h : s.Table ram procs) (heq : s.wakeupProc p = some t) :
    t.Table ram procs := by
  obtain ⟨-, rfl⟩ := wakeupProc_eq_some heq
  refine h.same (s.setState_sameTable p .runnable) h.current ?_
  rw [setState_kin]
  exact h.parent

theorem Switched.steady {callers : List Word} (h : s.Switched p callers t) (q : ℕ) :
    (t.task q).steady = (s.task q).steady := by
  by_cases hp : q = p
  · rw [hp, h.next]
    rfl
  by_cases hc : q = s.current
  · rw [hc, h.prev]
    rfl
  · rw [h.others q hp hc]

theorem Switched.kin {callers : List Word} (h : s.Switched p callers t) :
    t.task.kin = s.task.kin := Tasks.kin_congr h.steady

theorem Switched.sameTable {callers : List Word} (h : s.Switched p callers t) :
    s.SameTable t := by
  obtain ⟨next, prev, -, -, hvm⟩ := h.vm
  refine ⟨?_, h.link, h.idleProc, h.initProc, h.nrProcess, h.nextPid,
    fun q => TaskStruct.steady_congr TaskStruct.pid (fun _ => rfl) (h.steady q),
    fun q => TaskStruct.steady_congr TaskStruct.waitState (fun _ => rfl) (h.steady q)⟩
  rw [hvm, switchVm_pmm]

theorem Table.switched {callers : List Word} (h : s.Table ram procs)
    (hs : s.Switched p callers t) (hp : p ∈ procs) : t.Table ram procs := by
  refine h.same hs.sameTable (hs.current ▸ hp) ?_
  rw [hs.kin]
  exact h.parent

theorem setEflags_sameTable (s : Sched) (eflags : Word) : s.SameTable (s.setEflags eflags) :=
  ⟨rfl, rfl, rfl, rfl, rfl, rfl, fun _ => rfl, fun _ => rfl⟩

theorem Table.setEflags (h : s.Table ram procs) (eflags : Word) :
    (s.setEflags eflags).Table ram procs :=
  h.same (s.setEflags_sameTable eflags) h.current h.parent

/-! ## A process that is entered -/

/-- Lists of `procs`: all on `proc_list`, and each in the bucket `hash`. -/
structure Linked (m : Links SchedEntry) (hash : ℕ → ℕ) (procs : List ℕ) : Prop where
  roster : m.Ring .procList (procs.map .listLink)
  bucket : ∀ i < HASH_LIST_SIZE,
    m.Ring (.hashList i) ((procs.filter fun p => hash p = i).map .hashLink)

theorem Linked.congr {m : Links SchedEntry} {hash hash' : ℕ → ℕ} (h : Linked m hash procs)
    (hsame : ∀ p ∈ procs, hash' p = hash p) : Linked m hash' procs := by
  refine ⟨h.roster, fun i hi => ?_⟩
  have hfilter : (procs.filter fun p => hash' p = i) = procs.filter fun p => hash p = i :=
    List.filter_congr fun p hp => by rw [hsame p hp]
  rw [hfilter]
  exact h.bucket i hi

/-- `hash_proc`: the process is the first of its bucket, and the others stay as they are. -/
theorem Linked.hashProc {m : Links SchedEntry} {hash : ℕ → ℕ} (h : Linked m hash procs)
    (hnew : proc ∉ procs) (hi : hash proc < HASH_LIST_SIZE) :
    (listAdd m (.hashList (hash proc)) (.hashLink proc)).Ring .procList (procs.map .listLink) ∧
    ∀ i < HASH_LIST_SIZE, (listAdd m (.hashList (hash proc)) (.hashLink proc)).Ring (.hashList i)
      (((proc :: procs).filter fun p => hash p = i).map .hashLink) := by
  have hring := h.bucket _ hi
  have hframe := listAdd_sameOff m (.hashList (hash proc)) (.hashLink proc)
  have hnext := hring.next_mem (x := .hashList (hash proc)) List.mem_cons_self
  -- the entry behind the head is the head, or the link of a process in this bucket
  have hnext' : m.next (.hashList (hash proc)) = .hashList (hash proc) ∨
      ∃ q, hash q = hash proc ∧ m.next (.hashList (hash proc)) = .hashLink q := by
    rcases List.mem_cons.mp hnext with heq | hmem
    · exact Or.inl heq
    · obtain ⟨q, hq, heq⟩ := List.mem_map.mp hmem
      exact Or.inr ⟨q, of_decide_eq_true (List.mem_filter.mp hq).2, heq.symm⟩
  constructor
  · refine h.roster.frame hframe ?_ ?_
    · rcases hnext' with heq | ⟨q, -, heq⟩ <;> simp [heq]
    · intro e he
      obtain ⟨p, -, rfl⟩ := List.mem_map.mp he
      rcases hnext' with heq | ⟨q, -, heq⟩ <;> simp [heq]
  · intro i hlt
    by_cases hip : hash proc = i
    · subst hip
      rw [List.filter_cons_of_pos (by simp), List.map_cons]
      refine listAdd_front hring ?_
      simpa using hnew
    · rw [List.filter_cons_of_neg (by simpa using hip)]
      refine (h.bucket i hlt).frame hframe ?_ ?_
      · rcases hnext' with heq | ⟨q, -, heq⟩ <;> simp [heq, Ne.symm hip]
      · intro e he
        obtain ⟨p, hp, rfl⟩ := List.mem_map.mp he
        obtain ⟨hp, hpi⟩ := List.mem_filter.mp hp
        have hpi := of_decide_eq_true hpi
        have hne : p ≠ proc := fun heq => hnew (heq ▸ hp)
        rcases hnext' with heq | ⟨q, hq, heq⟩
        · simp [heq, hne]
        · have hpq : p ≠ q := by
            rintro rfl
            exact hip (hq.symm.trans hpi)
          simp [heq, hne, hpq]

/-- `hash_proc` and the `list_add` of `set_links`. -/
theorem Linked.enter {m : Links SchedEntry} {hash : ℕ → ℕ} (h : Linked m hash procs)
    (hnew : proc ∉ procs) (hi : hash proc < HASH_LIST_SIZE) :
    Linked (listAdd (listAdd m (.hashList (hash proc)) (.hashLink proc)) .procList
      (.listLink proc)) hash (proc :: procs) := by
  obtain ⟨hroster, hbucket⟩ := h.hashProc hnew hi
  set m' := listAdd m (.hashList (hash proc)) (.hashLink proc)
  have hframe := listAdd_sameOff m' .procList (.listLink proc)
  have hnext := hroster.next_mem (x := .procList) List.mem_cons_self
  have hnext' : m'.next .procList = .procList ∨ ∃ q, m'.next .procList = .listLink q := by
    rcases List.mem_cons.mp hnext with heq | hmem
    · exact Or.inl heq
    · obtain ⟨q, -, heq⟩ := List.mem_map.mp hmem
      exact Or.inr ⟨q, heq.symm⟩
  constructor
  · refine listAdd_front hroster ?_
    simpa using hnew
  · intro i hlt
    refine (hbucket i hlt).frame hframe ?_ ?_
    · rcases hnext' with heq | ⟨q, heq⟩ <;> simp [heq]
    · intro e he
      obtain ⟨p, -, rfl⟩ := List.mem_map.mp he
      rcases hnext' with heq | ⟨q, heq⟩ <;> simp [heq]

theorem Table.linked (h : s.Table ram procs) :
    Linked s.link (fun p => pidHashfn (s.task p).pid) procs := ⟨h.roster, h.bucket⟩

section Forked
variable {stack : Word} {tf : TrapFrame}

theorem Forked.child_pid (h : s.Forked stack tf proc kst t) : (t.task proc).pid = s.nextPid := by
  have hpid : (t.task proc).core.pid = s.nextPid := by rw [h.child]
  exact hpid

theorem Forked.child_waitState (h : s.Forked stack tf proc kst t) :
    (t.task proc).waitState = 0#32 := by
  have hwait : (t.task proc).core.waitState = 0#32 := by
    rw [h.child]
    rfl
  exact hwait

theorem Forked.child_state (h : s.Forked stack tf proc kst t) :
    (t.task proc).state = .runnable := by
  have hstate : (t.task proc).core.state = .runnable := by rw [h.child]
  exact hstate

theorem Forked.child_mm (h : s.Forked stack tf proc kst t) :
    (t.task proc).mm = (s.task s.current).mm := by
  have hmm : (t.task proc).core.mm = (s.task s.current).mm := by
    rw [h.child]
    rfl
  exact hmm

theorem Forked.child_context (h : s.Forked stack tf proc kst t) :
    (t.task proc).context = .forkret (page2kva kst + KSTACK_SIZE - SIZEOF_TRAP_FRAME) := by
  have hcontext : (t.task proc).core.context =
      .forkret (page2kva kst + KSTACK_SIZE - SIZEOF_TRAP_FRAME) := by
    rw [h.child]
    rfl
  exact hcontext

theorem Table.new (h : s.Table ram procs) (hf : s.Forked stack tf proc kst t) : proc ∉ procs :=
  fun hp => h.notFree proc hp hf.wasFree

theorem Table.forked (h : s.Table ram procs) (hf : s.Forked stack tf proc kst t) :
    t.Table ram (proc :: procs) := by
  have hnew := h.new hf
  have hne : ∀ p ∈ procs, p ≠ proc := fun p hp heq => hnew (heq ▸ hp)
  have hpid : ∀ p ∈ procs, (t.task p).pid = (s.task p).pid := fun p hp =>
    TaskStruct.core_congr TaskStruct.pid (fun _ => rfl) (hf.others p (hne p hp))
  have hlinked : Linked t.link (fun p => pidHashfn (t.task p).pid) (proc :: procs) := by
    -- the old processes stay in their buckets, as they keep their pids
    have hold : Linked s.link (fun p => pidHashfn (t.task p).pid) procs :=
      h.linked.congr fun p hp => by rw [hpid p hp]
    rw [hf.link, ← hf.child_pid]
    exact hold.enter hnew (pidHashfn_lt _)
  constructor
  · exact hf.inv ram h.free
  · exact hlinked.roster
  · exact hlinked.bucket
  · intro p hp
    rcases List.mem_cons.mp hp with rfl | hp
    · obtain ⟨bs, hinv⟩ := h.free
      exact hinv.mem_ram hf.wasFree
    · exact h.inRam p hp
  · intro p hp
    rw [hf.freePages]
    rcases List.mem_cons.mp hp with rfl | hp
    · simp
    · exact fun hmem => h.notFree p hp hmem.1
  · -- the new pid is the number of processes so far
    rw [List.map_cons, hf.child_pid, h.nextPid, List.length_cons, List.range_succ,
      List.reverse_append, List.map_congr_left hpid, h.pids]
    rfl
  · rw [hf.nextPid, h.nextPid, List.length_cons]
    omega
  · rw [hf.nrProcess, h.nrProcess, List.length_cons]
    omega
  · exact hf.current ▸ List.mem_cons_of_mem proc h.current
  · exact hf.idleProc ▸ List.mem_cons_of_mem proc h.idleProc
  · intro p hp
    exact List.mem_cons_of_mem proc (h.initProc p (hf.initProc ▸ hp))
  · intro p hp q hq
    rw [hf.kin] at hq
    by_cases hpp : p = proc
    · subst hpp
      have hparent : (s.task.kin.push s.current p).parent p = some s.current :=
        Function.update_self ..
      rw [hparent] at hq
      exact List.mem_cons_of_mem p (Option.some.inj hq ▸ h.current)
    · have hparent : (s.task.kin.push s.current proc).parent p = s.task.kin.parent p :=
        Function.update_of_ne hpp ..
      rw [hparent] at hq
      exact List.mem_cons_of_mem proc (h.parent p (List.mem_of_ne_of_mem hpp hp) q hq)
  · intro p hp
    rcases List.mem_cons.mp hp with rfl | hp
    · exact hf.child_waitState
    · exact (TaskStruct.core_congr TaskStruct.waitState (fun _ => rfl)
        (hf.others p (hne p hp))).trans (h.waits p hp)

/-- `do_fork` enters one process. -/
theorem Table.doFork {cloneFlags : Word} {pid : ℤ} (h : s.Table ram procs)
    (heq : s.doFork cloneFlags stack tf = some (pid, t)) :
    pid = procs.length ∧
      ∃ proc kst, s.Forked stack tf proc kst t ∧ t.Table ram (proc :: procs) := by
  obtain ⟨bs, hinv⟩ := h.free
  obtain ⟨rfl, proc, kst, hf⟩ := doFork_spec hinv (h.notFree _ h.current) heq
  exact ⟨h.nextPid, proc, kst, hf, h.forked hf⟩

end Forked

/-! ## `sched_init` -/

theorem foldl_listInit (l : List ℕ) (m : Links SchedEntry) :
    (∀ i ∈ l, (l.foldl (fun m i => listInit m (.hashList i)) m).Ring (.hashList i) []) ∧
    ∀ e, (∀ i ∈ l, e ≠ .hashList i) → m.Ring e [] →
      (l.foldl (fun m i => listInit m (.hashList i)) m).Ring e [] := by
  induction l generalizing m with
  | nil => exact ⟨fun i hi => absurd hi (by simp), fun e _ hr => hr⟩
  | cons j l ih =>
    obtain ⟨hin, hout⟩ := ih (listInit m (.hashList j))
    constructor
    · intro i hi
      by_cases hil : i ∈ l
      · exact hin i hil
      · obtain rfl : i = j := (List.mem_cons.mp hi).resolve_right hil
        exact hout (.hashList i) (fun k hk heq => hil (SchedEntry.hashList.inj heq ▸ hk))
          (listInit_ring m _)
    · intro e he hr
      refine hout e (fun i hi => he i (List.mem_cons_of_mem j hi)) ?_
      exact hr.frame (listInit_sameOff m _) (he j List.mem_cons_self) (by simp)

theorem initHeads_linked (m : Links SchedEntry) (hash : ℕ → ℕ) : Linked (initHeads m) hash [] := by
  obtain ⟨hin, hout⟩ := foldl_listInit (List.range HASH_LIST_SIZE) (listInit m .procList)
  exact ⟨hout .procList (by simp) (listInit_ring m _), fun i hi => hin i (List.mem_range.mpr hi)⟩

/-- The task that `idle_init` makes. -/
def idleTask (s : Sched) (idle : ℕ) (userStack : Word) : TaskStruct :=
  { freshTask (s.task idle) with
    pid := 0, state := .runnable, kstack := userStack, mm := some initMmPtr }

theorem idleInit_spec {bs : List Extent} {userStack : Word} (h : s.vm.pmm.Inv ram bs)
    (heq : s.idleInit userStack = some t) :
    ∃ idle pmm, s.vm.pmm.Takes 1 idle pmm ∧ t = { s with
      vm := s.vm.setPmm pmm
      task := Function.update s.task idle (s.idleTask idle userStack)
      link := listAdd (listAdd s.link (.hashList (pidHashfn 0)) (.hashLink idle)) .procList
        (.listLink idle)
      idleProc := idle
      nrProcess := s.nrProcess + 1
      current := idle } := by
  rcases h.alloc_cases le_rfl with ⟨hall, -⟩ | ⟨idle, pmm, hall, ht⟩
  · simp [idleInit, allocProc, Vm.allocPages, hall] at heq
  refine ⟨idle, pmm, ht, ?_⟩
  rw [idleInit, allocProc_of_alloc hall] at heq
  obtain rfl := Option.some.inj heq
  simp only [setPid, setState, setKstack, setMm, hashProc, setTask, setCurrent, setLink,
    Function.update_self, Function.update_idem]
  rfl

/-- The idle process alone. -/
structure IdleOnly (s : Sched) (idle : ℕ) (userStack : Word) : Prop where
  current : s.current = idle
  idleProc : s.idleProc = idle
  initProc : s.initProc = none
  task : ∃ t : TaskStruct, s.task idle = { freshTask t with
    pid := 0, state := .runnable, kstack := userStack, mm := some initMmPtr }

theorem idleInit_table {userStack : Word} (h : s.Booted ram)
    (heq : (s.setLink (initHeads s.link)).idleInit userStack = some t) :
    ∃ idle, t.IdleOnly idle userStack ∧ t.Table ram [idle] := by
  obtain ⟨bs, hinv⟩ := h.free
  have hempty := initHeads_linked s.link fun _ => pidHashfn 0
  generalize initHeads s.link = heads at heq hempty
  obtain ⟨idle, pmm, ht, rfl⟩ := idleInit_spec (s := s.setLink heads) hinv heq
  set new := (s.setLink heads).idleTask idle userStack with hnew
  have hself : Function.update s.task idle new idle = new := Function.update_self ..
  refine ⟨idle, ⟨rfl, rfl, h.initProc, _, hself⟩, ?_⟩
  have hlinked : Linked _ (fun p => pidHashfn (Function.update s.task idle new p).pid) [idle] :=
    (hempty.enter (List.not_mem_nil) (pidHashfn_lt 0)).congr fun p hp => by
      rw [List.mem_singleton.mp hp, hself]
      rfl
  constructor
  · exact ht.inv ram bs hinv
  · exact hlinked.roster
  · exact hlinked.bucket
  · intro p hp
    rw [List.mem_singleton.mp hp]
    exact hinv.mem_ram ht.one.1
  · intro p hp
    rw [List.mem_singleton.mp hp]
    show idle ∉ pmm.freePages
    rw [ht.one.2]
    simp
  · show [(Function.update s.task idle new idle).pid] = _
    rw [hself]
    rfl
  · exact h.nextPid
  · show s.nrProcess + 1 = _
    rw [h.nrProcess]
    rfl
  · exact List.mem_singleton_self idle
  · exact List.mem_singleton_self idle
  · intro p hp
    exact absurd (hp.symm.trans h.initProc) (by simp)
  · intro p hp q hq
    rw [List.mem_singleton.mp hp] at hq
    have hparent : (Function.update s.task idle new idle).parent = some q := hq
    rw [hself] at hparent
    exact absurd hparent (by simp [new, idleTask, freshTask])
  · intro p hp
    rw [List.mem_singleton.mp hp]
    exact congrArg TaskStruct.waitState hself

/-- The states that `sched_init` leaves: the idle process forked the init process. -/
theorem Started.cases (h : s.Started ram) : (∀ p ∈ ram, p < 2 ^ 20) ∧
    ∃ (u v : Sched) (idle init kst : ℕ) (userStack initMain : Word),
      u.IdleOnly idle userStack ∧ u.Table ram [idle] ∧
      u.Forked 0#32 (initFrame initMain) init kst v ∧
      s = { v with initProc := some init } ∧ s.Table ram [init, idle] := by
  obtain ⟨s₀, userStack, initMain, hb, heq⟩ := h
  refine ⟨hb.low, ?_⟩
  rw [schedInit, Option.bind_eq_bind, Option.bind_eq_some_iff] at heq
  obtain ⟨u, hidle, heq⟩ := heq
  obtain ⟨idle, ho, htable⟩ := idleInit_table hb hidle
  rw [initProcInit, Option.bind_eq_bind, Option.bind_eq_some_iff] at heq
  obtain ⟨⟨ret, v⟩, hfork, heq⟩ := heq
  obtain ⟨hret, init, kst, hf, htable'⟩ := htable.doFork hfork
  -- the process with pid 1 is the child
  have hfind : v.findProc ret = some (some init) := by
    rw [hret, htable'.findProc_eq (by simp), List.find?_cons_of_pos]
    rw [decide_eq_true_eq, hf.child_pid, htable.nextPid]
  simp only [hfind, Option.bind_eq_bind, Option.bind_some] at heq
  obtain rfl := Option.some.inj heq
  refine ⟨u, v, idle, init, kst, userStack, initMain, ho, htable, hf, rfl, ?_⟩
  exact { htable' with
    initProc := fun p hp => by
      obtain rfl := Option.some.inj hp
      exact List.mem_cons_self }

/-! ## Runs -/

/-- `wakeup_proc` and `proc_run` are called with a process on `proc_list`. -/
def Callable (s : Sched) : SchedOp → Prop
  | .wakeup proc => s.link.OnList .procList (.listLink proc)
  | .run proc => s.link.OnList .procList (.listLink proc)
  | _ => True

theorem Table.procRun (h : s.Table ram procs) (hp : p ∈ procs)
    (heq : s.procRun p [] = some t) : t.Table ram procs := by
  by_cases hcur : p = s.current
  · rw [Sched.procRun, if_neg (not_not.mpr hcur)] at heq
    exact Option.some.inj heq ▸ h
  · exact h.switched (procRun_spec hcur heq) hp

/-- A call enters one process when it is `do_fork`, and none otherwise. -/
theorem Table.exec {op : SchedOp} (h : s.Table ram procs) (hok : s.Callable op)
    (heq : s.exec op = some t) : t.Table ram procs ∨
      ∃ cloneFlags stack tf proc kst, op = .fork cloneFlags stack tf ∧
        s.Forked stack tf proc kst t ∧ t.Table ram (proc :: procs) := by
  cases op with
  | fork cloneFlags stack tf =>
    obtain ⟨⟨pid, u⟩, hfork, hu⟩ := Option.map_eq_some_iff.mp heq
    obtain ⟨-, proc, kst, hf, htable⟩ := h.doFork hfork
    exact Or.inr ⟨cloneFlags, stack, tf, proc, kst, rfl, hu ▸ hf, hu ▸ htable⟩
  | exit errorCode => exact Or.inl (h.doExit heq)
  | schedule => exact Or.inl (h.schedule heq)
  | wakeup proc => exact Or.inl (h.wakeup heq)
  | run proc => exact Or.inl (h.procRun (h.mem_iff.mp hok) heq)
  | intr on => exact Or.inl (Option.some.inj heq ▸ h.setEflags _)

/-- A call that is neither `do_fork` nor `do_exit` leaves the family pointers alone. -/
theorem Table.exec_kin {op : SchedOp} (h : s.Table ram procs) (hok : s.Callable op)
    (heq : s.exec op = some t) :
    (∃ cloneFlags stack tf proc kst, op = .fork cloneFlags stack tf ∧
      s.Forked stack tf proc kst t) ∨ (∃ code, op = .exit code ∧ s.doExit code = some t) ∨
    (t.Table ram procs ∧ t.idleProc = s.idleProc ∧ t.initProc = s.initProc ∧
      t.task.kin = s.task.kin) := by
  cases op with
  | fork cloneFlags stack tf =>
    obtain ⟨⟨pid, u⟩, hfork, rfl⟩ := Option.map_eq_some_iff.mp heq
    obtain ⟨-, proc, kst, hf, -⟩ := h.doFork hfork
    exact Or.inl ⟨cloneFlags, stack, tf, proc, kst, rfl, hf⟩
  | exit code => exact Or.inr (Or.inl ⟨code, rfl, heq⟩)
  | schedule =>
    have hs := h.schedule_spec heq
    exact Or.inr (Or.inr ⟨h.schedule heq, hs.idleProc, hs.initProc, hs.kin⟩)
  | wakeup proc =>
    have ht := h.wakeup heq
    obtain ⟨-, rfl⟩ := wakeupProc_eq_some heq
    exact Or.inr (Or.inr ⟨ht, rfl, rfl, setState_kin ..⟩)
  | run proc =>
    have ht := h.procRun (h.mem_iff.mp hok) heq
    by_cases hcur : proc = s.current
    · rw [Sched.exec, Sched.procRun, if_neg (not_not.mpr hcur)] at heq
      obtain rfl := Option.some.inj heq
      exact Or.inr (Or.inr ⟨ht, rfl, rfl, rfl⟩)
    · have hs := procRun_spec hcur heq
      exact Or.inr (Or.inr ⟨ht, hs.idleProc, hs.initProc, hs.kin⟩)
  | intr on =>
    obtain rfl := Option.some.inj heq
    exact Or.inr (Or.inr ⟨h.setEflags _, rfl, rfl, rfl⟩)

theorem Table.run (h : s.Table ram procs) (hr : Run Sched.exec Callable s t) :
    ∃ procs', t.Table ram procs' := by
  refine hr.invariant (I := fun t => ∃ procs', t.Table ram procs') ⟨procs, h⟩ ?_
  rintro u op v ⟨procs', hu⟩ hok heq
  rcases hu.exec hok heq with hv | ⟨_, _, _, proc, _, _, _, hv⟩
  · exact ⟨procs', hv⟩
  · exact ⟨proc :: procs', hv⟩

/-! ## A small machine -/

/-- A task of memory that nobody has written yet. -/
def blankTask : TaskStruct where
  state := .uninit
  pid := 0
  kstack := 0#32
  parent := none
  mm := none
  context := .zero
  tf := 0#32
  exitCode := 0
  waitState := 0#32
  cptr := none
  yptr := none
  optr := none

/-- The small machine of `vmm_init`, with `n` free frames, when it calls `sched_init`. -/
def sample (n : ℕ) : Sched where
  vm := Vm.sample n 0#32
  mms := fun _ => Vm.initMm
  task := fun _ => blankTask
  link := ⟨id, id⟩
  current := 0
  idleProc := 0
  initProc := none
  nrProcess := 0
  nextPid := 1
  eflags := 0#32

theorem sample_booted {n : ℕ} (hn : 1 ≤ n) (hlow : 4 + n ≤ 2 ^ 20) :
    (sample n).Booted (Set.Ico 4 (4 + n)) := by
  refine ⟨⟨_, Vm.sample_inv hn 0#32⟩, fun p hp => ?_, rfl, rfl, rfl⟩
  rw [Set.mem_Ico] at hp
  omega

/-- The small machine after `sched_init`. -/
def sampleInit (n : ℕ) : Option Sched := (sample n).schedInit 0#32 0#32

theorem sampleInit_started {n : ℕ} (hn : 1 ≤ n) (hlow : 4 + n ≤ 2 ^ 20)
    (h : sampleInit n = some s) : s.Started (Set.Ico 4 (4 + n)) :=
  ⟨_, _, _, sample_booted hn hlow, h⟩

/-- `do_fork` of a thread with interrupts on. -/
def forkOp : SchedOp := .fork 0#32 0#32 (initFrame 0#32)

end Sched

end Zonix
