import Zonix.Sched.Table

/-!
# What the tables have, and what `find_proc` returns

`Logged` is the system with a list of all pids that it has given out, which the code does not
keep. Every call keeps the table and the list in step.
-/

namespace Zonix
open Lib

/-- The system, and the pids that it has given out: those of `sched_init`, and what `do_fork`
returned. -/
structure Logged where
  sys : Sched
  created : List ℤ

namespace Logged

variable {l l' : Logged} {ram : Set ℕ} {procs : List ℕ}

def exec (l : Logged) : SchedOp → Option Logged
  | .fork cloneFlags stack tf => do
    let (pid, sys) ← l.sys.doFork cloneFlags stack tf
    some ⟨sys, pid :: l.created⟩
  | op => do
    let sys ← l.sys.exec op
    some ⟨sys, l.created⟩

theorem exec_of_ne_fork {op : SchedOp}
    (hop : ∀ cloneFlags stack tf, op ≠ .fork cloneFlags stack tf) :
    l.exec op = (l.sys.exec op).bind fun sys => some ⟨sys, l.created⟩ := by
  rw [Logged.exec]
  · rfl
  · exact hop

def Callable (l : Logged) (op : SchedOp) : Prop := l.sys.Callable op

/-- `sched_init` came back; it made the processes 0 and 1. -/
def Started (l : Logged) (ram : Set ℕ) : Prop := l.sys.Started ram ∧ l.created = [1, 0]

/-- The table has the processes that were created. -/
structure Table (l : Logged) (ram : Set ℕ) (procs : List ℕ) : Prop where
  table : l.sys.Table ram procs
  created : l.created = procs.map fun p => (l.sys.task p).pid

theorem Started.table (h : l.Started ram) : ∃ procs, l.Table ram procs := by
  obtain ⟨-, u, v, idle, init, kst, userStack, initMain, -, -, -, -, htable⟩ := h.1.cases
  exact ⟨[init, idle], htable, h.2.trans htable.pids.symm⟩

/-- Steps that create no process change no pid. -/
theorem Table.same {sys : Sched} (h : l.Table ram procs) (ht : sys.Table ram procs) :
    Table ⟨sys, l.created⟩ ram procs :=
  ⟨ht, h.created.trans (h.table.pids.trans ht.pids.symm)⟩

theorem Table.exec {op : SchedOp} (h : l.Table ram procs) (hok : l.Callable op)
    (heq : l.exec op = some l') : ∃ procs', l'.Table ram procs' := by
  by_cases hop : ∃ cloneFlags stack tf, op = .fork cloneFlags stack tf
  · obtain ⟨cloneFlags, stack, tf, rfl⟩ := hop
    obtain ⟨⟨pid, sys⟩, hfork, heq⟩ := Option.bind_eq_some_iff.mp heq
    obtain rfl := Option.some.inj heq
    obtain ⟨hpid, proc, kst, hf, htable⟩ := h.table.doFork hfork
    refine ⟨proc :: procs, htable, ?_⟩
    -- the new pid is the number of the processes that there were
    rw [htable.pids, List.length_cons, List.range_succ, List.reverse_append, List.map_append,
      ← h.table.pids, ← h.created, hpid]
    rfl
  · have hne : ∀ cloneFlags stack tf, op ≠ .fork cloneFlags stack tf :=
      fun _ _ _ heq => hop ⟨_, _, _, heq⟩
    rw [exec_of_ne_fork hne, Option.bind_eq_some_iff] at heq
    obtain ⟨sys, hsys, heq⟩ := heq
    obtain rfl := Option.some.inj heq
    rcases h.table.exec hok hsys with ht | ⟨cloneFlags, stack, tf, _, _, hfork, -⟩
    · exact ⟨procs, h.same ht⟩
    · exact absurd ⟨cloneFlags, stack, tf, hfork⟩ hop

theorem Table.run (h : l.Table ram procs) (hr : Run Logged.exec Callable l l') :
    ∃ procs', l'.Table ram procs' := by
  refine hr.invariant (I := fun l => ∃ procs', l.Table ram procs') ⟨procs, h⟩ ?_
  rintro u op v ⟨procs', hu⟩ hok heq
  exact hu.exec hok heq

/-- In every state that `sched_init` and any calls lead to, `proc_list` has each process once
and no two with the same pid, each bucket has those with its hash and each of them once,
`nr_process` counts them, and `find_proc` comes back with the process that was created with the
pid, if there was one. -/
theorem pidTable_consistent (h : l.Started ram) (hr : Run Logged.exec Callable l l') :
    ∃ procs : List ℕ, l'.sys.link.Ring .procList (procs.map .listLink) ∧
      l'.sys.nrProcess = procs.length ∧
      (procs.map fun p => (l'.sys.task p).pid).Nodup ∧
      (∀ pid, 0 < pid →
        (pid ∈ l'.created → ∃ p ∈ procs, (l'.sys.task p).pid = pid ∧
          l'.sys.findProc pid = some (some p)) ∧
        (pid ∉ l'.created → l'.sys.findProc pid = some none)) ∧
      (∀ p ∈ procs, pidHashfn (l'.sys.task p).pid < HASH_LIST_SIZE) ∧
      ∀ i < HASH_LIST_SIZE, l'.sys.link.Ring (.hashList i)
        ((procs.filter fun p => pidHashfn (l'.sys.task p).pid = i).map .hashLink) := by
  obtain ⟨procs₀, h₀⟩ := h.table
  obtain ⟨procs, htable, hcreated⟩ := h₀.run hr
  refine ⟨procs, htable.roster, htable.nrProcess, htable.nodup_pids, fun pid hpid => ?_,
    fun p _ => Sched.pidHashfn_lt _, htable.bucket⟩
  rw [htable.findProc_eq hpid, hcreated, List.mem_map]
  constructor
  · rintro ⟨p, hp, rfl⟩
    refine ⟨p, hp, rfl, congrArg some ?_⟩
    apply htable.find?_pid hp
  · intro hno
    refine congrArg some (List.find?_eq_none.mpr fun p hp hpid => ?_)
    exact hno ⟨p, hp, of_decide_eq_true hpid⟩

/-- The idle process makes another process, which makes a third one and exits. -/
theorem pidTable_consistent_sample : ∃ s l', Sched.sampleInit 12 = some s ∧
    [Sched.forkOp, .schedule, Sched.forkOp, .exit 0].foldlM exec ⟨s, [1, 0]⟩ = some l' ∧
    ∃ procs : List ℕ, l'.sys.link.Ring .procList (procs.map .listLink) ∧ procs.length = 4 ∧
      ∃ p ∈ procs, (l'.sys.task p).pid = 3 ∧ l'.sys.findProc 3 = some (some p) := by
  have hsome : ((Sched.sampleInit 12).bind fun s =>
      ([Sched.forkOp, .schedule, Sched.forkOp, .exit 0].foldlM exec ⟨s, [1, 0]⟩).map
        fun l => (l.created, l.sys.nrProcess)) = some ([3, 2, 1, 0], 4) := by
    decide +kernel
  obtain ⟨s, hs, hsome⟩ := Option.bind_eq_some_iff.mp hsome
  obtain ⟨l', hl', hlog⟩ := Option.map_eq_some_iff.mp hsome
  obtain ⟨hcreated, hcount⟩ := Prod.mk.inj hlog
  have hstarted : Started ⟨s, [1, 0]⟩ (Set.Ico 4 (4 + 12)) :=
    ⟨Sched.sampleInit_started (by decide) (by decide) hs, rfl⟩
  have hallowed : Allowed exec Callable [Sched.forkOp, .schedule, Sched.forkOp, .exit 0]
      ⟨s, [1, 0]⟩ :=
    ⟨trivial, fun _ _ => ⟨trivial, fun _ _ => ⟨trivial, fun _ _ => ⟨trivial, fun _ _ => trivial⟩⟩⟩⟩
  obtain ⟨procs, hring, hlen, -, hfind, -⟩ :=
    pidTable_consistent hstarted (Run.of_foldlM hallowed hl')
  refine ⟨s, l', hs, hl', procs, hring, ?_, (hfind 3 (by decide)).1 ?_⟩
  · rw [hcount] at hlen
    exact_mod_cast hlen.symm
  · rw [hcreated]
    decide

end Logged
end Zonix
