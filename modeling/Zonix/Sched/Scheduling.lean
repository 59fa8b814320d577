import Zonix.Sched.Table

/-!
# Which process runs

`schedule` walks from the head of `proc_list` and takes the first process that is runnable once
`current` has been demoted, `choice`; without one it takes the idle process. `Sane` is what this
rests on in every run: only `current` is `TASK_RUNNING`, everybody else was suspended before.
The state of a process says all there is to know about the next choice, so the results here
come down to what `Scheduled` says of `Ready`.
-/

namespace Zonix
open Lib

namespace Sched

variable {s t u : Sched} {ram : Set ℕ} {procs : List ℕ} {proc kst p q next : ℕ}

/-! ## The choice -/

/-- The choice is a ready process, or there is none and it is the idle process. -/
theorem choice_cases (s : Sched) (procs : List ℕ) :
    (s.Ready (s.choice procs) ∧ s.choice procs ∈ procs) ∨
      (∀ p ∈ procs, ¬ s.Ready p) ∧ s.choice procs = s.idleProc := by
  unfold choice
  cases hfind : procs.find? fun p => decide (s.Ready p) with
  | none =>
    refine Or.inr ⟨fun p hp => ?_, rfl⟩
    have hno := List.find?_eq_none.mp hfind p hp
    simpa using hno
  | some a =>
    have hready : s.Ready a := by simpa using List.find?_some hfind
    exact Or.inl ⟨hready, List.mem_of_find?_eq_some hfind⟩

/-- The first ready process is the choice. -/
theorem choice_eq_first {as bs : List ℕ} (hp : s.Ready p) (has : ∀ q ∈ as, ¬ s.Ready q) :
    s.choice (as ++ p :: bs) = p := by
  have hnone : as.find? (fun q => decide (s.Ready q)) = none :=
    List.find?_eq_none.mpr fun q hq => by simpa using has q hq
  rw [choice, List.find?_append, hnone, Option.none_or, List.find?_cons_of_pos (by simpa using hp),
    Option.getD_some]

/-- A ready process comes before everything that is behind it. -/
theorem choice_mem_prefix {as bs : List ℕ} (hp : p ∈ as) (hready : s.Ready p) :
    s.choice (as ++ bs) ∈ as := by
  obtain ⟨a, ha⟩ : ∃ a, as.find? (fun q => decide (s.Ready q)) = some a := by
    apply Option.isSome_iff_exists.mp
    rw [List.find?_isSome]
    exact ⟨p, hp, decide_eq_true hready⟩
  rw [choice, List.find?_append, ha, Option.some_or, Option.getD_some]
  exact List.mem_of_find?_eq_some ha

namespace Scheduled

/-- Being chosen or not, the others stay as ready as they were. -/
theorem ready_iff (h : s.Scheduled next t) (hp : p ≠ next) : t.Ready p ↔ s.Ready p := by
  unfold Ready
  have hno : ¬ (next ≠ s.current ∧ p = next) := fun hn => hp hn.2
  rw [h.state p, h.current, if_neg hno]
  by_cases hrun : p = s.current ∧ (s.task p).state = .running
  · rw [if_pos hrun]
    exact iff_of_true (Or.inl rfl) (Or.inr hrun)
  · rw [if_neg hrun]
    simp only [hp, hrun, false_and, or_false]

/-- The process that runs next is ready, unless it is `current` and was not. -/
theorem ready_next (h : s.Scheduled next t) (hnext : next ≠ s.current ∨ s.Ready next) :
    t.Ready next := by
  unfold Ready
  rw [h.state next, h.current]
  by_cases hcur : next = s.current
  · left
    have hready := hnext.resolve_left (not_not.mpr hcur)
    rw [if_neg (fun hn => hn.1 hcur)]
    split_ifs with hrun
    · rfl
    · exact hready.resolve_right hrun
  · right
    rw [if_pos ⟨hcur, rfl⟩]
    exact ⟨rfl, rfl⟩

/-- A process that is not `current` is ready when it is runnable. -/
theorem runnable_iff (h : s.Scheduled next t) (hp : p ≠ next) :
    (t.task p).state = .runnable ↔ s.Ready p := by
  rw [← h.ready_iff hp, Ready, h.current]
  simp only [hp, false_and, or_false]

/-- The next call chooses the same process again. -/
theorem choice_eq (h : s.Scheduled (s.choice procs) t) : t.choice procs = s.choice procs := by
  rcases s.choice_cases procs with ⟨hready, hmem⟩ | ⟨hno, hidle⟩
  · unfold choice at hready hmem h ⊢
    cases hfind : procs.find? fun p => decide (s.Ready p) with
    | none =>
      rw [hfind] at hready hmem
      exact absurd (decide_eq_true hready) (List.find?_eq_none.mp hfind _ hmem)
    | some a =>
      rw [hfind, Option.getD_some] at h hready
      obtain ⟨-, as, bs, hsplit, has⟩ := List.find?_eq_some_iff_append.mp hfind
      -- nothing before `a` was ready, and nothing has become ready but `a`
      have hbefore : ∀ q ∈ as, ¬ t.Ready q := by
        intro q hq
        have hq' : ¬ s.Ready q := by simpa using has q hq
        have hne : q ≠ a := fun heq => hq' (heq ▸ hready)
        rwa [h.ready_iff hne]
      rw [hsplit, ← choice, choice_eq_first (h.ready_next (Or.inr hready)) hbefore]
      rfl
  · rcases t.choice_cases procs with ⟨hready, hmem⟩ | ⟨-, hidle'⟩
    · by_contra hne
      exact hno _ hmem ((h.ready_iff hne).mp hready)
    · rw [hidle', h.idleProc, hidle]

end Scheduled

/-! ## What every run keeps -/

/-- The idle process is the last of the list; nobody is `TASK_RUNNING` but `current`, and
`switch_to` can go to all the others. -/
structure Sane (s : Sched) (ram : Set ℕ) (procs : List ℕ) : Prop extends s.Table ram procs where
  idleLast : procs.getLast? = some s.idleProc
  settled : ∀ p ∈ procs, (s.task p).state ≠ .uninit ∧ (s.task p).state ≠ .sleeping
  running : ∀ p ∈ procs, (s.task p).state = .running → p = s.current
  suspended : ∀ p ∈ procs, p ≠ s.current → (s.task p).context ≠ .zero
  mm : ∀ p ∈ procs, (s.task p).mm ≠ none

/-- The current process is not dead. -/
def Alive (s : Sched) : Prop := (s.task s.current).state ≠ .zombie

theorem Scheduled.alive (h : s.Scheduled next t) (ha : s.Alive ∨ next ≠ s.current) : t.Alive := by
  unfold Alive
  rw [h.current, h.state next]
  by_cases hcur : next = s.current
  · have halive := ha.resolve_right (not_not.mpr hcur)
    rw [if_neg (fun hn => hn.1 hcur), hcur]
    split_ifs
    · simp
    · exact halive
  · rw [if_pos ⟨hcur, rfl⟩]
    simp

theorem Exited.state {code : ℤ} (h : s.Exited code t) (p : ℕ) :
    (t.task p).state = if p = s.current then .zombie else (s.task p).state := by
  have hstate : (t.task p).core.state = _ := congrArg TaskStruct.state (h.core p)
  rw [dead_core] at hstate
  refine hstate.trans ?_
  split_ifs <;> rfl

/-- What `do_exit` does not write. -/
theorem Exited.same {α : Type*} {code : ℤ} (h : s.Exited code t) (f : TaskStruct → α)
    (hcore : ∀ t : TaskStruct, f t.core = f t)
    (hf : ∀ t : TaskStruct, f { t with state := .zombie, exitCode := code } = f t) (p : ℕ) :
    f (t.task p) = f (s.task p) := by
  rw [← hcore (t.task p), h.core p, dead_core]
  split_ifs
  · rw [hf, hcore]
  · rw [hcore]

theorem Exited.current_eq {code : ℤ} (h : s.Exited code t) : t.current = s.current := by
  rw [h.tasks]
  rfl

namespace Sane

/-- `current` is runnable or running, or dead. -/
theorem ready_current (h : s.Sane ram procs) (ha : s.Alive) : s.Ready s.current := by
  obtain ⟨huninit, hsleeping⟩ := h.settled _ h.current
  unfold Ready
  unfold Alive at ha
  cases hstate : (s.task s.current).state with
  | runnable => exact Or.inl rfl
  | running => exact Or.inr ⟨rfl, rfl⟩
  | uninit => exact absurd hstate huninit
  | sleeping => exact absurd hstate hsleeping
  | zombie => exact absurd hstate ha

theorem schedule_isSome (h : s.Sane ram procs) : ∃ t, s.schedule = some t :=
  Sched.schedule_isSome h.roster h.nrProcess (h.mm _ h.choice_mem) (h.mm _ h.toTable.current)
    (h.suspended _ h.choice_mem)

theorem schedule (h : s.Sane ram procs) (heq : s.schedule = some t) : t.Sane ram procs := by
  have hs := h.toTable.schedule_spec heq
  refine ⟨h.toTable.schedule heq, ?_, fun p hp => ?_, fun p hp => ?_, fun p hp hne => ?_,
    fun p hp => ?_⟩
  · rw [hs.idleProc]
    exact h.idleLast
  · rw [hs.state p]
    split_ifs
    · simp
    · simp
    · exact h.settled p hp
  · rw [hs.state p, hs.current]
    split_ifs with hnext hrun
    · exact fun _ => hnext.2
    · simp
    · intro hstate
      exact absurd ⟨h.running p hp hstate, hstate⟩ hrun
  · rw [hs.current] at hne
    rw [hs.context p]
    split_ifs with hcur
    · simp
    · refine h.suspended p hp fun hp => hcur ⟨?_, hp⟩
      exact fun hchoice => hne (hp.trans hchoice.symm)
  · have hmm := TaskStruct.steady_congr TaskStruct.mm (fun _ => rfl) (hs.steady p)
    rw [hmm]
    exact h.mm p hp

theorem exitBody {code : ℤ} (h : s.Sane ram procs) (heq : s.exitBody code = some t) :
    s.Exited code t ∧ t.Sane ram procs := by
  obtain ⟨he, htable⟩ := h.toTable.exitBody heq
  refine ⟨he, htable, ?_, fun p hp => ?_, fun p hp => ?_, fun p hp => ?_, fun p hp => ?_⟩
  · rw [he.sameTable.idleProc]
    exact h.idleLast
  · rw [he.state p]
    split_ifs
    · simp
    · exact h.settled p hp
  · rw [he.state p, he.current_eq]
    split_ifs
    · simp
    · exact h.running p hp
  · rw [he.current_eq, he.same TaskStruct.context (fun _ => rfl) (fun _ => rfl)]
    exact h.suspended p hp
  · rw [he.same TaskStruct.mm (fun _ => rfl) fun _ => rfl]
    exact h.mm p hp

theorem forked {stack : Word} {tf : TrapFrame} (h : s.Sane ram procs)
    (hf : s.Forked stack tf proc kst t) : t.Sane ram (proc :: procs) := by
  have hnew := h.toTable.new hf
  have hne : ∀ p ∈ procs, p ≠ proc := fun p hp heq => hnew (heq ▸ hp)
  have hold : ∀ p ∈ procs, (t.task p).core = (s.task p).core :=
    fun p hp => hf.others p (hne p hp)
  refine ⟨h.toTable.forked hf, ?_, fun p hp => ?_, fun p hp => ?_, fun p hp => ?_, fun p hp => ?_⟩
  · rw [List.getLast?_cons, h.idleLast, hf.idleProc]
    rfl
  · rcases List.mem_cons.mp hp with rfl | hp
    · simp [hf.child_state]
    · rw [TaskStruct.core_congr TaskStruct.state (fun _ => rfl) (hold p hp)]
      exact h.settled p hp
  · rcases List.mem_cons.mp hp with rfl | hp
    · simp [hf.child_state]
    · rw [TaskStruct.core_congr TaskStruct.state (fun _ => rfl) (hold p hp), hf.current]
      exact h.running p hp
  · rcases List.mem_cons.mp hp with rfl | hp
    · simp [hf.child_context]
    · rw [TaskStruct.core_congr TaskStruct.context (fun _ => rfl) (hold p hp), hf.current]
      exact h.suspended p hp
  · rcases List.mem_cons.mp hp with rfl | hp
    · rw [hf.child_mm]
      exact h.mm _ h.toTable.current
    · rw [TaskStruct.core_congr TaskStruct.mm (fun _ => rfl) (hold p hp)]
      exact h.mm p hp

theorem wakeup (h : s.Sane ram procs) (heq : s.wakeupProc q = some t) : t.Sane ram procs := by
  have htable := h.toTable.wakeup heq
  obtain ⟨-, rfl⟩ := wakeupProc_eq_some heq
  refine ⟨htable, h.idleLast, fun p hp => ?_, fun p hp => ?_, fun p hp => ?_, fun p hp => ?_⟩
  · rw [setState_state]
    split_ifs
    · simp
    · exact h.settled p hp
  · rw [setState_state]
    split_ifs
    · simp
    · exact h.running p hp
  · rw [setState_keeps TaskStruct.context .runnable fun _ _ => rfl]
    exact h.suspended p hp
  · rw [setState_mm]
    exact h.mm p hp

theorem setEflags (h : s.Sane ram procs) (eflags : Word) : (s.setEflags eflags).Sane ram procs :=
  ⟨h.toTable.setEflags eflags, h.idleLast, h.settled, h.running, h.suspended, h.mm⟩

end Sane

/-- `sched_init` leaves the idle process and `init`, both runnable. -/
theorem Started.sane (h : s.Started ram) : ∃ procs, s.Sane ram procs ∧ s.Alive := by
  obtain ⟨-, u, v, idle, init, kst, userStack, initMain, ho, hu, hf, rfl, htable⟩ := h.cases
  obtain ⟨task, htask⟩ := ho.task
  have hnew := hu.new hf
  have hidle : u.Sane ram [idle] := by
    refine ⟨hu, congrArg some ho.idleProc.symm, fun p hp => ?_, fun p hp => ?_, fun p hp hne => ?_,
      fun p hp => ?_⟩
    all_goals obtain rfl := List.mem_singleton.mp hp
    · simp [htask]
    · simp [htask]
    · exact absurd ho.current.symm hne
    · simp [htask]
  have hinit := hidle.forked hf
  refine ⟨[init, idle], ⟨htable, hinit.idleLast, hinit.settled, hinit.running, hinit.suspended,
    hinit.mm⟩, ?_⟩
  have hne : v.current ≠ init := by
    rw [hf.current, ho.current]
    exact fun heq => hnew (heq ▸ List.mem_singleton_self idle)
  have hstate := TaskStruct.core_congr TaskStruct.state (fun _ => rfl) (hf.others _ hne)
  show (v.task v.current).state ≠ .zombie
  rw [hstate, hf.current, ho.current, htask]
  simp

/-! ## Runs -/

/-- Nobody calls `proc_run` but `schedule`. -/
def SchedOk (s : Sched) (op : SchedOp) : Prop := s.Callable op ∧ ∀ p, op ≠ .run p

theorem Sane.exec {op : SchedOp} (h : s.Sane ram procs) (ha : s.Alive) (hok : s.SchedOk op)
    (heq : s.exec op = some t) : ∃ procs', t.Sane ram procs' ∧ t.Alive := by
  cases op with
  | fork cloneFlags stack tf =>
    obtain ⟨⟨pid, u⟩, hfork, rfl⟩ := Option.map_eq_some_iff.mp heq
    obtain ⟨-, proc, kst, hf, -⟩ := h.doFork hfork
    have hne : s.current ≠ proc := fun hc => h.new hf (hc ▸ h.toTable.current)
    have hstate := TaskStruct.core_congr TaskStruct.state (fun _ => rfl) (hf.others _ hne)
    refine ⟨_, h.forked hf, ?_⟩
    show (u.task u.current).state ≠ .zombie
    rw [hf.current, hstate]
    exact ha
  | exit code =>
    -- the zombie is `current` until `schedule` has switched away from it
    obtain ⟨u, hbody, hsched, hne⟩ := doExit_eq_some heq
    obtain ⟨-, hu⟩ := h.exitBody hbody
    have hs := hu.toTable.schedule_spec hsched
    exact ⟨procs, hu.schedule hsched, hs.alive (Or.inr (hs.current ▸ hne))⟩
  | schedule =>
    exact ⟨procs, h.schedule heq, (h.toTable.schedule_spec heq).alive (Or.inl ha)⟩
  | wakeup q =>
    refine ⟨procs, h.wakeup heq, ?_⟩
    obtain ⟨-, rfl⟩ := wakeupProc_eq_some heq
    show ((s.setState q .runnable).task s.current).state ≠ .zombie
    rw [setState_state]
    split_ifs
    · simp
    · exact ha
  | run q => exact absurd rfl (hok.2 q)
  | intr on =>
    obtain rfl := Option.some.inj heq
    exact ⟨procs, h.setEflags _, ha⟩

theorem Sane.run (h : s.Sane ram procs) (ha : s.Alive) (hr : Run Sched.exec SchedOk s t) :
    ∃ procs', t.Sane ram procs' ∧ t.Alive := by
  refine hr.invariant (I := fun t => ∃ procs', t.Sane ram procs' ∧ t.Alive) ⟨procs, h, ha⟩ ?_
  rintro u op v ⟨procs', hu, hau⟩ hok heq
  exact hu.exec hau hok heq

theorem Started.run_sane (h : s.Started ram) (hr : Run Sched.exec SchedOk s t) :
    ∃ procs, t.Sane ram procs ∧ t.Alive := by
  obtain ⟨procs, hs, ha⟩ := h.sane
  exact hs.run ha hr

/-! ## Who is running -/

/-- `current` is `TASK_RUNNING`, and no other process is. -/
def OnlyCurrentRuns (s : Sched) : Prop :=
  (s.task s.current).state = .running ∧
    ∀ p, s.link.OnList .procList (.listLink p) → (s.task p).state = .running → p = s.current

/-- `schedule` makes the process that it switches to `TASK_RUNNING`; a process that it keeps has
been demoted. -/
theorem Sane.onlyCurrentRuns_iff (h : s.Sane ram procs) (heq : s.schedule = some t) :
    t.OnlyCurrentRuns ↔ s.choice procs ≠ s.current := by
  have hs := h.toTable.schedule_spec heq
  have ht := h.schedule heq
  constructor
  · rintro ⟨hrun, -⟩ hcur
    rw [hs.current, hs.state, if_neg (fun hn => hn.1 hcur)] at hrun
    split_ifs at hrun with hdemoted
    exact hdemoted ⟨hcur, hrun⟩
  · intro hne
    refine ⟨?_, fun p hp => ht.running p (ht.toTable.mem_iff.mp hp)⟩
    rw [hs.current, hs.state, if_pos ⟨hne, rfl⟩]

/-- A process that could go on running is only passed over for one before it on the list. -/
theorem Sane.choice_ne_current_iff (h : s.Sane ram procs) (ha : s.Alive) :
    s.choice procs ≠ s.current ↔ ∃ as bs, procs = as ++ s.current :: bs ∧
      ∃ p ∈ as, (s.task p).state = .runnable := by
  have hnd := h.nodup
  have hbefore : ∀ as bs, procs = as ++ s.current :: bs → s.current ∉ as := by
    intro as bs hsplit hc
    rw [hsplit] at hnd
    exact (List.nodup_append.mp hnd).2.2 _ hc _ (by simp) rfl
  constructor
  · intro hne
    obtain ⟨as, bs, hsplit⟩ := List.append_of_mem h.toTable.current
    refine ⟨as, bs, hsplit, ?_⟩
    by_contra hno
    -- then nothing before `current` is ready
    have hnone : ∀ q ∈ as, ¬ s.Ready q := by
      rintro q hq (hrun | ⟨rfl, -⟩)
      · exact hno ⟨q, hq, hrun⟩
      · exact hbefore as bs hsplit hq
    rw [hsplit] at hne
    exact hne (choice_eq_first (h.ready_current ha) hnone)
  · rintro ⟨as, bs, hsplit, p, hp, hrun⟩ heq
    have hmem : s.choice (as ++ s.current :: bs) ∈ as := choice_mem_prefix hp (Or.inl hrun)
    rw [← hsplit, heq] at hmem
    exact hbefore as bs hsplit hmem

/-- A dead process is never ready; the idle process runs when nobody is. -/
theorem choice_ne_dead_iff (hdead : (s.task s.current).state = .zombie) :
    s.choice procs ≠ s.current ↔ s.current ≠ s.idleProc ∨
      ∃ p ∈ procs, (s.task p).state = .runnable := by
  have hcur : ¬ s.Ready s.current := by
    rintro (h | ⟨-, h⟩)
    · exact absurd (hdead.symm.trans h) (by simp)
    · exact absurd (hdead.symm.trans h) (by simp)
  rcases s.choice_cases procs with ⟨hready, hmem⟩ | ⟨hno, hidle⟩
  · have hne : s.choice procs ≠ s.current := fun heq => hcur (heq ▸ hready)
    refine iff_of_true hne (Or.inr ⟨s.choice procs, hmem, ?_⟩)
    exact hready.resolve_right fun hrun => hne hrun.1
  · rw [hidle]
    refine ⟨fun hne => Or.inl (Ne.symm hne), ?_⟩
    rintro (hne | ⟨p, hp, hrun⟩)
    · exact Ne.symm hne
    · exact absurd (Or.inl hrun) (hno p hp)

/-- When `schedule` returns, in whatever process, `current` is `TASK_RUNNING` and nobody else is,
if and only if some runnable process stood before `current` on `proc_list`, or the call was that
of `do_exit`, by another process than idle or with another process runnable. -/
theorem schedule_onlyCurrentRuns_iff (h : s.Started ram) (hr : Run Sched.exec SchedOk s t) :
    ∃ procs : List ℕ, t.link.Ring .procList (procs.map .listLink) ∧
      (∀ u, t.schedule = some u → (u.OnlyCurrentRuns ↔ ∃ as bs, procs = as ++ t.current :: bs ∧
        ∃ p ∈ as, (t.task p).state = .runnable)) ∧
      ∀ code v u, t.exitBody code = some v → v.schedule = some u →
        (u.OnlyCurrentRuns ↔ t.current ≠ t.idleProc ∨
          ∃ p ∈ procs, p ≠ t.current ∧ (t.task p).state = .runnable) := by
  obtain ⟨procs, ht, ha⟩ := h.run_sane hr
  refine ⟨procs, ht.roster, fun u hu => ?_, fun code v u hv hu => ?_⟩
  · rw [ht.onlyCurrentRuns_iff hu, ht.choice_ne_current_iff ha]
  · obtain ⟨he, hv⟩ := ht.exitBody hv
    have hdead : (v.task v.current).state = .zombie := by
      rw [he.state, he.current_eq, if_pos rfl]
    rw [hv.onlyCurrentRuns_iff hu, choice_ne_dead_iff hdead, he.current_eq, he.sameTable.idleProc]
    apply or_congr_right
    apply exists_congr
    intro p
    rw [he.state]
    by_cases hp : p = t.current <;> simp [hp]

/-- `init` schedules, and stays `TASK_RUNNABLE`. -/
theorem schedule_keeps_runnable : ∃ s t u, s.Started (Set.Ico 4 (4 + 12)) ∧
    Run Sched.exec SchedOk s t ∧ t.schedule = some u ∧
    (u.task u.current).state = .runnable ∧ ¬ u.OnlyCurrentRuns := by
  have hsome : ((sampleInit 12).bind fun s => s.schedule.bind fun t => t.schedule.map fun u =>
      (u.task u.current).state) = some .runnable := by
    decide +kernel
  obtain ⟨s, hs, hsome⟩ := Option.bind_eq_some_iff.mp hsome
  obtain ⟨t, ht, hsome⟩ := Option.bind_eq_some_iff.mp hsome
  obtain ⟨u, hu, hstate⟩ := Option.map_eq_some_iff.mp hsome
  have hrun : Run Sched.exec SchedOk s t := Run.single ⟨.schedule, ⟨trivial, by simp⟩, ht⟩
  refine ⟨s, t, u, sampleInit_started (by decide) (by decide) hs, hrun, hu, hstate, fun hno => ?_⟩
  rw [OnlyCurrentRuns, hstate] at hno
  exact absurd hno.1 (by simp)

/-- `init` exits, and the idle process runs. -/
theorem schedule_onlyCurrentRuns_sample : ∃ s t v u, sampleInit 12 = some s ∧
    s.schedule = some t ∧ t.exitBody 0 = some v ∧ v.schedule = some u ∧ u.OnlyCurrentRuns := by
  have hsome : ((sampleInit 12).bind fun s => s.schedule.bind fun t =>
      (t.exitBody 0).bind fun v => v.schedule.map fun _ => (t.current, t.idleProc)) =
        some (5, 4) := by
    decide +kernel
  obtain ⟨s, hs, hsome⟩ := Option.bind_eq_some_iff.mp hsome
  obtain ⟨t, ht, hsome⟩ := Option.bind_eq_some_iff.mp hsome
  obtain ⟨v, hv, hsome⟩ := Option.bind_eq_some_iff.mp hsome
  obtain ⟨u, hu, hfields⟩ := Option.map_eq_some_iff.mp hsome
  obtain ⟨hcur, hidle⟩ := Prod.mk.inj hfields
  have hrun : Run Sched.exec SchedOk s t := Run.single ⟨.schedule, ⟨trivial, by simp⟩, ht⟩
  obtain ⟨procs, -, -, hexit⟩ := schedule_onlyCurrentRuns_iff
    (sampleInit_started (by decide) (by decide) hs) hrun
  have hne : t.current ≠ t.idleProc := by
    rw [hcur, hidle]
    decide
  exact ⟨s, t, v, u, hs, ht, hv, hu, (hexit 0 v u hv hu).mpr (Or.inl hne)⟩

/-! ## The dead -/

/-- `do_exit` is called by a process other than idle. -/
def ExitOk (s : Sched) (op : SchedOp) : Prop :=
  s.SchedOk op ∧ ∀ code, op = .exit code → s.current ≠ s.idleProc

/-- The idle process is not dead, so that `schedule` never chooses a dead one. -/
structure Undying (s : Sched) (ram : Set ℕ) (procs : List ℕ) : Prop extends s.Sane ram procs where
  idleAlive : (s.task s.idleProc).state ≠ .zombie

/-- A dead process, which is on the list. -/
structure Dead (s : Sched) (procs : List ℕ) (p : ℕ) : Prop where
  mem : p ∈ procs
  zombie : (s.task p).state = .zombie

theorem not_ready_of_zombie (h : (s.task p).state = .zombie) : ¬ s.Ready p := by
  rintro (hrun | ⟨-, hrun⟩)
  · exact absurd (h.symm.trans hrun) (by simp)
  · exact absurd (h.symm.trans hrun) (by simp)

namespace Undying

theorem choice_ne (h : s.Undying ram procs) (hp : (s.task p).state = .zombie) :
    s.choice procs ≠ p := by
  rintro rfl
  rcases s.choice_cases procs with ⟨hready, -⟩ | ⟨-, hidle⟩
  · exact not_ready_of_zombie hp hready
  · rw [hidle] at hp
    exact h.idleAlive hp

/-- `schedule` leaves the dead alone. -/
theorem schedule_zombie (h : s.Undying ram procs) (heq : s.schedule = some t) :
    t.Undying ram procs ∧ ∀ p, (s.task p).state = .zombie →
      (t.task p).state = .zombie ∧ t.current ≠ p := by
  have hs := h.toTable.schedule_spec heq
  have hstate : ∀ p, (t.task p).state = .zombie ↔ (s.task p).state = .zombie := by
    intro p
    rw [hs.state p]
    split_ifs with hnext hrun
    · have hno : (s.task p).state ≠ .zombie := fun hz => h.choice_ne hz hnext.2.symm
      exact iff_of_false (by simp) hno
    · rw [hrun.2]
      simp
    · exact Iff.rfl
  refine ⟨⟨h.toSane.schedule heq, ?_⟩, fun p hp => ⟨(hstate p).mpr hp, ?_⟩⟩
  · rw [hs.idleProc]
    exact fun hz => h.idleAlive ((hstate _).mp hz)
  · rw [hs.current]
    exact h.choice_ne hp

theorem exitBody {code : ℤ} (h : s.Undying ram procs) (hne : s.current ≠ s.idleProc)
    (heq : s.exitBody code = some t) : s.Exited code t ∧ t.Undying ram procs := by
  obtain ⟨he, ht⟩ := h.toSane.exitBody heq
  refine ⟨he, ht, ?_⟩
  rw [he.sameTable.idleProc, he.state, if_neg (Ne.symm hne)]
  exact h.idleAlive

/-- `do_exit` switches away from the process, which is dead, and does not come back to it. -/
theorem doExit {code : ℤ} (h : s.Undying ram procs) (hne : s.current ≠ s.idleProc)
    (hbody : s.exitBody code = some u) : ∃ t, u.schedule = some t ∧ t.current ≠ u.current ∧
      s.doExit code = some t ∧ (t.task s.current).state = .zombie := by
  obtain ⟨he, hu⟩ := h.exitBody hne hbody
  obtain ⟨t, ht⟩ := hu.toSane.schedule_isSome
  have hdead : (u.task u.current).state = .zombie := by
    rw [he.state, he.current_eq, if_pos rfl]
  obtain ⟨hzombie, hcur⟩ := (hu.schedule_zombie ht).2 u.current hdead
  refine ⟨t, ht, hcur, ?_, he.current_eq ▸ hzombie⟩
  rw [Sched.doExit, hbody, Option.bind_eq_bind, Option.bind_some, ht]
  exact if_neg hcur

/-- One step: the idle process stays alive, and the dead stay dead. -/
theorem exec {op : SchedOp} (h : s.Undying ram procs) (ha : s.Alive) (hok : s.ExitOk op)
    (heq : s.exec op = some t) : ∃ procs', (t.Undying ram procs' ∧ t.Alive) ∧
      ∀ p, s.Dead procs p → t.Dead procs' p := by
  obtain ⟨hsched, hexit⟩ := hok
  obtain ⟨-, -, hat⟩ := h.toSane.exec ha hsched heq
  cases op with
  | fork cloneFlags stack tf =>
    obtain ⟨⟨pid, u⟩, hfork, rfl⟩ := Option.map_eq_some_iff.mp heq
    obtain ⟨-, proc, kst, hf, -⟩ := h.doFork hfork
    have hnew := h.new hf
    have hstate : ∀ p ∈ procs, (u.task p).state = (s.task p).state := fun p hp =>
      TaskStruct.core_congr TaskStruct.state (fun _ => rfl)
        (hf.others p fun heq => hnew (heq ▸ hp))
    refine ⟨proc :: procs, ⟨⟨h.toSane.forked hf, ?_⟩, hat⟩, fun p hp => ⟨?_, ?_⟩⟩
    · show (u.task u.idleProc).state ≠ .zombie
      rw [hf.idleProc, hstate _ h.idleProc]
      exact h.idleAlive
    · exact List.mem_cons_of_mem proc hp.mem
    · exact (hstate p hp.mem).trans hp.zombie
  | exit code =>
    have hne := hexit code rfl
    obtain ⟨u, hbody, hsched, hcur⟩ := doExit_eq_some heq
    obtain ⟨he, hu⟩ := h.exitBody hne hbody
    obtain ⟨ht, hzombie⟩ := hu.schedule_zombie hsched
    refine ⟨procs, ⟨ht, hat⟩, fun p hp => ⟨hp.mem, ?_⟩⟩
    apply (hzombie p _).1
    rw [he.state, hp.zombie, ite_self]
  | schedule =>
    obtain ⟨ht, hzombie⟩ := h.schedule_zombie heq
    exact ⟨procs, ⟨ht, hat⟩, fun p hp => ⟨hp.mem, (hzombie p hp.zombie).1⟩⟩
  | wakeup q =>
    have hsane := h.toSane.wakeup heq
    obtain ⟨hq, rfl⟩ := wakeupProc_eq_some heq
    refine ⟨procs, ⟨⟨hsane, ?_⟩, hat⟩, fun p hp => ⟨hp.mem, ?_⟩⟩
    · show ((s.setState q .runnable).task s.idleProc).state ≠ .zombie
      rw [setState_state]
      split_ifs
      · simp
      · exact h.idleAlive
    · -- the assertion of `wakeup_proc` keeps the dead from it
      have hpq : p ≠ q := fun heq => hq (heq ▸ hp.zombie)
      rw [setState_state, if_neg hpq, hp.zombie]
  | run q => exact absurd rfl (hsched.2 q)
  | intr on =>
    obtain rfl := Option.some.inj heq
    exact ⟨procs, ⟨⟨h.toSane.setEflags _, h.idleAlive⟩, hat⟩, fun p hp => ⟨hp.mem, hp.zombie⟩⟩

theorem run (h : s.Undying ram procs) (ha : s.Alive) (hr : Run Sched.exec ExitOk s t) :
    ∃ procs', (t.Undying ram procs' ∧ t.Alive) ∧ ∀ p, s.Dead procs p → t.Dead procs' p := by
  refine hr.invariant (I := fun t => ∃ procs', (t.Undying ram procs' ∧ t.Alive) ∧
    ∀ p, s.Dead procs p → t.Dead procs' p) ⟨procs, ⟨h, ha⟩, fun p hp => hp⟩ ?_
  rintro u op v ⟨procs', ⟨hu, hau⟩, hdead⟩ hok heq
  obtain ⟨procs'', hv, hdead'⟩ := hu.exec hau hok heq
  exact ⟨procs'', hv, fun p hp => hdead' p (hdead p hp)⟩

end Undying

theorem Started.undying (h : s.Started ram) : ∃ procs, s.Undying ram procs ∧ s.Alive := by
  obtain ⟨procs, hs, ha⟩ := h.sane
  obtain ⟨-, u, v, idle, init, kst, userStack, initMain, ho, hu, hf, rfl, -⟩ := h.cases
  have hcur : v.current = v.idleProc := by
    rw [hf.current, hf.idleProc, ho.current, ho.idleProc]
  refine ⟨procs, ⟨hs, ?_⟩, ha⟩
  show (v.task v.idleProc).state ≠ .zombie
  rw [← hcur]
  exact ha

/-- In every run, a process that is `TASK_ZOMBIE` stays so and does not become `current`; and a
`do_exit` that comes as far as `schedule` switches to another process, and so does not reach its
panic. -/
theorem dead_stay_dead (h : s.Started ram) (hr : Run Sched.exec ExitOk s t) :
    (∀ p, t.link.OnList .procList (.listLink p) → (t.task p).state = .zombie →
      ∀ u, Run Sched.exec ExitOk t u → (u.task p).state = .zombie ∧ u.current ≠ p) ∧
    ∀ code u, t.current ≠ t.idleProc → t.exitBody code = some u →
      ∃ v, u.schedule = some v ∧ v.current ≠ u.current ∧ t.doExit code = some v ∧
        (v.task t.current).state = .zombie := by
  obtain ⟨procs₀, hs, ha⟩ := h.undying
  obtain ⟨procs, ⟨ht, hat⟩, -⟩ := hs.run ha hr
  refine ⟨fun p hp hzombie u hu => ?_, fun code u hne hbody => ht.doExit hne hbody⟩
  have hdead : t.Dead procs p := ⟨ht.toTable.mem_iff.mp hp, hzombie⟩
  obtain ⟨procs', ⟨hu, hau⟩, hdead'⟩ := ht.run hat hu
  have hp' := (hdead' p hdead).zombie
  refine ⟨hp', ?_⟩
  rintro rfl
  exact hau hp'

/-- `init` exits, and later the idle process schedules. -/
theorem dead_stay_dead_sample : ∃ s v t u, sampleInit 12 = some s ∧ s.exec .schedule = some v ∧
    v.exec (.exit 0) = some t ∧ t.exec .schedule = some u ∧
    (u.task 5).state = .zombie ∧ u.current ≠ 5 := by
  have hsome : ((sampleInit 12).bind fun s => (s.exec .schedule).bind fun v =>
      (v.exec (.exit 0)).bind fun t => (t.exec .schedule).map fun _ =>
        (v.current, v.idleProc, (t.task 5).state, t.link.next .procList)) =
          some (5, 4, .zombie, .listLink 5) := by
    decide +kernel
  obtain ⟨s, hs, hsome⟩ := Option.bind_eq_some_iff.mp hsome
  obtain ⟨v, hv, hsome⟩ := Option.bind_eq_some_iff.mp hsome
  obtain ⟨t, ht, hsome⟩ := Option.bind_eq_some_iff.mp hsome
  obtain ⟨u, hu, hfields⟩ := Option.map_eq_some_iff.mp hsome
  simp only [Prod.mk.injEq] at hfields
  obtain ⟨hcur, hidle, hzombie, hfirst⟩ := hfields
  have hne : v.current ≠ v.idleProc := by
    rw [hcur, hidle]
    decide
  have hlisted : t.link.OnList .procList (.listLink 5) := by
    rw [← hfirst]
    apply Links.OnList.first
    rw [hfirst]
    decide
  have hrun : Run Sched.exec ExitOk s t :=
    (Run.single ⟨.schedule, ⟨⟨trivial, by simp⟩, by simp⟩, hv⟩).tail
      ⟨.exit 0, ⟨⟨trivial, by simp⟩, fun _ _ => hne⟩, ht⟩
  have hstep : Run Sched.exec ExitOk t u :=
    Run.single ⟨.schedule, ⟨⟨trivial, by simp⟩, by simp⟩, hu⟩
  obtain ⟨hdead, -⟩ := dead_stay_dead (sampleInit_started (by decide) (by decide) hs) hrun
  exact ⟨s, v, t, u, hs, hv, ht, hu, hdead 5 hlisted hzombie u hstep⟩

end Sched
end Zonix
