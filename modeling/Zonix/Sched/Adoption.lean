import Zonix.Sched.Family

/-!
# The loop of `do_exit`

The children of `current` become children of `init` one by one. `Reared` is what every run keeps,
whoever exits: each process has the chain of its children, though these need not be a tree any more
when the idle process has given its own away. A child that `init` gives to itself is its first child
again, and the loop does not end.
-/

namespace Zonix
open Lib

namespace Sched

variable {s t u : Sched} {ram : Set ℕ} {procs : List ℕ} {children : ℕ → List ℕ}
  {proc init : ℕ} {code : ℤ}

/-- The loop ends after `n` turns. -/
def AdoptsIn (s : Sched) (init n : ℕ) : Prop := ∀ k, (s.adoptChildren init k).isSome ↔ n < k

/-- A process that gives its first child to itself. -/
theorem adoptChildren_self {c : ℕ} (hc : (s.task s.current).cptr = some c)
    (hwait : (s.task s.current).waitState = 0#32) (k : ℕ) :
    s.adoptChildren s.current k = none := by
  induction k generalizing s with
  | zero => rfl
  | succ k ih =>
    have hself : (s.task.adopt s.current s.current c s.current).cptr = some c := by
      show (s.task.adopt s.current s.current c).kin.cptr s.current = some c
      rw [Tasks.adopt, Tasks.setCptr_kin]
      exact Function.update_self ..
    have hwait' : (s.task.adopt s.current s.current c s.current).waitState = 0#32 :=
      (congrArg TaskStruct.waitState (Tasks.adopt_core s.current s.current)).trans hwait
    rw [adoptChildren, hc]
    show (s.adoptChild s.current c).bind _ = none
    rw [adoptChild_eq hwait, Option.bind_some]
    exact ih (s := s.setTasks (s.task.adopt s.current s.current c)) hself hwait'

/-! ## What every run keeps -/

/-- Every process has the chain of its children. -/
structure Reared (s : Sched) (ram : Set ℕ) (procs : List ℕ) (children : ℕ → List ℕ)
    (init : ℕ) : Prop where
  table : s.Table ram procs
  siblings : s.task.kin.Siblings procs children
  initProc : s.initProc = some init

namespace Reared

theorem init_mem (h : s.Reared ram procs children init) : init ∈ procs :=
  h.table.initProc init h.initProc

/-- A step that leaves the pointers alone. -/
theorem same (h : s.Reared ram procs children init) (ht : t.Table ram procs)
    (hinit : t.initProc = s.initProc) (hkin : t.task.kin = s.task.kin) :
    t.Reared ram procs children init := by
  constructor
  · exact ht
  · rw [hkin]
    exact h.siblings
  · rw [hinit, h.initProc]

theorem forked {stack : Word} {tf : TrapFrame} {kst : ℕ} (h : s.Reared ram procs children init)
    (hf : s.Forked stack tf proc kst t) :
    t.Reared ram (proc :: procs) (Kin.pushed children s.current proc) init := by
  constructor
  · exact h.table.forked hf
  · rw [hf.kin]
    exact h.siblings.push h.table.current (h.table.new hf)
  · rw [hf.initProc, h.initProc]

/-- The loop of a process other than `init`. -/
theorem adoptChildren (h : s.Reared ram procs children init) (hne : s.current ≠ init) :
    ∃ t children', (∀ k, s.adoptChildren init k =
        if (children s.current).length < k then some t else none) ∧
      t.task.kin.Siblings procs children' := by
  obtain ⟨t, children', heq, hleaving, hnil, -⟩ := adoptChildren_loop
    (I := fun k children => k.Leaving procs s.current children) hne
    (h.table.waits init h.init_mem) (fun _ _ hI => hI.dyingChain)
    (fun _ _ _ _ hI => hI.adopt h.table.current h.init_mem hne)
    (h.siblings.leaving h.table.current) rfl
  exact ⟨t, children', heq, hleaving.siblings hnil⟩

/-- The state that the loop starts in. -/
theorem beforeAdoption (h : s.Reared ram procs children init) (code : ℤ) :
    ∃ flag u, s.beforeAdoption code = some (flag, u) ∧ ¬ u.IfSet ∧ u.current = s.current ∧
      u.Reared ram procs children init := by
  obtain ⟨e, hsave⟩ := (s.dead code).intrSave_snd
  rcases hflag : (s.dead code).intrSave with ⟨flag, v⟩
  obtain rfl : v = (s.dead code).setEflags e := by rw [← hsave, hflag]
  have hclear := (s.dead code).intrSave_clear
  rw [hflag] at hclear
  have hkin : ((s.dead code).setEflags e).task.kin = s.task.kin := s.dead_kin code
  have hpid : ∀ p, ((s.dead code).task p).core.pid = (s.task p).core.pid := by
    intro p
    rw [dead_core]
    split_ifs <;> rfl
  have hsame : s.SameTable ((s.dead code).setEflags e) :=
    ⟨rfl, rfl, rfl, rfl, rfl, rfl, hpid, s.dead_waitState code⟩
  have htable : ((s.dead code).setEflags e).Table ram procs := by
    apply h.table.same hsame h.table.current
    rw [hkin]
    exact h.table.parent
  exact ⟨flag, _, (beforeAdoption_eq h.table.noWaiter code).trans (congrArg some hflag), hclear,
    rfl, h.same htable rfl hkin⟩

theorem doExit (h : s.Reared ram procs children init) (heq : s.doExit code = some t) :
    ∃ children', t.Reared ram procs children' init := by
  obtain ⟨u, hbody, hsched, -⟩ := doExit_eq_some heq
  obtain ⟨he, hu⟩ := h.table.exitBody hbody
  have hinit : u.initProc = some init := he.sameTable.initProc.trans h.initProc
  suffices hsib : ∃ children', u.task.kin.Siblings procs children' by
    obtain ⟨children', hsib⟩ := hsib
    have hs := hu.schedule_spec hsched
    refine ⟨children', hu.schedule hsched, ?_, hs.initProc.trans hinit⟩
    rw [hs.kin]
    exact hsib
  obtain ⟨flag, v, hbefore, -, -, hv⟩ := h.beforeAdoption code
  rw [exitBody_eq_bind, hbefore, Option.bind_some, giveChildren, hv.initProc,
    Option.bind_eq_some_iff] at hbody
  obtain ⟨w, hloop, hbody⟩ := hbody
  obtain ⟨e, hrestore⟩ := w.intrRestore_eq flag
  obtain rfl := Option.some.inj hbody
  rw [hrestore]
  by_cases hne : v.current = init
  · -- `init` has no children, or it would not get here
    have hloop' : v.adoptChildren v.current (v.nrProcess.toNat + 1) = some w := hne ▸ hloop
    cases hc : (v.task v.current).cptr with
    | none =>
      rw [Sched.adoptChildren, hc] at hloop'
      obtain rfl := Option.some.inj hloop'
      exact ⟨children, hv.siblings⟩
    | some c =>
      rw [adoptChildren_self hc (hv.table.waits _ hv.table.current)] at hloop'
      exact absurd hloop' (by simp)
  · obtain ⟨w', children', hall, hsib⟩ := hv.adoptChildren hne
    have hloop' : v.adoptChildren init (v.nrProcess.toNat + 1) = some w := hloop
    rw [hall] at hloop'
    split_ifs at hloop'
    obtain rfl := Option.some.inj hloop'
    exact ⟨children', hsib⟩

theorem exec {op : SchedOp} (h : s.Reared ram procs children init) (hok : s.Callable op)
    (heq : s.exec op = some t) : ∃ procs' children', t.Reared ram procs' children' init := by
  rcases h.table.exec_kin hok heq with ⟨_, _, _, proc, kst, -, hf⟩ | ⟨code, -, hdo⟩ |
    ⟨ht, -, hinit, hkin⟩
  · exact ⟨_, _, h.forked hf⟩
  · obtain ⟨children', ht⟩ := h.doExit hdo
    exact ⟨procs, children', ht⟩
  · exact ⟨procs, children, h.same ht hinit hkin⟩

theorem run (h : s.Reared ram procs children init) (hr : Run Sched.exec Callable s t) :
    ∃ procs' children', t.Reared ram procs' children' init := by
  refine hr.invariant (I := fun t => ∃ procs' children', t.Reared ram procs' children' init)
    ⟨procs, children, h⟩ ?_
  rintro u op v ⟨procs', children', hu⟩ hok heq
  exact hu.exec hok heq

end Reared

theorem Started.reared (h : s.Started ram) :
    ∃ procs children init, s.Reared ram procs children init := by
  obtain ⟨procs, children, init, h⟩ := h.lineage
  exact ⟨procs, children, init, h.table, h.family.siblings, h.initProc⟩

/-- In every run, `do_exit` gets to its loop with the interrupts off, and the loop of a process that
has children ends after a turn for each of them if and only if the process is not `init`. -/
theorem adoptsIn_iff (h : s.Started ram) (hr : Run Sched.exec Callable s t) :
    ∃ procs children init, t.link.Ring .procList (procs.map .listLink) ∧ t.current ∈ procs ∧
      t.task.kin.Siblings procs children ∧ t.initProc = some init ∧
      ∀ code, ∃ flag u, t.beforeAdoption code = some (flag, u) ∧ ¬ u.IfSet ∧
        (children t.current ≠ [] →
          (u.AdoptsIn init (children t.current).length ↔ t.current ≠ init)) := by
  obtain ⟨procs₀, children₀, init, h₀⟩ := h.reared
  obtain ⟨procs, children, ht⟩ := h₀.run hr
  refine ⟨procs, children, init, ht.table.roster, ht.table.current, ht.siblings, ht.initProc,
    fun code => ?_⟩
  obtain ⟨flag, u, hbefore, hoff, hcur, hu⟩ := ht.beforeAdoption code
  refine ⟨flag, u, hbefore, hoff, fun hchildren => ?_⟩
  rw [← hcur] at hchildren ⊢
  constructor
  · rintro hends rfl
    obtain ⟨c, cs, hcs⟩ := List.exists_cons_of_ne_nil hchildren
    have hchain := hu.siblings.chain _ hu.table.current
    rw [hcs] at hchain
    have hnone := adoptChildren_self (s := u) hchain.1 (hu.table.waits _ hu.table.current)
      ((children u.current).length + 1)
    have hsome := (hends ((children u.current).length + 1)).mpr (Nat.lt_succ_self _)
    rw [hnone] at hsome
    exact absurd hsome (by decide)
  · intro hne k
    obtain ⟨w, -, hall, -⟩ := hu.adoptChildren hne
    rw [hall]
    split_ifs with hk
    · exact iff_of_true rfl hk
    · exact iff_of_false (by simp) hk

/-- A child of `init` has two children, and exits. -/
theorem adoptsIn_iff_two : ∃ s t flag u, sampleInit 12 = some s ∧
    [.schedule, forkOp, .schedule, forkOp, forkOp].foldlM exec s = some t ∧
    t.beforeAdoption 0 = some (flag, u) ∧ u.AdoptsIn 5 2 := by
  have hsome : ((sampleInit 12).bind fun s =>
      ([.schedule, forkOp, .schedule, forkOp, forkOp].foldlM exec s).map fun t =>
        (t.current, [t.initProc, t.task.kin.cptr 7, t.task.kin.yptr 11, t.task.kin.optr 11,
          t.task.kin.yptr 9, t.task.kin.optr 9])) =
            some (7, [some 5, some 11, none, some 9, some 11, none]) := by
    decide +kernel
  obtain ⟨s, hs, hsome⟩ := Option.bind_eq_some_iff.mp hsome
  obtain ⟨t, ht, hfields⟩ := Option.map_eq_some_iff.mp hsome
  simp only [Prod.mk.injEq, List.cons.injEq] at hfields
  obtain ⟨hcur, hinit, hcptr, hyptr, hoptr, hyptr', hoptr', -⟩ := hfields
  have hallowed : Allowed exec Callable [.schedule, forkOp, .schedule, forkOp, forkOp] s :=
    ⟨trivial, fun _ _ => ⟨trivial, fun _ _ => ⟨trivial, fun _ _ => ⟨trivial, fun _ _ =>
      ⟨trivial, fun _ _ => trivial⟩⟩⟩⟩⟩
  obtain ⟨procs, children, init, -, hmem, hsib, hinit', hall⟩ :=
    adoptsIn_iff (sampleInit_started (by decide) (by decide) hs) (Run.of_foldlM hallowed ht)
  obtain rfl := Option.some.inj (hinit.symm.trans hinit')
  have hlist : t.task.kin.Chain none (t.task.kin.cptr 7) [11, 9] := by
    simp [hcptr, hyptr, hoptr, hyptr', hoptr']
  have hchildren : children 7 = [11, 9] := (hsib.chain 7 (hcur ▸ hmem)).unique hlist
  obtain ⟨flag, u, hbefore, -, hiff⟩ := hall 0
  rw [hcur, hchildren] at hiff
  exact ⟨s, t, flag, u, hs, ht, hbefore, (hiff (by simp)).mpr (by decide)⟩

/-- `init` has one child, and exits: the loop gives the child to `init` for ever. -/
theorem init_adopts_own : ∃ s t flag u, sampleInit 8 = some s ∧
    [.schedule, forkOp].foldlM exec s = some t ∧ t.current = 5 ∧ t.initProc = some 5 ∧
    t.idleProc = 4 ∧ t.task.kin.Chain none (t.task.kin.cptr 5) [7] ∧
    t.beforeAdoption 0 = some (flag, u) ∧ ¬ u.AdoptsIn 5 1 ∧ ∀ k, u.adoptChildren 5 k = none := by
  have hsome : ((sampleInit 8).bind fun s =>
      ([.schedule, forkOp].foldlM exec s).bind fun t =>
        (t.beforeAdoption 0).map fun r =>
          ([t.current, t.idleProc, r.2.current], [t.initProc, t.task.kin.cptr 5,
            t.task.kin.yptr 7, t.task.kin.optr 7, (r.2.task 5).cptr], (r.2.task 5).waitState)) =
              some ([5, 4, 5], [some 5, some 7, none, none, some 7], 0#32) := by
    decide +kernel
  obtain ⟨s, hs, hsome⟩ := Option.bind_eq_some_iff.mp hsome
  obtain ⟨t, ht, hsome⟩ := Option.bind_eq_some_iff.mp hsome
  obtain ⟨⟨flag, u⟩, hbefore, hfields⟩ := Option.map_eq_some_iff.mp hsome
  simp only [Prod.mk.injEq, List.cons.injEq] at hfields
  obtain ⟨⟨hcur, hidle, hcur', -⟩, ⟨hinit, hcptr, hyptr, hoptr, hcptr', -⟩, hwait⟩ := hfields
  have hnone : ∀ k, u.adoptChildren 5 k = none := by
    rw [← hcur'] at hcptr' hwait ⊢
    exact adoptChildren_self hcptr' hwait
  refine ⟨s, t, flag, u, hs, ht, hcur, hinit, hidle, ?_, hbefore, fun hends => ?_, hnone⟩
  · simp [hcptr, hyptr, hoptr]
  · have hsome := (hends 2).mpr (by decide)
    rw [hnone] at hsome
    exact absurd hsome (by decide)

end Sched
end Zonix
