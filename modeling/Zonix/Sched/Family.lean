import Zonix.Sched.Table

/-!
# The tree of the processes

`Tree` says that the family pointers of the processes on `proc_list` are a family of the
library, with the idle process at the root. `do_fork` pushes a child onto it, `do_exit` gives
children away one by one, and `remove_links` takes out a process that has none. `init` stays a
child of the idle process, so it is never below the process that exits.
-/

namespace Zonix
open Lib

namespace Sched

variable {s t u v : Sched} {ram : Set ℕ} {procs : List ℕ} {children : ℕ → List ℕ}
  {proc p q init : ℕ}

/-- The processes on `proc_list` are a family; `children` lists the children of each, the
youngest first. -/
structure Tree (s : Sched) (procs : List ℕ) (children : ℕ → List ℕ) : Prop where
  roster : s.link.Ring .procList (procs.map .listLink)
  family : s.task.kin.Family procs s.idleProc children

namespace Tree

theorem nodup (h : s.Tree procs children) : procs.Nodup :=
  List.Nodup.of_map _ h.roster.nodup_entries

theorem congr (h : s.Tree procs children) (hlink : t.link = s.link)
    (hidle : t.idleProc = s.idleProc) (hkin : t.task.kin = s.task.kin) :
    t.Tree procs children := by
  constructor
  · rw [hlink]
    exact h.roster
  · rw [hidle, hkin]
    exact h.family

/-- The root has no parent, and everybody else has one. -/
theorem exists_parent (h : s.Tree procs children) (hp : p ∈ procs) (hne : p ≠ s.idleProc) :
    ∃ q, s.task.kin.parent p = some q := by
  rcases Relation.ReflTransGen.cases_head (h.family.descends p hp) with heq | ⟨q, hq, -⟩
  · exact absurd heq hne
  · exact ⟨q, hq⟩

theorem length_children_le (h : s.Tree procs children) (hp : p ∈ procs) :
    (children p).length ≤ procs.length := by
  have hsub : children p ⊆ procs := fun c hc => ((h.family.mem p hp c).mp hc).1
  exact (List.Nodup.subperm (h.family.nodup p hp) hsub).length_le

/-- `remove_links` of a process without children. -/
theorem removeLinks (h : s.Tree procs children) (hp : p ∈ procs) (hne : p ≠ s.idleProc)
    (hnil : children p = []) : ∃ t, s.removeLinks p = some t ∧
      t.Tree (procs.erase p) (fun q => (children q).erase p) ∧
      t.nrProcess = s.nrProcess - 1 ∧ ∀ r, (t.task r).core = (s.task r).core := by
  obtain ⟨g, hg⟩ := h.exists_parent hp hne
  obtain ⟨task, hunlink, hkin, hcore⟩ := Tasks.unlink_spec hg
  refine ⟨{ s with
    link := listDel s.link (.listLink p), task := task, nrProcess := s.nrProcess - 1 },
    by rw [Sched.removeLinks, hunlink]; rfl, ⟨?_, ?_⟩, rfl, hcore⟩
  · exact listDel_erase_map (fun _ _ => SchedEntry.listLink.inj) h.roster hp
  · show task.kin.Family _ _ _
    rw [hkin]
    exact h.family.remove h.nodup hp hg hnil

end Tree

/-! ## What every run keeps -/

/-- The processes are a tree, in which `init` is a child of the idle process. -/
structure Lineage (s : Sched) (ram : Set ℕ) (procs : List ℕ) (children : ℕ → List ℕ)
    (init : ℕ) : Prop where
  table : s.Table ram procs
  family : s.task.kin.Family procs s.idleProc children
  initProc : s.initProc = some init
  initParent : s.task.kin.parent init = some s.idleProc

namespace Lineage

theorem tree (h : s.Lineage ram procs children init) : s.Tree procs children :=
  ⟨h.table.roster, h.family⟩

theorem init_mem (h : s.Lineage ram procs children init) : init ∈ procs :=
  h.table.initProc init h.initProc

theorem init_child (h : s.Lineage ram procs children init) : init ∈ children s.idleProc :=
  (h.family.mem _ h.table.idleProc init).mpr ⟨h.init_mem, h.initParent⟩

theorem init_ne_idle (h : s.Lineage ram procs children init) : init ≠ s.idleProc := by
  intro heq
  have htop := h.family.top
  rw [← heq, h.initParent] at htop
  exact absurd htop (by simp)

/-- Only the idle process is above `init`. -/
theorem not_descends (h : s.Lineage ram procs children init) (hidle : p ≠ s.idleProc)
    (hinit : p ≠ init) : ¬ s.task.kin.Descends init p := by
  intro hd
  rcases Relation.ReflTransGen.cases_head hd with heq | ⟨q, hq, hqp⟩
  · exact hinit heq.symm
  obtain rfl := Option.some.inj (hq.symm.trans h.initParent)
  rcases Relation.ReflTransGen.cases_head hqp with heq | ⟨r, hr, -⟩
  · exact hidle heq.symm
  · have htop := h.family.top
    rw [hr] at htop
    exact absurd htop (by simp)

/-- A step that leaves the pointers alone. -/
theorem same (h : s.Lineage ram procs children init) (ht : t.Table ram procs)
    (hidle : t.idleProc = s.idleProc) (hinit : t.initProc = s.initProc)
    (hkin : t.task.kin = s.task.kin) : t.Lineage ram procs children init := by
  constructor
  · exact ht
  · rw [hidle, hkin]
    exact h.family
  · rw [hinit, h.initProc]
  · rw [hidle, hkin, h.initParent]

theorem forked {stack : Word} {tf : TrapFrame} {kst : ℕ} (h : s.Lineage ram procs children init)
    (hf : s.Forked stack tf proc kst t) :
    t.Lineage ram (proc :: procs) (Kin.pushed children s.current proc) init := by
  have hnew := h.table.new hf
  have hne : init ≠ proc := fun heq => hnew (heq ▸ h.init_mem)
  constructor
  · exact h.table.forked hf
  · rw [hf.kin, hf.idleProc]
    exact h.family.push h.table.current hnew
  · rw [hf.initProc, h.initProc]
  · rw [hf.kin, hf.idleProc, ← h.initParent]
    exact Function.update_of_ne hne ..

theorem schedule (h : s.Lineage ram procs children init) (heq : s.schedule = some t) :
    t.Lineage ram procs children init := by
  have hs := h.table.schedule_spec heq
  exact h.same (h.table.schedule heq) hs.idleProc hs.initProc hs.kin

/-- `do_exit` before it calls `schedule`: the children of `current` are children of `init`. -/
theorem exitBody (h : s.Lineage ram procs children init) (hidle : s.current ≠ s.idleProc)
    (hinit : s.current ≠ init) (code : ℤ) : ∃ t children', s.exitBody code = some t ∧
      t.Lineage ram procs children' init ∧ children' s.current = [] ∧
      ∀ c ∈ children s.current, c ∈ children' init := by
  have hk := h.tree.length_children_le h.table.current
  have hcount : ((children s.current).length : ℤ) ≤ s.nrProcess := by
    rw [h.table.nrProcess]
    omega
  obtain ⟨t, children', heq, hfam, hnil, hlist, hothers⟩ :=
    exitBody_family h.table.noWaiter h.family h.table.current h.initProc h.init_mem
      (h.not_descends hidle hinit) hcount code
  obtain ⟨he, htable⟩ := h.table.exitBody heq
  have hsame := he.sameTable
  refine ⟨t, children', heq, ⟨htable, ?_, hsame.initProc.trans h.initProc, ?_⟩, hnil, ?_⟩
  · rw [hsame.idleProc]
    exact hfam
  · -- the idle process keeps its children, `init` among them
    have hchild := h.init_child
    rw [← hothers s.idleProc (Ne.symm hidle) (Ne.symm h.init_ne_idle)] at hchild
    rw [hsame.idleProc]
    exact ((hfam.mem _ h.table.idleProc init).mp hchild).2
  · intro c hc
    rw [hlist]
    exact List.mem_append_left _ (List.mem_reverse.mpr hc)

end Lineage

/-! ## Runs -/

/-- `do_exit` is called by a process other than idle and `init`. -/
def FamilyOk (s : Sched) (op : SchedOp) : Prop :=
  s.Callable op ∧ ∀ code, op = .exit code → s.current ≠ s.idleProc ∧ s.initProc ≠ some s.current

namespace Lineage

theorem doExit {code : ℤ} (h : s.Lineage ram procs children init)
    (hidle : s.current ≠ s.idleProc) (hinit : s.current ≠ init)
    (heq : s.doExit code = some t) : ∃ children', t.Lineage ram procs children' init ∧
      children' s.current = [] ∧ ∀ c ∈ children s.current, c ∈ children' init := by
  obtain ⟨u, hbody, hsched, -⟩ := doExit_eq_some heq
  obtain ⟨u', children', hbody', hu, hnil, hmoved⟩ := h.exitBody hidle hinit code
  obtain rfl := Option.some.inj (hbody.symm.trans hbody')
  exact ⟨children', hu.schedule hsched, hnil, hmoved⟩

theorem exec {op : SchedOp} (h : s.Lineage ram procs children init) (hok : s.FamilyOk op)
    (heq : s.exec op = some t) : ∃ procs' children', t.Lineage ram procs' children' init := by
  obtain ⟨hcall, hexit⟩ := hok
  rcases h.table.exec_kin hcall heq with ⟨_, _, _, proc, kst, -, hf⟩ | ⟨code, rfl, hdo⟩ |
    ⟨ht, hidle, hinit, hkin⟩
  · exact ⟨_, _, h.forked hf⟩
  · obtain ⟨hidle, hinit⟩ := hexit code rfl
    have hne : s.current ≠ init := fun hc => hinit (hc ▸ h.initProc)
    obtain ⟨children', ht, -⟩ := h.doExit hidle hne hdo
    exact ⟨procs, children', ht⟩
  · exact ⟨procs, children, h.same ht hidle hinit hkin⟩

theorem run (h : s.Lineage ram procs children init) (hr : Run Sched.exec FamilyOk s t) :
    ∃ procs' children', t.Lineage ram procs' children' init := by
  refine hr.invariant (I := fun t => ∃ procs' children', t.Lineage ram procs' children' init)
    ⟨procs, children, h⟩ ?_
  rintro u op v ⟨procs', children', hu⟩ hok heq
  exact hu.exec hok heq

end Lineage

/-- The idle process alone is a family. -/
theorem IdleOnly.family {userStack : Word} (h : s.IdleOnly proc userStack) :
    s.task.kin.Family [proc] proc fun _ => [] := by
  obtain ⟨task, htask⟩ := h.task
  have hparent : s.task.kin.parent proc = none := congrArg TaskStruct.parent htask
  have hcptr : s.task.kin.cptr proc = none := congrArg TaskStruct.cptr htask
  refine ⟨⟨fun c hc p hp => ?_, hparent, fun p hp => ?_⟩, ⟨fun p _ => List.nodup_nil,
    fun p _ c => ?_⟩, fun p hp => ?_⟩
  · rw [List.mem_singleton.mp hc, hparent] at hp
    exact absurd hp (by simp)
  · rw [List.mem_singleton.mp hp]
    exact Kin.Descends.refl _ proc
  · refine iff_of_false List.not_mem_nil ?_
    rintro ⟨hc, hp⟩
    rw [List.mem_singleton.mp hc, hparent] at hp
    exact absurd hp (by simp)
  · rw [List.mem_singleton.mp hp]
    exact hcptr

theorem Started.lineage (h : s.Started ram) :
    ∃ procs children init, s.Lineage ram procs children init := by
  obtain ⟨-, u, v, idle, init, kst, userStack, initMain, ho, hu, hf, rfl, htable⟩ := h.cases
  have hnew := hu.new hf
  have hfam := ho.family.push (List.mem_singleton_self idle) hnew
  refine ⟨[init, idle], Kin.pushed (fun _ => []) idle init, init, htable, ?_, rfl, ?_⟩
  · show v.task.kin.Family _ v.idleProc _
    rw [hf.kin, hf.idleProc, ho.current, ho.idleProc]
    exact hfam
  · show v.task.kin.parent init = some v.idleProc
    rw [hf.kin, hf.idleProc, ho.current, ho.idleProc]
    exact Function.update_self ..

/-- After any calls: the pointers are a tree without a circle; `do_exit` gets as far as
`schedule`, by then `current` has no children and those it had are children of `init`, and so it
is when it switches; the idle process is never without children; and from any tree,
`remove_links` of another process without children comes back with a tree that is short of
exactly this process. -/
theorem processTree (h : s.Started ram) (hr : Run Sched.exec FamilyOk s t) :
    ∃ procs children, t.Tree procs children ∧
      (∀ p ∈ procs, ∀ q, t.task.kin.parent p = some q → ¬ t.task.kin.Descends q p) ∧
      (∀ code, t.current ≠ t.idleProc → t.initProc ≠ some t.current →
        ∃ u children' init, t.exitBody code = some u ∧ u.Tree procs children' ∧
          t.initProc = some init ∧ children' t.current = [] ∧
          (∀ c ∈ children t.current, c ∈ children' init) ∧
          ∀ v, t.doExit code = some v → v.Tree procs children') ∧
      children t.idleProc ≠ [] ∧
      ∀ (u : Sched) procs children p, u.Tree procs children → p ∈ procs → p ≠ u.idleProc →
        children p = [] → ∃ v, u.removeLinks p = some v ∧
          v.Tree (procs.erase p) (fun q => (children q).erase p) ∧
          v.nrProcess = u.nrProcess - 1 ∧ ∀ r, (v.task r).core = (u.task r).core := by
  obtain ⟨procs₀, children₀, init, h₀⟩ := h.lineage
  obtain ⟨procs, children, ht⟩ := h₀.run hr
  refine ⟨procs, children, ht.tree, fun p hp q => ht.family.acyclic hp, fun code hidle hinit => ?_,
    List.ne_nil_of_mem ht.init_child, fun u procs children p hu => hu.removeLinks⟩
  have hne : t.current ≠ init := fun hc => hinit (hc ▸ ht.initProc)
  obtain ⟨u, children', hbody, hu, hnil, hmoved⟩ := ht.exitBody hidle hne code
  refine ⟨u, children', init, hbody, hu.tree, ht.initProc, hnil, hmoved, fun v hv => ?_⟩
  obtain ⟨u', hbody', hsched, -⟩ := doExit_eq_some hv
  obtain rfl := Option.some.inj (hbody.symm.trans hbody')
  exact (hu.schedule hsched).tree

/-- `init` has a child which has two, and exits. -/
theorem processTree_sample : ∃ s t u, sampleInit 12 = some s ∧
    [.schedule, forkOp, .schedule, forkOp, forkOp].foldlM exec s = some t ∧
    t.exitBody 0 = some u ∧ ∃ procs children, u.Tree procs children ∧ children 7 = [] := by
  have hsome : ((sampleInit 12).bind fun s =>
      ([.schedule, forkOp, .schedule, forkOp, forkOp].foldlM exec s).map fun t =>
        (t.current, t.idleProc, t.initProc)) = some (7, 4, some 5) := by
    decide +kernel
  obtain ⟨s, hs, hsome⟩ := Option.bind_eq_some_iff.mp hsome
  obtain ⟨t, ht, hfields⟩ := Option.map_eq_some_iff.mp hsome
  simp only [Prod.mk.injEq] at hfields
  obtain ⟨hcur, hidle, hinit⟩ := hfields
  have hallowed : Allowed exec FamilyOk [.schedule, forkOp, .schedule, forkOp, forkOp] s := by
    refine ⟨⟨trivial, ?_⟩, fun _ _ => ⟨⟨trivial, ?_⟩, fun _ _ => ⟨⟨trivial, ?_⟩,
      fun _ _ => ⟨⟨trivial, ?_⟩, fun _ _ => ⟨⟨trivial, ?_⟩, fun _ _ => trivial⟩⟩⟩⟩⟩
    all_goals simp [forkOp]
  obtain ⟨procs, children, -, -, hexit, -⟩ := processTree
    (sampleInit_started (by decide) (by decide) hs) (Run.of_foldlM hallowed ht)
  obtain ⟨u, children', init, hbody, hu, -, hnil, -⟩ :=
    hexit 0 (by rw [hcur, hidle]; decide) (by rw [hcur, hinit]; decide)
  exact ⟨s, t, u, hs, ht, hbody, procs, children', hu, hcur ▸ hnil⟩

end Sched
end Zonix
