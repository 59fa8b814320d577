import Zonix.Sched.Adoption

/-!
# `do_fork` when memory runs out

Neither the result of `alloc_proc` nor that of `setup_kstack` is looked at. With a page for each of
them the child is everywhere where it should be; without, `do_fork` writes through `NULL`, or below
a stack at 0, and so it never gets as far as returning a negative value.
-/

namespace Zonix
open Lib

namespace Sched

variable {s t : Sched} {ram : Set ℕ} {procs : List ℕ} {children : ℕ → List ℕ} {pid : ℤ}
  {cloneFlags stack : Word} {tf : TrapFrame}

/-- `proc` is the child that `do_fork` returned the pid of, with the kernel stack `kst`. -/
structure Born (s : Sched) (children : ℕ → List ℕ) (pid : ℤ) (t : Sched) (proc kst : ℕ) : Prop where
  positive : 0 < pid
  number : (t.task proc).pid = pid
  state : (t.task proc).state = .runnable
  task : page2kva proc ≠ 0#32
  kstack : (t.task proc).kstack = page2kva kst ∧ page2kva kst ≠ 0#32
  fresh : kst ∈ s.vm.pmm.freePages ∧ kst ∉ t.vm.pmm.freePages
  apart : kst ≠ proc
  found : t.findProc pid = some (some proc)
  listed : t.link.OnList .procList (.listLink proc)
  parent : t.task.kin.parent proc = some s.current
  siblings : t.task.kin.Chain none (t.task.kin.cptr s.current) (proc :: children s.current)

/-- Nothing happened. -/
structure Unborn (s t : Sched) : Prop where
  link : t.link = s.link
  kin : t.task.kin = s.task.kin
  nrProcess : t.nrProcess = s.nrProcess
  nrFree : t.vm.pmm.nrFree = s.vm.pmm.nrFree

/-- `do_fork` returns the pid of a child, or it returns a negative value and nothing happened. -/
def ForksOrNot (s : Sched) (children : ℕ → List ℕ) (cloneFlags stack : Word) (tf : TrapFrame) :
    Prop :=
  ∃ pid t, s.doFork cloneFlags stack tf = some (pid, t) ∧
    ((∃ proc kst, s.Born children pid t proc kst) ∨ (pid < 0 ∧ s.Unborn t))

/-- `kmalloc` and `alloc_page`, one after the other, do not return `NULL`. -/
def TwoPages (s : Sched) : Prop :=
  ∃ proc pmm kst pmm', s.vm.pmm.alloc 1 = some (some proc, pmm) ∧ page2kva proc ≠ 0#32 ∧
    pmm.alloc 1 = some (some kst, pmm') ∧ page2kva kst ≠ 0#32

section Forked
variable {proc kst : ℕ}

theorem Forked.kstack (h : s.Forked stack tf proc kst t) :
    (t.task proc).kstack = page2kva kst := by
  have hkstack : (t.task proc).core.kstack = page2kva kst := by
    rw [h.child]
    rfl
  exact hkstack

theorem Table.nextPid_pos (h : s.Table ram procs) : 0 < s.nextPid := by
  have hlen := List.length_pos_of_mem h.current
  have hnext := h.nextPid
  omega

theorem Forked.findProc (h : s.Forked stack tf proc kst t) (ht : s.Table ram procs) :
    t.findProc s.nextPid = some (some proc) := by
  have htable := ht.forked h
  rw [htable.findProc_eq ht.nextPid_pos, ← h.child_pid]
  exact congrArg some (htable.find?_pid List.mem_cons_self)

/-- The child is everywhere where it should be. -/
theorem Forked.born (h : s.Forked stack tf proc kst t) (ht : s.Table ram procs)
    (hsib : s.task.kin.Siblings procs children) (hne : kst ≠ proc) (hproc : page2kva proc ≠ 0#32)
    (hkst : page2kva kst ≠ 0#32) : s.Born children s.nextPid t proc kst := by
  have htable := ht.forked h
  have hsib' := hsib.push ht.current (ht.new h)
  rw [← h.kin] at hsib'
  refine ⟨ht.nextPid_pos, h.child_pid, h.child_state, hproc, ⟨h.kstack, hkst⟩, ⟨h.kstFree, ?_⟩,
    hne, h.findProc ht, htable.mem_iff.mpr List.mem_cons_self, ?_, ?_⟩
  · rw [h.freePages]
    simp
  · rw [h.kin]
    exact Function.update_self ..
  · have hchain := hsib'.chain s.current (List.mem_cons_of_mem proc ht.current)
    rwa [Kin.pushed_self] at hchain

end Forked

/-- Where no frame has the kernel address 0, two free pages are enough. -/
theorem twoPages_iff (h : ∃ bs, s.vm.pmm.Inv ram bs) (hkva : ∀ p ∈ ram, page2kva p ≠ 0#32) :
    s.TwoPages ↔ s.vm.pmm.freePages.Nontrivial := by
  obtain ⟨bs, hinv⟩ := h
  constructor
  · rintro ⟨proc, pmm, kst, pmm', hall, -, hall', -⟩
    have hp := hinv.takes_of_alloc le_rfl hall
    obtain ⟨bs', hinv'⟩ := hp.inv ram bs hinv
    have hkst := (hinv'.takes_of_alloc le_rfl hall').one.1
    rw [hp.one.2] at hkst
    exact ⟨kst, hkst.1, proc, hp.one.1, hkst.2⟩
  · intro htwo
    rcases hinv.alloc_cases le_rfl with ⟨-, hnone⟩ | ⟨proc, pmm, hall, hp⟩
    · exact absurd (hnone rfl) htwo.nonempty.ne_empty
    obtain ⟨bs', hinv'⟩ := hp.inv ram bs hinv
    rcases hinv'.alloc_cases le_rfl with ⟨-, hnone⟩ | ⟨kst, pmm', hall', hp'⟩
    · -- the first page was not the only one
      obtain ⟨q, hq, hne⟩ := htwo.exists_ne proc
      have hleft : q ∈ pmm.freePages := by
        rw [hp.one.2]
        exact ⟨hq, hne⟩
      rw [hnone rfl] at hleft
      exact absurd hleft (Set.notMem_empty q)
    · exact ⟨proc, pmm, kst, pmm', hall, hkva proc (hinv.mem_ram hp.one.1), hall',
        hkva kst (hinv'.mem_ram hp'.one.1)⟩

/-- In every table of processes and for every allocator: `do_fork` is all or nothing if and only if
there is a page for the task, and then one for its stack. -/
theorem forksOrNot_iff (h : s.Table ram procs) (hsib : s.task.kin.Siblings procs children) :
    s.ForksOrNot children cloneFlags stack tf ↔ s.TwoPages := by
  obtain ⟨bs, hinv⟩ := h.free
  have hcur := h.notFree _ h.current
  constructor
  · rintro ⟨pid, t, heq, hresult⟩
    rw [doFork, Option.bind_eq_bind, Option.bind_eq_some_iff] at heq
    obtain ⟨⟨proc, u⟩, hchild, heq⟩ := heq
    obtain ⟨kst, pmm, pmm', hall, hp, hall', hp', hkst, rfl⟩ := forkChild_spec hinv hcur hchild
    obtain ⟨v, hlist, hf⟩ := enlist_forked stack tf hcur hp hp'
    obtain ⟨rfl, rfl⟩ := Prod.mk.inj (Option.some.inj (hlist.symm.trans heq))
    refine ⟨proc, pmm, kst, pmm', hall, ?_, hall', hkst⟩
    rcases hresult with ⟨proc', kst', hborn⟩ | ⟨hneg, -⟩
    · obtain rfl := Option.some.inj (Option.some.inj ((hf.findProc h).symm.trans hborn.found))
      exact hborn.task
    · have hpos := h.nextPid_pos
      omega
  · rintro ⟨proc, pmm, kst, pmm', hall, hproc, hall', hkst⟩
    have hp := hinv.takes_of_alloc le_rfl hall
    obtain ⟨bs', hinv'⟩ := hp.inv ram bs hinv
    have hp' := hinv'.takes_of_alloc le_rfl hall'
    obtain ⟨t, hlist, hf⟩ := enlist_forked stack tf hcur hp hp'
    have hne : s.current ≠ proc := fun hc => hcur (hc ▸ hf.wasFree)
    refine ⟨s.nextPid, t, ?_, Or.inl ⟨proc, kst, hf.born h hsib (hp.apart hp') hproc hkst⟩⟩
    rw [doFork, forkChild_of_alloc hne hall hall', if_neg hkst]
    exact hlist

/-- The pages 7 and 8 are free. -/
theorem forksOrNot_iff_five : ∃ s children, sampleInit 5 = some s ∧
    s.ForksOrNot children 0#32 0#32 (initFrame 0#32) := by
  have hsome : ((sampleInit 5).bind fun s => (s.vm.pmm.alloc 1).bind fun r =>
      (r.2.alloc 1).map fun r' => (r.1, r'.1)) = some (some 7, some 8) := by
    decide +kernel
  obtain ⟨s, hs, hsome⟩ := Option.bind_eq_some_iff.mp hsome
  obtain ⟨⟨proc, pmm⟩, hall, hsome⟩ := Option.bind_eq_some_iff.mp hsome
  obtain ⟨⟨kst, pmm'⟩, hall', hpages⟩ := Option.map_eq_some_iff.mp hsome
  obtain ⟨rfl, rfl⟩ := Prod.mk.inj hpages
  obtain ⟨procs, children, init, h⟩ :=
    (sampleInit_started (by decide) (by decide) hs).reared
  have htwo : s.TwoPages := ⟨7, pmm, 8, pmm', hall, by decide, hall', by decide⟩
  exact ⟨s, children, hs, (forksOrNot_iff h.table h.siblings).mpr htwo⟩

/-- With no page left the task is `NULL`, and with one page left the stack is at 0. -/
theorem doFork_uses_null :
    (∃ s t, sampleInit 3 = some s ∧ s.allocProc = some (none, t) ∧
      ∀ children, ¬ s.ForksOrNot children 0#32 0#32 (initFrame 0#32)) ∧
    ∃ s t u, sampleInit 4 = some s ∧ s.allocProc = some (some 7, t) ∧
      (t.setParent 7 (some t.current)).setupKstack 7 = some (-1, u) ∧
      (u.task 7).kstack = 0#32 ∧
      ∀ children, ¬ s.ForksOrNot children 0#32 0#32 (initFrame 0#32) := by
  have hno : ∀ s : Sched, (s.doFork 0#32 0#32 (initFrame 0#32)).isNone →
      ∀ children, ¬ s.ForksOrNot children 0#32 0#32 (initFrame 0#32) := by
    rintro s hnone children ⟨pid, t, heq, -⟩
    rw [heq] at hnone
    exact absurd hnone (by simp)
  constructor
  · have hsome : ((sampleInit 3).bind fun s => s.allocProc.map fun r =>
        (r.1, (s.doFork 0#32 0#32 (initFrame 0#32)).isNone)) = some (none, true) := by
      decide +kernel
    obtain ⟨s, hs, hsome⟩ := Option.bind_eq_some_iff.mp hsome
    obtain ⟨⟨proc, t⟩, halloc, hfields⟩ := Option.map_eq_some_iff.mp hsome
    obtain ⟨rfl, hnone⟩ := Prod.mk.inj hfields
    exact ⟨s, t, hs, halloc, hno s hnone⟩
  · have hsome : ((sampleInit 4).bind fun s => s.allocProc.bind fun r =>
        ((r.2.setParent 7 (some r.2.current)).setupKstack 7).map fun q =>
          (r.1, q.1, (q.2.task 7).kstack, (s.doFork 0#32 0#32 (initFrame 0#32)).isNone)) =
            some (some 7, -1, 0#32, true) := by
      decide +kernel
    obtain ⟨s, hs, hsome⟩ := Option.bind_eq_some_iff.mp hsome
    obtain ⟨⟨proc, t⟩, halloc, hsome⟩ := Option.bind_eq_some_iff.mp hsome
    obtain ⟨⟨r, u⟩, hsetup, hfields⟩ := Option.map_eq_some_iff.mp hsome
    simp only [Prod.mk.injEq] at hfields
    obtain ⟨rfl, rfl, hkstack, hnone⟩ := hfields
    exact ⟨s, t, u, hs, halloc, hsetup, hkstack, hno s hnone⟩

end Sched
end Zonix
