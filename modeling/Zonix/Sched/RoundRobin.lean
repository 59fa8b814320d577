import Zonix.Sched.Scheduling

/-!
# Turns

What `schedule` chooses when it is called again and again. After the first call nothing changes
any more: the process that was chosen is ready, and everything before it on `proc_list` is not.
So the calls take turns only when there is nobody to take turns with.
-/

namespace Zonix
open Lib

namespace Sched

variable {s t u : Sched} {ram : Set ℕ} {procs : List ℕ} {a b p q : ℕ} {i j k m : ℕ}

/-- `schedule()`, `k` times. -/
def scheduleCalls : ℕ → Sched → Option Sched
  | 0, s => some s
  | k + 1, s => do
    let t ← s.scheduleCalls k
    t.schedule

/-- Call number `i`, counted from 1, switches to `a` or keeps it. -/
def Chooses (s : Sched) (i a : ℕ) : Prop := ∃ t, s.scheduleCalls i = some t ∧ t.current = a

/-- In `k` calls of `schedule`, nobody has a second turn while somebody who could run, other than
the idle process, waits for the first. -/
def TakesTurns (s : Sched) (k : ℕ) : Prop :=
  ∀ i j a b, 0 < i → i < j → j ≤ k → s.Chooses i a → s.Chooses j a → a ≠ s.idleProc →
    b ≠ s.idleProc → b ≠ a → s.link.OnList .procList (.listLink b) →
    (∀ m t, i ≤ m → m < j → s.scheduleCalls m = some t → (t.task b).state = .runnable) →
    ∃ m, i < m ∧ m < j ∧ s.Chooses m b

/-- What the calls after the first one find: the same process is current, and the others are
runnable or not as they were. -/
structure Settled (s : Sched) (procs : List ℕ) (t : Sched) : Prop where
  current : t.current = s.choice procs
  choice : t.choice procs = s.choice procs
  state : ∀ p, p ≠ s.choice procs → ((t.task p).state = .runnable ↔ s.Ready p)

theorem Settled.first (hs : s.Scheduled (s.choice procs) t) : s.Settled procs t :=
  ⟨hs.current, hs.choice_eq, fun _ hp => hs.runnable_iff hp⟩

theorem Settled.again (h : s.Settled procs t) (ht : t.Scheduled (t.choice procs) u) :
    s.Settled procs u := by
  refine ⟨ht.current.trans h.choice, ht.choice_eq.trans h.choice, fun p hp => ?_⟩
  have hp' : p ≠ t.choice procs := h.choice ▸ hp
  have hcur : p ≠ t.current := h.current ▸ hp
  rw [ht.runnable_iff hp', Ready, ← h.state p hp]
  simp only [hcur, false_and, or_false]

/-- All calls come back, and all of them choose the same process. -/
theorem Sane.scheduleCalls (h : s.Sane ram procs) (k : ℕ) :
    ∃ t, s.scheduleCalls k = some t ∧ t.Sane ram procs ∧ (0 < k → s.Settled procs t) := by
  induction k with
  | zero => exact ⟨s, rfl, h, fun hk => absurd hk (Nat.lt_irrefl 0)⟩
  | succ k ih =>
    obtain ⟨t, ht, hsane, hsettled⟩ := ih
    obtain ⟨u, hu⟩ := hsane.schedule_isSome
    have hs := hsane.toTable.schedule_spec hu
    refine ⟨u, ?_, hsane.schedule hu, fun _ => ?_⟩
    · rw [Sched.scheduleCalls, ht, Option.bind_eq_bind, Option.bind_some, hu]
    · cases k with
      | zero =>
        obtain rfl := Option.some.inj ht
        exact Settled.first hs
      | succ k => exact (hsettled (Nat.succ_pos k)).again hs

theorem Sane.chooses_iff (h : s.Sane ram procs) (hi : 0 < i) :
    s.Chooses i a ↔ a = s.choice procs := by
  obtain ⟨t, ht, -, hsettled⟩ := h.scheduleCalls i
  have hcur := (hsettled hi).current
  constructor
  · rintro ⟨t', ht', rfl⟩
    obtain rfl := Option.some.inj (ht.symm.trans ht')
    exact hcur
  · rintro rfl
    exact ⟨t, ht, hcur⟩

theorem Sane.runnable_iff (h : s.Sane ram procs) (hm : 0 < m) (ht : s.scheduleCalls m = some t)
    (hb : b ≠ s.choice procs) : (t.task b).state = .runnable ↔ s.Ready b := by
  obtain ⟨t', ht', -, hsettled⟩ := h.scheduleCalls m
  obtain rfl := Option.some.inj (ht.symm.trans ht')
  exact (hsettled hm).state b hb

/-- A ready process other than idle is chosen before the idle process, which is the last. -/
theorem Sane.choice_ne_idle (h : s.Sane ram procs) (hp : p ∈ procs) (hready : s.Ready p)
    (hne : p ≠ s.idleProc) : s.choice procs ≠ s.idleProc := by
  obtain ⟨as, has⟩ := List.getLast?_eq_some_iff.mp h.idleLast
  have hnd := h.nodup
  rw [has] at hp hnd
  have hpas : p ∈ as := by
    rcases List.mem_append.mp hp with hp | hp
    · exact hp
    · exact absurd (List.mem_singleton.mp hp) hne
  have hmem : s.choice (as ++ [s.idleProc]) ∈ as := choice_mem_prefix hpas hready
  rw [← has] at hmem
  intro heq
  rw [heq] at hmem
  exact (List.nodup_append.mp hnd).2.2 _ hmem _ (by simp) rfl

/-- In the calls of `schedule` from a state that any run reaches, the processes take turns if and
only if there is just one call, or at most one process but idle that is ready when they begin. -/
theorem takesTurns_iff (h : s.Started ram) (hr : Run Sched.exec SchedOk s t) (k : ℕ) :
    t.TakesTurns k ↔ k ≤ 1 ∨ ∀ p q, t.link.OnList .procList (.listLink p) →
      t.link.OnList .procList (.listLink q) → p ≠ t.idleProc → q ≠ t.idleProc →
      t.Ready p → t.Ready q → p = q := by
  obtain ⟨procs, ht, -⟩ := h.run_sane hr
  constructor
  · intro hturns
    by_contra hno
    push Not at hno
    obtain ⟨hk, p, q, hp, hq, hpi, hqi, hpr, hqr, hpq⟩ := hno
    have hidle := ht.choice_ne_idle (ht.toTable.mem_iff.mp hp) hpr hpi
    -- one of the two is not the one that is chosen, twice
    obtain ⟨b, hb, hbi, hbr, hbc⟩ : ∃ b, t.link.OnList .procList (.listLink b) ∧
        b ≠ t.idleProc ∧ t.Ready b ∧ b ≠ t.choice procs := by
      by_cases hpc : p = t.choice procs
      · exact ⟨q, hq, hqi, hqr, fun hqc => hpq (hpc.trans hqc.symm)⟩
      · exact ⟨p, hp, hpi, hpr, hpc⟩
    -- every call chooses the same process
    have hfirst := (ht.chooses_iff (i := 1) (by omega)).mpr rfl
    have hsecond := (ht.chooses_iff (i := 2) (by omega)).mpr rfl
    obtain ⟨m, hlt, hgt, -⟩ := hturns 1 2 (t.choice procs) b (by omega) (by omega) (by omega)
      hfirst hsecond hidle hbi hbc hb fun m u hm _ hu => (ht.runnable_iff (by omega) hu hbc).mpr hbr
    omega
  · rintro hcond i j a b hi hij hjk hia - hai hbi hba hb hrun
    obtain rfl := (ht.chooses_iff hi).mp hia
    obtain ⟨u, hu, -⟩ := ht.scheduleCalls i
    have hbr : t.Ready b := (ht.runnable_iff hi hu hba).mp (hrun i u le_rfl hij hu)
    rcases hcond with hk | hone
    · omega
    · -- the one that was chosen is ready as well
      rcases t.choice_cases procs with ⟨har, ha⟩ | ⟨-, hidle⟩
      · exact absurd (hone b _ hb (ht.toTable.mem_iff.mpr ha) hbi hai hbr har) hba
      · exact absurd hidle hai

/-- `init` forks a process. In two calls of `schedule` the new process is chosen twice, and `init`
could run all the time. -/
theorem init_starves : ∃ s t, s.Started (Set.Ico 4 (4 + 12)) ∧ Run Sched.exec SchedOk s t ∧
    t.Chooses 1 7 ∧ t.Chooses 2 7 ∧ t.link.OnList .procList (.listLink 5) ∧
    (∀ u, t.scheduleCalls 1 = some u → (u.task 5).state = .runnable) ∧ ¬ t.TakesTurns 2 := by
  have hsome : ((sampleInit 12).bind fun s => ([.schedule, forkOp].foldlM exec s).bind fun t =>
      t.schedule.bind fun u => u.schedule.map fun v => (t.idleProc, u.current, v.current,
        (u.task 5).state, t.link.next .procList, t.link.next (.listLink 7))) =
          some (4, 7, 7, .runnable, .listLink 7, .listLink 5) := by
    decide +kernel
  obtain ⟨s, hs, hsome⟩ := Option.bind_eq_some_iff.mp hsome
  obtain ⟨t, ht, hsome⟩ := Option.bind_eq_some_iff.mp hsome
  obtain ⟨u, hu, hsome⟩ := Option.bind_eq_some_iff.mp hsome
  obtain ⟨v, hv, hfields⟩ := Option.map_eq_some_iff.mp hsome
  simp only [Prod.mk.injEq] at hfields
  obtain ⟨hidle, hcur, hcur', hstate, hfirst, hsecond⟩ := hfields
  have hallowed : Allowed exec SchedOk [.schedule, forkOp] s :=
    ⟨⟨trivial, by simp⟩, fun _ _ => ⟨⟨trivial, by simp [forkOp]⟩, fun _ _ => trivial⟩⟩
  have hcall : t.scheduleCalls 1 = some u := hu
  have hcall' : t.scheduleCalls 2 = some v := by
    rw [scheduleCalls, hcall, Option.bind_eq_bind, Option.bind_some, hv]
  have hlisted : t.link.OnList .procList (.listLink 5) := by
    have hseven : t.link.OnList .procList (.listLink 7) :=
      hfirst ▸ Links.OnList.first (by rw [hfirst]; decide)
    exact hsecond ▸ hseven.step (by rw [hsecond]; decide)
  have hrunnable : ∀ w, t.scheduleCalls 1 = some w → (w.task 5).state = .runnable := by
    intro w hw
    obtain rfl := Option.some.inj (hcall.symm.trans hw)
    exact hstate
  refine ⟨s, t, sampleInit_started (by decide) (by decide) hs, Run.of_foldlM hallowed ht,
    ⟨u, hcall, hcur⟩, ⟨v, hcall', hcur'⟩, hlisted, hrunnable, fun hturns => ?_⟩
  obtain ⟨m, hlt, hgt, -⟩ := hturns 1 2 7 5 (by omega) (by omega) (by omega) ⟨u, hcall, hcur⟩
    ⟨v, hcall', hcur'⟩ (by rw [hidle]; decide) (by rw [hidle]; decide) (by decide) hlisted
    fun m w hm hm' hw => hrunnable w ((show m = 1 by omega) ▸ hw)
  omega

/-- Right after `sched_init` there is only `init` to be chosen. -/
theorem takesTurns_sample : ∃ s, sampleInit 12 = some s ∧ ∀ k, s.TakesTurns k := by
  have hsome : (sampleInit 12).map (fun s => (s.idleProc, s.link.next .procList,
      s.link.next (.listLink 5), s.link.next (.listLink 4))) =
        some (4, .listLink 5, .listLink 4, .procList) := by
    decide +kernel
  obtain ⟨s, hs, hfields⟩ := Option.map_eq_some_iff.mp hsome
  simp only [Prod.mk.injEq] at hfields
  obtain ⟨hidle, hfirst, hsecond, hlast⟩ := hfields
  -- the walk along `proc_list` meets `init` and the idle process
  have hwalk : ∀ e, s.link.OnList .procList e → e = .listLink 5 ∨ e = .listLink 4 := by
    intro e he
    induction he with
    | first hne => exact Or.inl hfirst
    | step _ hne ih =>
      rcases ih with rfl | rfl
      · exact Or.inr hsecond
      · exact absurd hlast hne
  have hinit : ∀ p, s.link.OnList .procList (.listLink p) → p ≠ s.idleProc → p = 5 := by
    intro p hp hne
    rcases hwalk _ hp with heq | heq
    · exact SchedEntry.listLink.inj heq
    · exact absurd (SchedEntry.listLink.inj heq) (hidle ▸ hne)
  have hstarted : s.Started (Set.Ico 4 (4 + 12)) := sampleInit_started (by decide) (by decide) hs
  refine ⟨s, hs, fun k => (takesTurns_iff hstarted (Run.refl s) k).mpr (Or.inr ?_)⟩
  intro p q hp hq hpi hqi _ _
  rw [hinit p hp hpi, hinit q hq hqi]

end Sched
end Zonix
