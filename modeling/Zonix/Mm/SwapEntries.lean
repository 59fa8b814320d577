import Zonix.Mm.Evictions

/-!
# The entries of swapped-out pages

Slots are handed out by a counter that wraps around, and a `swap_in` returns none. As long as
the counter never arrives at a slot that an entry still names, swapped-out pages hold
different entries, and every slot holds what its page held when it was evicted. What the
pages held is not in the kernel's memory any more: `Traced` remembers it beside the state.
-/

namespace Zonix
open Lib

namespace Vm

/-- The entry is neither empty nor present. -/
def SwappedOut (s : Vm) (pgdir : ℕ) (la : Word) : Prop :=
  s.pteAt pgdir la ≠ 0#32 ∧ ¬ Present (s.pteAt pgdir la)

instance (s : Vm) (pgdir : ℕ) (la : Word) : Decidable (s.SwappedOut pgdir la) :=
  inferInstanceAs (Decidable (_ ∧ _))

/-- The slot that the next eviction is given, if there is one, is named by no entry. -/
def SlotUnused (mm : MmStruct) (s : Vm) : Prop :=
  ∀ v, s.Evicts mm v → ∀ la, s.SwappedOut mm.pgdir la →
    s.pteAt mm.pgdir la ≠ s.swapOffset <<< 8

/-! ## Remembering what was evicted -/

/-- The state, and what each swapped-out page held when it was evicted. -/
structure Traced where
  vm : Vm
  saved : ℕ → ℕ → Word

/-- What the loop of `swap_out` evicts, with `k` iterations to go. -/
def record (mm : MmStruct) : ℕ → Vm → (ℕ → ℕ → Word) → ℕ → ℕ → Word
  | 0, _, saved => saved
  | k + 1, s, saved =>
    match s.swapOutOne mm with
    | some (.evicted v addr, t) => record mm k t (Function.update saved (pagNum addr) (s.mem v))
    | some (.skip, t) => record mm k t saved
    | _ => saved

/-- What is remembered after an operation. -/
def remember (mm : MmStruct) (s : Vm) (saved : ℕ → ℕ → Word) : VmOp → ℕ → ℕ → Word
  | .swapOut n => record mm n.toNat s saved
  | _ => saved

def Traced.exec (mm : MmStruct) (s : Traced) (op : VmOp) : Option Traced :=
  (s.vm.exec mm op).map fun t => ⟨t, remember mm s.vm s.saved op⟩

/-- Every history of the kernel can be remembered. -/
theorem Traced.run {mm : MmStruct} {ok : Vm → VmOp → Prop} {s u : Vm}
    (h : Run (Vm.exec mm) ok s u) (saved : ℕ → ℕ → Word) :
    ∃ saved', Run (Traced.exec mm) (fun t => ok t.vm) ⟨s, saved⟩ ⟨u, saved'⟩ := by
  induction h with
  | refl => exact ⟨saved, .refl _⟩
  | @tail v w _ hstep ih =>
    obtain ⟨saved', hrun⟩ := ih
    obtain ⟨op, hok, heq⟩ := hstep
    refine ⟨remember mm v saved' op, hrun.tail ⟨op, hok, ?_⟩⟩
    simp only [Traced.exec, heq, Option.map_some]

/-! ## The invariant -/

structure Slots (s : Vm) (mm : MmStruct) (dev : IdeDevice) (saved : ℕ → ℕ → Word) : Prop where
  distinct : ∀ la la', s.SwappedOut mm.pgdir la → s.SwappedOut mm.pgdir la' →
    s.pteAt mm.pgdir la = s.pteAt mm.pgdir la' → pagNum la = pagNum la'
  content : ∀ la, s.SwappedOut mm.pgdir la → ∀ w, w < 1024 →
    s.slot dev (slotNum (s.pteAt mm.pgdir la)) w = saved (pagNum la) w
  /-- The entries were made by `swap_out`. -/
  entry : ∀ la, s.SwappedOut mm.pgdir la → ∃ off : Word, s.pteAt mm.pgdir la = off <<< 8

section Slots
variable {s t : Vm} {mm : MmStruct} {ram : Set ℕ} {qs : List ℕ} {dev : IdeDevice}
  {saved : ℕ → ℕ → Word}

/-- Different entries of `swap_out` name different slots. -/
theorem slotNum_inj {off off' : Word} (h : slotNum (off <<< 8) = slotNum (off' <<< 8)) :
    off <<< 8 = off' <<< 8 := by
  rw [slotNum_shiftLeft, slotNum_shiftLeft] at h
  apply BitVec.eq_of_toNat_eq
  rw [BitVec.toNat_shiftLeft, BitVec.toNat_shiftLeft, Nat.shiftLeft_eq, Nat.shiftLeft_eq]
  omega

/-- An entry that `page_insert` makes is present. -/
theorem not_swappedOut_entry {s : Vm} {pgdir : ℕ} {la entry : Word}
    (hpte : s.pteAt pgdir la = entry ||| PTE_P) : ¬ s.SwappedOut pgdir la := by
  intro hout
  rw [SwappedOut, hpte] at hout
  exact hout.2 (present_entry entry)

theorem swappedOut_congr {la : Word} (h : t.pteAt mm.pgdir la = s.pteAt mm.pgdir la) :
    t.SwappedOut mm.pgdir la ↔ s.SwappedOut mm.pgdir la := by
  rw [SwappedOut, SwappedOut, h]

/-- Nothing was swapped out, and no slot was written. -/
theorem Slots.keep (hs : s.Slots mm dev saved)
    (hpte : ∀ la, t.SwappedOut mm.pgdir la → t.pteAt mm.pgdir la = s.pteAt mm.pgdir la)
    (hslot : ∀ n w, w < 1024 → t.slot dev n w = s.slot dev n w) : t.Slots mm dev saved := by
  have hout : ∀ la, t.SwappedOut mm.pgdir la → s.SwappedOut mm.pgdir la := fun la h =>
    (swappedOut_congr (hpte la h)).mp h
  refine ⟨fun la la' h h' heq => ?_, fun la h w hw => ?_, fun la h => ?_⟩
  · rw [hpte la h, hpte la' h'] at heq
    exact hs.distinct la la' (hout la h) (hout la' h') heq
  · rw [hslot _ w hw, hpte la h]
    exact hs.content la (hout la h) w hw
  · rw [hpte la h]
    exact hs.entry la (hout la h)

/-- One page was swapped out, to a slot that no entry named. -/
theorem Slots.evict (hs : s.Slots mm dev saved) {v : ℕ} {addr : Word}
    (hev : Evicted s mm v addr t)
    (hunused : ∀ la, s.SwappedOut mm.pgdir la → s.pteAt mm.pgdir la ≠ s.swapOffset <<< 8)
    (hslot : ∀ n w, w < 1024 → t.slot dev n w =
      if n = slotNum (s.swapOffset <<< 8) then s.mem v w else s.slot dev n w) :
    t.Slots mm dev (Function.update saved (pagNum addr) (s.mem v)) := by
  have hat : ∀ la, pagNum la = pagNum addr → t.pteAt mm.pgdir la = s.swapOffset <<< 8 := by
    intro la h
    rw [hev.pteAt, if_pos h]
  have hother : ∀ la, pagNum la ≠ pagNum addr → t.pteAt mm.pgdir la = s.pteAt mm.pgdir la := by
    intro la h
    rw [hev.pteAt, if_neg h]
  have hout : ∀ la, pagNum la ≠ pagNum addr → t.SwappedOut mm.pgdir la →
      s.SwappedOut mm.pgdir la := fun la hne h => (swappedOut_congr (hother la hne)).mp h
  refine ⟨fun la la' h h' heq => ?_, fun la h w hw => ?_, fun la h => ?_⟩
  · -- an old entry and the new one differ: the slot was unused
    by_cases hla : pagNum la = pagNum addr
    · by_cases hla' : pagNum la' = pagNum addr
      · rw [hla, hla']
      · rw [hat la hla, hother la' hla'] at heq
        exact absurd heq.symm (hunused la' (hout la' hla' h'))
    · by_cases hla' : pagNum la' = pagNum addr
      · rw [hat la' hla', hother la hla] at heq
        exact absurd heq (hunused la (hout la hla h))
      · rw [hother la hla, hother la' hla'] at heq
        exact hs.distinct la la' (hout la hla h) (hout la' hla' h') heq
  · rw [hslot _ w hw]
    by_cases hla : pagNum la = pagNum addr
    · rw [hat la hla, if_pos rfl, hla, Function.update_self]
    · obtain ⟨off, hoff⟩ := hs.entry la (hout la hla h)
      have hne : slotNum (s.pteAt mm.pgdir la) ≠ slotNum (s.swapOffset <<< 8) := by
        intro heq
        rw [hoff] at heq
        exact hunused la (hout la hla h) (hoff.trans (slotNum_inj heq))
      rw [hother la hla, if_neg hne, Function.update_of_ne hla]
      exact hs.content la (hout la hla h) w hw
  · by_cases hla : pagNum la = pagNum addr
    · exact ⟨s.swapOffset, hat la hla⟩
    · rw [hother la hla]
      exact hs.entry la (hout la hla h)

/-! ## Every call keeps it -/

/-- `page_insert` swaps nothing out, in the self-mapping slot neither. -/
theorem PageInsert.pteAt_of_swappedOut (h : s.Space mm ram qs) {page : ℕ} {la perm : Word}
    {res : ℤ} (hins : PageInsert s mm.pgdir page la perm res t) (hv : pdx la ≠ pdx VPT)
    {la' : Word} (hout : t.SwappedOut mm.pgdir la') :
    t.pteAt mm.pgdir la' = s.pteAt mm.pgdir la' := by
  by_cases hv' : pdx la' = pdx VPT
  · have ht := h.pageInsert hins hv
    cases hins with
    | failure => rfl
    | @success table i u hget =>
      have hu := h.getPte hget hv
      have htable := (hget.isTable h.pgdir h.freeLow hv).1
      have hdir := (mapPage_writesEntry u mm.pgdir page la perm table i).directory hu.pgdir htable
      rw [SwappedOut, ht.pteAt_vpt hv'] at hout
      rw [ht.pteAt_vpt hv', h.pteAt_vpt hv']
      simp only [hdir] at hout ⊢
      cases hget with
      | table => rfl
      | created p pmm hno hc htakes =>
        have hmem := newTable_directory la pmm h.pgdir htakes.one.1
          (h.freeLow p htakes.one.1)
        rw [hmem, hmem, if_neg hv.symm] at hout
        rw [hmem, hmem, if_neg hv.symm]
        by_cases hself : Present (s.mem mm.pgdir (pdx VPT))
        · rw [if_pos hself] at hout ⊢
          rw [if_pos hself]
          -- a directory entry that was made is present
          split_ifs at hout with hj
          · exact absurd ((present_or _ _).mpr (Or.inr present_PTE_USER)) hout.2
          · rw [if_neg hj]
        · rw [if_neg hself, if_neg hself]
  · have hpte := hins.pteAt h.pgdir h.freeLow hv hv'
    split_ifs at hpte
    · exact absurd hout (not_swappedOut_entry hpte)
    · exact hpte

theorem slots_of_slotUnused (h : s.Space mm ram qs) (hd : s.Disk dev)
    (hs : s.Slots mm dev saved) {k : ℕ} {i r : ℤ} (heq : swapOutLoop mm k i s = some (r, t))
    (hP : Iterations mm (SlotUnused mm) k s) : t.Slots mm dev (record mm k s saved) := by
  induction k generalizing i s qs saved with
  | zero =>
    obtain ⟨-, rfl⟩ := Prod.mk.inj (Option.some.inj heq)
    exact hs
  | succ k ih =>
    obtain ⟨o, u, hone, -⟩ := swapOutOne_spec h.lists h.head
    obtain ⟨ho, hu⟩ := h.swapOutOne_eq hone
    obtain ⟨hdu, hslot⟩ := ho.disk h hd
    obtain ⟨hunused, hrest⟩ := hP
    cases o with
    | stop =>
      rw [swapOutLoop_stop hone] at heq
      obtain ⟨-, rfl⟩ := Prod.mk.inj (Option.some.inj heq)
      simp only [record, hone]
      exact hs.keep (fun la _ => (ho.same h (by simp)).pteAt h la) hslot
    | skip =>
      rw [swapOutLoop_next hone (by simp)] at heq
      simp only [record, hone]
      exact ih hu hdu (hs.keep (fun la _ => (ho.same h (by simp)).pteAt h la) hslot) heq
        (hrest _ u hone (by simp))
    | evicted v addr =>
      rw [swapOutLoop_next hone (by simp)] at heq
      simp only [record, hone]
      have hev := h.iteration_evicted hone
      exact ih hu hdu (hs.evict hev (hunused v hev.evicts) hslot) heq (hrest _ u hone (by simp))

/-- Besides what the callers owe: the counter never arrives at a slot in use. -/
def okSlots (mm : MmStruct) (ram : Set ℕ) (s : Vm) (op : VmOp) : Prop :=
  okSpace mm ram s op ∧
    match op with
    | .swapOut n => Iterations mm (SlotUnused mm) n.toNat s
    | _ => True

/-- Only `swap_out` swaps pages out, and writes slots. -/
theorem Effect.keeps {op : VmOp} (heffect : Effect s mm op t) (h : s.Space mm ram qs)
    (hd : s.Disk dev) (hok : okSpace mm ram s op) (hop : ∀ n, op ≠ .swapOut n) :
    (∀ la, t.SwappedOut mm.pgdir la → t.pteAt mm.pgdir la = s.pteAt mm.pgdir la) ∧
      ∀ n w, t.slot dev n w = s.slot dev n w := by
  cases heffect with
  | exhausted => exact ⟨fun la _ => rfl, fun n w => rfl⟩
  | allocPages => exact ⟨fun la _ => rfl, fun n w => rfl⟩
  | pageInsert hins =>
    exact ⟨fun la hout => hins.pteAt_of_swappedOut h hok hout, slot_congr hins.keeps_disk.2⟩
  | pgdirAllocPage hall =>
    cases hall with
    | exhausted => exact ⟨fun la _ => rfl, fun n w => rfl⟩
    | allocated ht hins =>
      exact ⟨fun la hout => hins.pteAt_of_swappedOut (h.takes ht) hok hout,
        slot_congr hins.keeps_disk.2⟩
  | mapSwappable => exact ⟨fun la _ => rfl, fun n w => rfl⟩
  | @swapIn addr r p t hin =>
    refine ⟨fun la hout => ?_, (hin.disk h hd).2⟩
    cases p with
    | none => exact (hin.same h rfl).2.pteAt h la
    | some q =>
      have hpte := (hin.loaded_space h hok).1.pteAt la
      split_ifs at hpte
      · exact absurd hout (not_swappedOut_entry hpte)
      · exact hpte
  | swapOut => exact absurd rfl (hop _)

theorem exec_slots (h : s.Space mm ram qs) (hd : s.Disk dev) (hs : s.Slots mm dev saved)
    {op : VmOp} (hok : okSlots mm ram s op) (heq : exec mm s op = some t) :
    t.Slots mm dev (remember mm s saved op) := by
  obtain ⟨hspace, hcond⟩ := hok
  obtain ⟨heffect, -⟩ := exec_space h hspace heq
  by_cases hop : ∃ n, op = .swapOut n
  · obtain ⟨n, rfl⟩ := hop
    cases heffect with
    | swapOut hout => exact slots_of_slotUnused h hd hs hout hcond
  · have hop' : ∀ n, op ≠ .swapOut n := fun n hn => hop ⟨n, hn⟩
    obtain ⟨hpte, hslot⟩ := heffect.keeps h hd hspace hop'
    have hsaved : remember mm s saved op = saved := by
      cases op with
      | swapOut n => exact absurd rfl (hop' n)
      | _ => rfl
    rw [hsaved]
    exact hs.keep hpte fun n w _ => hslot n w

/-- From a state without swapped-out pages and a disk that answers, along every such history:
two swapped-out pages hold different entries, and the slot of each holds what the page held
when it was evicted. -/
theorem run_slots (h : s.Space mm ram []) (hd : s.Disk dev)
    (hnone : ∀ la, ¬ s.SwappedOut mm.pgdir la) {t : Traced}
    (hrun : Run (Traced.exec mm) (fun u => okSlots mm ram u.vm) ⟨s, saved⟩ t) :
    (∀ la la', t.vm.SwappedOut mm.pgdir la → t.vm.SwappedOut mm.pgdir la' →
      pagNum la ≠ pagNum la' → t.vm.pteAt mm.pgdir la ≠ t.vm.pteAt mm.pgdir la') ∧
    ∀ la, t.vm.SwappedOut mm.pgdir la → ∀ w, w < 1024 →
      t.vm.slot dev (slotNum (t.vm.pteAt mm.pgdir la)) w = t.saved (pagNum la) w := by
  have hstart : s.Slots mm dev saved :=
    ⟨fun la _ hout => absurd hout (hnone la), fun la hout => absurd hout (hnone la),
      fun la hout => absurd hout (hnone la)⟩
  have ht : ((∃ qs, t.vm.Space mm ram qs) ∧ t.vm.Disk dev) ∧ t.vm.Slots mm dev t.saved := by
    refine hrun.invariant (I := fun u => ((∃ qs, u.vm.Space mm ram qs) ∧ u.vm.Disk dev) ∧
      u.vm.Slots mm dev u.saved) ⟨⟨⟨[], h⟩, hd⟩, hstart⟩ ?_
    rintro u op w ⟨⟨⟨qs, hu⟩, hdu⟩, hslots⟩ hok heq
    obtain ⟨x, hx, rfl⟩ := Option.map_eq_some_iff.mp heq
    exact ⟨⟨(exec_space hu hok.1 hx).2, exec_disk hu hdu hok.1 hx⟩, exec_slots hu hdu hslots hok hx⟩
  exact ⟨fun la la' hout hout' hne heq => hne (ht.2.distinct la la' hout hout' heq), ht.2.content⟩

end Slots

/-! ## On the small machine -/

/-- The entries of the small machine are present or empty. -/
theorem sampleMem_entry (f i : ℕ) : Present (sampleMem f i) ∨ sampleMem f i = 0#32 := by
  rw [sampleMem]
  split_ifs
  · exact Or.inl ((present_or _ _).mpr (Or.inr present_PTE_USER))
  · rw [present_or, present_or]
    exact Or.inl (Or.inl (Or.inr present_PTE_P))
  · exact Or.inr rfl
  · rw [present_or, present_or]
    exact Or.inl (Or.inl (Or.inr present_PTE_P))
  · exact Or.inr rfl

theorem booted_swappedOut (n : ℕ) (size la : Word) :
    ¬ (booted n size).SwappedOut initMm.pgdir la := by
  rintro ⟨hne, hno⟩
  have hentry : Present ((booted n size).pteAt initMm.pgdir la) ∨
      (booted n size).pteAt initMm.pgdir la = 0#32 := by
    rw [pteAt]
    split_ifs
    · exact sampleMem_entry _ _
    · exact Or.inr rfl
  exact hentry.elim hno hne

/-- Three queued pages, mapped from 4 MB on. -/
def threeOps : List VmOp :=
  [.allocPages 3, .mapSwappable 0#32 4, .mapSwappable 0#32 5, .mapSwappable 0#32 6,
    .pageInsert 4 0x400000#32 PTE_U, .pageInsert 5 0x401000#32 PTE_U,
    .pageInsert 6 0x402000#32 PTE_U]

theorem threeOps_allowed : Allowed (exec initMm) (okSpace initMm (Set.Ico 4 (4 + 8))) threeOps
    (booted 8 1024#32) := by
  refine booted_allowed (by decide) 1024#32 (by decide) (by decide) rfl (by decide : 1 ≤ 3) ?_
  intro t ht hfree hpaging hmem
  have hout : ∀ p, p < 7 → p ∉ t.pmm.freePages := fun p hp hp' =>
    absurd (hfree p hp') (by omega)
  have hdata : ∀ p, 4 ≤ p → p ∉ t.paging initMm.pgdir := fun p hp hp' =>
    absurd (hpaging p hp') (by omega)
  refine ht.allowed_mapSwappable (by simp) (hout 4 (by decide)) (by simp) (hdata 4 (by decide))
    id fun u hu huf hum => ?_
  have hup : u.paging initMm.pgdir = t.paging initMm.pgdir :=
    paging_congr fun j => congrFun (congrFun hum _) j
  refine hu.allowed_mapSwappable (by simp) (huf ▸ hout 5 (by decide)) (by simp)
    (hup ▸ hdata 5 (by decide)) id fun v hv hvf hvm => ?_
  have hvp : v.paging initMm.pgdir = u.paging initMm.pgdir :=
    paging_congr fun j => congrFun (congrFun hvm _) j
  refine hv.allowed_mapSwappable (by simp) (hvf ▸ huf ▸ hout 6 (by decide)) (by simp)
    (hvp ▸ hup ▸ hdata 6 (by decide)) id fun w hw _ _ => ?_
  have hla : pdx 0x400000#32 ≠ pdx VPT ∧ pdx 0x401000#32 ≠ pdx VPT ∧ pdx 0x402000#32 ≠ pdx VPT := by
    decide
  refine hw.allowed_pageInsert hla.1 hla.1 fun x hx _ => ?_
  refine hx.allowed_pageInsert hla.2.1 hla.2.1 fun y hy _ => ?_
  exact hy.allowed_pageInsert hla.2.2 hla.2.2 fun z _ _ => trivial

/-- With three slots the counter takes two values only: the third page evicted is given the
entry that the first still holds. -/
theorem swapOut_reuses_slot :
    ((sample 8 1024#32).swapFifoInitMm initMm).1.swapInit = some (booted 8 1024#32) ∧
    (booted 8 1024#32).maxSwapOffset = 3#32 ∧
    (booted 8 1024#32).Disk ⟨0#8, 0x1F0#16, 1024#32, true⟩ ∧
    (∀ la, ¬ (booted 8 1024#32).SwappedOut initMm.pgdir la) ∧
    ∃ t, Run (exec initMm) (okSpace initMm (Set.Ico 4 (4 + 8))) (booted 8 1024#32) t ∧
      pagNum 0x400000#32 ≠ pagNum 0x402000#32 ∧
      t.SwappedOut initMm.pgdir 0x400000#32 ∧ t.SwappedOut initMm.pgdir 0x402000#32 ∧
      t.pteAt initMm.pgdir 0x400000#32 = t.pteAt initMm.pgdir 0x402000#32 := by
  refine ⟨booted_eq 8 1024#32, by decide, booted_disk 1024#32, booted_swappedOut 8 1024#32, ?_⟩
  have heq : (trial threeOps 3).map (fun x =>
      (x.2.2.pteAt initMm.pgdir 0x400000#32, x.2.2.pteAt initMm.pgdir 0x402000#32)) =
      some (0x100#32, 0x100#32) := by decide +kernel
  obtain ⟨u, r, t, hu, hout, ht⟩ := trial_spec heq
  have hrun := Run.of_foldlM threeOps_allowed hu
  obtain ⟨h₁, h₂⟩ := Prod.mk.inj ht
  have hstep : Step (exec initMm) (okSpace initMm (Set.Ico 4 (4 + 8))) u t :=
    ⟨.swapOut 3, trivial, by rw [exec, hout]; rfl⟩
  have hentry : (0x100#32 : Word) ≠ 0#32 ∧ ¬ Present 0x100#32 := by decide
  refine ⟨t, hrun.tail hstep, by decide, ?_, ?_, h₁.trans h₂.symm⟩
  · rw [SwappedOut, h₁]
    exact hentry
  · rw [SwappedOut, h₂]
    exact hentry

/-- Before the first `swap_out` nothing is swapped out. -/
theorem threeOps_run {u : Vm} (heq : threeOps.foldlM (exec initMm) (booted 8 1024#32) = some u) :
    Run (exec initMm) (okSlots initMm (Set.Ico 4 (4 + 8))) (booted 8 1024#32) u ∧
      ∀ la, ¬ u.SwappedOut initMm.pgdir la := by
  have hops : ∀ op ∈ threeOps, ∀ n, op ≠ .swapOut n := by
    intro op hop n
    simp only [threeOps, List.mem_cons, List.not_mem_nil, or_false] at hop
    rcases hop with rfl | rfl | rfl | rfl | rfl | rfl | rfl <;> simp
  have hrun : Run (exec initMm) (fun s op => okSlots initMm (Set.Ico 4 (4 + 8)) s op ∧
      ∀ n, op ≠ .swapOut n) (booted 8 1024#32) u := by
    refine Run.of_foldlM (threeOps_allowed.mono fun s op hop hok => ⟨⟨hok, ?_⟩, hops op hop⟩) heq
    cases op with
    | swapOut n => exact absurd rfl (hops _ hop n)
    | _ => trivial
  refine ⟨hrun.mono fun s op hok => hok.1, ?_⟩
  have hbooted := booted_space (n := 8) (by decide) 1024#32 (by decide)
  refine (hbooted.run_invariant
    (I := fun v => v.Disk ⟨0#8, 0x1F0#16, 1024#32, true⟩ ∧ ∀ la, ¬ v.SwappedOut initMm.pgdir la)
    (fun _ _ hok => hok.1.1) (fun hv hs hok hexec => ?_)
    ⟨booted_disk 1024#32, booted_swappedOut 8 1024#32⟩ hrun).2.2
  refine ⟨exec_disk hv hs.1 hok.1.1 hexec, fun la hout => ?_⟩
  obtain ⟨heffect, -⟩ := exec_space hv hok.1.1 hexec
  have hpte := (heffect.keeps hv hs.1 hok.1.1 hok.2).1 la hout
  exact hs.2 la ((swappedOut_congr hpte).mp hout)

/-- One of the three pages is evicted, and its slot holds what it held. -/
theorem run_slots_one : ∃ (t : Vm) (saved : ℕ → ℕ → Word),
    t.SwappedOut initMm.pgdir 0x400000#32 ∧ ∀ w, w < 1024 →
      t.slot ⟨0#8, 0x1F0#16, 1024#32, true⟩ 1 w = saved (pagNum 0x400000#32) w := by
  have heq : (trial threeOps 1).map (fun x => x.2.2.pteAt initMm.pgdir 0x400000#32) =
      some 0x100#32 := by decide +kernel
  obtain ⟨u, r, t, hu, hout, ht⟩ := trial_spec heq
  obtain ⟨hrun, hnone⟩ := threeOps_run hu
  have hunused : Iterations initMm (SlotUnused initMm) 1 u :=
    ⟨fun v _ la hla => absurd hla (hnone la), fun o t _ _ => trivial⟩
  have hstep : Step (exec initMm) (okSlots initMm (Set.Ico 4 (4 + 8))) u t :=
    ⟨.swapOut 1, ⟨trivial, hunused⟩, by rw [exec, hout]; rfl⟩
  obtain ⟨saved, htraced⟩ := Traced.run (hrun.tail hstep) fun _ _ => 0#32
  have hentry : (0x100#32 : Word) ≠ 0#32 ∧ ¬ Present 0x100#32 := by decide
  have hswapped : t.SwappedOut initMm.pgdir 0x400000#32 := by
    rw [SwappedOut, ht]
    exact hentry
  have hcontent := (run_slots (booted_space (by decide) 1024#32 (by decide))
    (booted_disk 1024#32) (booted_swappedOut 8 1024#32) htraced).2 0x400000#32 hswapped
  rw [ht] at hcontent
  exact ⟨t, saved, hswapped, hcontent⟩

end Vm
end Zonix
