import Zonix.Mm.SwapSlots
import Zonix.Mm.VmRun

/-!
# Histories that keep an address space in order

`okSpace` is what the callers owe: they insert pages outside the self-mapping slot, and
queue pages that are allocated, not queued, and hold no page table. `Effect` lists what an
operation can then do. `Iterations` states a condition on every iteration of a `swap_out`.
-/

namespace Zonix
open Lib

namespace Vm

/-- What the callers owe. The calls that give pages back are not part of these histories. -/
def okSpace (mm : MmStruct) (ram : Set ℕ) (s : Vm) : VmOp → Prop
  | .allocPages n => 1 ≤ n
  | .pageInsert _ la _ => pdx la ≠ pdx VPT
  | .pgdirAllocPage la _ => pdx la ≠ pdx VPT
  | .mapSwappable _ page =>
    s.Allocated ram page ∧ ¬ s.Queued mm page ∧ page ∉ s.paging mm.pgdir
  | .swapIn addr => pdx addr ≠ pdx VPT
  | .swapOut _ => True
  | .pagesFree _ | .getPte _ _ | .pgFault _ => False

/-- What an operation does. -/
inductive Effect (s : Vm) (mm : MmStruct) : VmOp → Vm → Prop
  | exhausted {n : ℕ} : Effect s mm (.allocPages n) s
  | allocPages {n page : ℕ} {pmm : Pmm} (ht : s.pmm.Takes n page pmm) :
      Effect s mm (.allocPages n) (s.setPmm pmm)
  | pageInsert {page : ℕ} {la perm : Word} {res : ℤ} {t : Vm}
      (hins : PageInsert s mm.pgdir page la perm res t) : Effect s mm (.pageInsert page la perm) t
  | pgdirAllocPage {la perm : Word} {p : Option ℕ} {t : Vm}
      (hall : PgdirAllocPage s mm.pgdir la perm p t) : Effect s mm (.pgdirAllocPage la perm) t
  | mapSwappable {addr : Word} {page : ℕ}
      (hfree : (s.swapFifoMapSwappable mm page).pmm.freePages = s.pmm.freePages) :
      Effect s mm (.mapSwappable addr page) (s.swapFifoMapSwappable mm page)
  | swapIn {addr : Word} {r : ℤ} {p : Option ℕ} {t : Vm} (hin : SwapIn s mm addr r p t) :
      Effect s mm (.swapIn addr) t
  | swapOut {n r : ℤ} {t : Vm} (hout : s.swapOut mm n = some (r, t)) :
      Effect s mm (.swapOut n) t

section Loop
variable {s t : Vm} {mm : MmStruct} {ram : Set ℕ} {qs : List ℕ}

/-- `P` holds whenever the loop of `swap_out` begins an iteration, with `k` of them to go. -/
def Iterations (mm : MmStruct) (P : Vm → Prop) : ℕ → Vm → Prop
  | 0, _ => True
  | k + 1, s => P s ∧
    ∀ o t, s.swapOutOne mm = some (o, t) → o ≠ .stop → Iterations mm P k t

theorem Iterations.mono {P Q : Vm → Prop} (hPQ : ∀ s, P s → Q s) {k : ℕ}
    (h : Iterations mm P k s) : Iterations mm Q k s := by
  induction k generalizing s with
  | zero => trivial
  | succ k ih => exact ⟨hPQ s h.1, fun o t heq ho => ih (h.2 o t heq ho)⟩

/-- What every iteration keeps, where the condition holds, the loop keeps. -/
theorem swapOutLoop_invariant {I P : Vm → Prop}
    (hstep : ∀ s o t, I s → P s → s.swapOutOne mm = some (o, t) → I t) {k : ℕ} {i r : ℤ}
    (hs : I s) (hP : Iterations mm P k s) (heq : swapOutLoop mm k i s = some (r, t)) : I t := by
  induction k generalizing i s with
  | zero =>
    obtain ⟨-, rfl⟩ := Prod.mk.inj (Option.some.inj heq)
    exact hs
  | succ k ih =>
    obtain ⟨hPs, hrest⟩ := hP
    cases hone : s.swapOutOne mm with
    | none => simp [swapOutLoop, hone] at heq
    | some x =>
      obtain ⟨o, u⟩ := x
      have hu := hstep s o u hs hPs hone
      by_cases ho : o = .stop
      · subst ho
        rw [swapOutLoop_stop hone] at heq
        obtain ⟨-, rfl⟩ := Prod.mk.inj (Option.some.inj heq)
        exact hu
      · rw [swapOutLoop_next hone ho] at heq
        exact ih hu (hrest o u hone ho) heq

/-- An iteration, on an address space in order. -/
theorem Space.swapOutOne_eq (h : s.Space mm ram qs) {o : Outcome}
    (heq : s.swapOutOne mm = some (o, t)) : SwapOutOne s mm o t ∧ t.Space mm ram qs.tail := by
  obtain ⟨o', t', heq', ho, hlists, -⟩ := swapOutOne_spec h.lists h.head
  obtain ⟨rfl, rfl⟩ := Prod.mk.inj (Option.some.inj (heq.symm.trans heq'))
  exact ⟨ho, h.swapOutOne ho hlists⟩

theorem iterations_true (mm : MmStruct) (k : ℕ) (s : Vm) : Iterations mm (fun _ => True) k s := by
  induction k generalizing s with
  | zero => trivial
  | succ k ih => exact ⟨trivial, fun o t _ _ => ih t⟩

/-- The address space is in order at the start of every iteration. -/
theorem Space.loop_invariant (h : s.Space mm ram qs) {I P : Vm → Prop}
    (hstep : ∀ {s o t qs}, s.Space mm ram qs → I s → P s → s.swapOutOne mm = some (o, t) → I t)
    {k : ℕ} {i r : ℤ} (hs : I s) (hP : Iterations mm P k s)
    (heq : swapOutLoop mm k i s = some (r, t)) : (∃ qs', t.Space mm ram qs') ∧ I t := by
  refine swapOutLoop_invariant (I := fun u => (∃ qs', u.Space mm ram qs') ∧ I u) ?_ ⟨⟨qs, h⟩, hs⟩
    hP heq
  rintro u o w ⟨⟨qs', hu⟩, hI⟩ hPu hone
  exact ⟨⟨_, (hu.swapOutOne_eq hone).2⟩, hstep hu hI hPu hone⟩

/-- What every iteration keeps without a condition. -/
theorem Space.loop_keeps (h : s.Space mm ram qs) {I : Vm → Prop}
    (hstep : ∀ {s o t qs}, s.Space mm ram qs → I s → s.swapOutOne mm = some (o, t) → I t)
    {k : ℕ} {i r : ℤ} (hs : I s) (heq : swapOutLoop mm k i s = some (r, t)) :
    (∃ qs', t.Space mm ram qs') ∧ I t :=
  h.loop_invariant (fun hu hI _ => hstep hu hI) hs (iterations_true mm k s) heq

/-- The other direction: `E` says that the loop is going to end well. If it does so, then an
iteration that began with `E` had met the condition, and `E` holds after it. -/
theorem Space.iterations_of_end (h : s.Space mm ram qs) {E P : Vm → Prop} {r : ℤ}
    (hstep : ∀ {s o u qs k i}, s.Space mm ram qs → E s → s.swapOutOne mm = some (o, u) →
      (o ≠ .stop → swapOutLoop mm k i u = some (r, t)) → (o ≠ .stop → E u) ∧ P s)
    {k : ℕ} {i : ℤ} (hs : E s) (heq : swapOutLoop mm k i s = some (r, t)) :
    Iterations mm P k s := by
  induction k generalizing i s qs with
  | zero => trivial
  | succ k ih =>
    obtain ⟨o, u, hone, -⟩ := swapOutOne_spec h.lists h.head
    obtain ⟨-, hu⟩ := h.swapOutOne_eq hone
    have hloop : o ≠ .stop → swapOutLoop mm k (i + 1) u = some (r, t) := fun ho =>
      (swapOutLoop_next hone ho k i).symm.trans heq
    obtain ⟨hE, hP⟩ := hstep h hs hone hloop
    refine ⟨hP, fun o' u' hone' ho' => ?_⟩
    obtain ⟨rfl, rfl⟩ := Prod.mk.inj (Option.some.inj (hone.symm.trans hone'))
    exact ih hu (hE ho') (hloop ho')

theorem Space.swapOut (h : s.Space mm ram qs) {n r : ℤ} (heq : s.swapOut mm n = some (r, t)) :
    ∃ qs', t.Space mm ram qs' :=
  (h.loop_keeps (I := fun _ => True) (fun _ _ _ => trivial) trivial heq).1

end Loop

section Run
variable {s t : Vm} {mm : MmStruct} {ram : Set ℕ} {qs : List ℕ}

theorem exec_space (h : s.Space mm ram qs) {op : VmOp} (hok : okSpace mm ram s op)
    (heq : exec mm s op = some t) : Effect s mm op t ∧ ∃ qs', t.Space mm ram qs' := by
  obtain ⟨bs, hinv⟩ := h.lists.free
  cases op with
  | allocPages n =>
    rcases hinv.alloc_cases hok with ⟨hall, -⟩ | ⟨page, pmm, hall, ht⟩
    · simp only [exec, allocPages, hall, Option.bind_eq_bind, Option.bind_some, Option.map_some,
        Option.some.injEq] at heq
      exact heq ▸ ⟨.exhausted, qs, h⟩
    · simp only [exec, allocPages, hall, Option.bind_eq_bind, Option.bind_some, Option.map_some,
        Option.some.injEq] at heq
      exact heq ▸ ⟨.allocPages ht, qs, h.takes ht⟩
  | pageInsert page la perm =>
    obtain ⟨r, u, hins, hspec⟩ := pageInsert_spec hinv mm.pgdir page la perm
    simp only [exec, hins, Option.map_some, Option.some.injEq] at heq
    exact heq ▸ ⟨.pageInsert hspec, qs, h.pageInsert hspec hok⟩
  | pgdirAllocPage la perm =>
    obtain ⟨p, u, hall, hspec⟩ := pgdirAllocPage_spec hinv mm.pgdir la perm
    simp only [exec, hall, Option.map_some, Option.some.injEq] at heq
    exact heq ▸ ⟨.pgdirAllocPage hspec, qs, h.pgdirAllocPage hspec hok⟩
  | mapSwappable addr page =>
    obtain ⟨⟨hram, hfree⟩, hq, hdata⟩ := hok
    rw [queued_iff h.lists h.head] at hq
    simp only [exec, Option.some.injEq] at heq
    have hsame : (s.swapFifoMapSwappable mm page).pmm.freePages = s.pmm.freePages := by
      rw [swapFifoMapSwappable, h.head]
      exact (h.lists.enqueue hram hfree hq).2
    exact heq ▸ ⟨.mapSwappable hsame, _, h.mapSwappable hram hfree hq hdata⟩
  | swapIn addr =>
    obtain ⟨r, p, u, hin, hspec, hlists⟩ := swapIn_spec h.lists h.head addr
    simp only [exec, hin, Option.map_some, Option.some.injEq] at heq
    exact heq ▸ ⟨.swapIn hspec, _, h.swapIn hspec hlists hok⟩
  | swapOut n =>
    obtain ⟨r, u, hout, -⟩ := swapOut_lists h.lists h.head n
    simp only [exec, hout, Option.map_some, Option.some.injEq] at heq
    exact heq ▸ ⟨.swapOut hout, h.swapOut hout⟩
  | pagesFree | getPte | pgFault => exact hok.elim

/-- The address space is in order before every operation of a history. -/
theorem Space.run_invariant (h : s.Space mm ram qs) {I : Vm → Prop} {ok : Vm → VmOp → Prop}
    (hspace : ∀ s op, ok s op → okSpace mm ram s op)
    (hstep : ∀ {s op t qs}, s.Space mm ram qs → I s → ok s op → exec mm s op = some t → I t)
    (hs : I s) (hrun : Run (exec mm) ok s t) : (∃ qs', t.Space mm ram qs') ∧ I t := by
  refine hrun.invariant (I := fun u => (∃ qs', u.Space mm ram qs') ∧ I u) ⟨⟨qs, h⟩, hs⟩ ?_
  rintro u op w ⟨⟨qs', hu⟩, hI⟩ hok heq
  exact ⟨(exec_space hu (hspace u op hok) heq).2, hstep hu hI hok heq⟩

theorem run_space (h : s.Space mm ram qs) (hrun : Run (exec mm) (okSpace mm ram) s t) :
    ∃ qs', t.Space mm ram qs' :=
  (h.run_invariant (I := fun _ => True) (fun _ _ hok => hok) (fun _ _ _ _ => trivial) trivial
    hrun).1

/-- A disk that answers goes on answering. -/
theorem exec_disk {dev : IdeDevice} (h : s.Space mm ram qs) (hd : s.Disk dev) {op : VmOp}
    (hok : okSpace mm ram s op) (heq : exec mm s op = some t) : t.Disk dev := by
  obtain ⟨heffect, -⟩ := exec_space h hok heq
  cases heffect with
  | exhausted => exact hd
  | allocPages => exact hd.of_eq rfl rfl
  | pageInsert hins => exact hd.of_eq hins.keeps_disk.1 hins.keeps_disk.2
  | pgdirAllocPage hall =>
    cases hall with
    | exhausted => exact hd
    | allocated ht hins => exact hd.of_eq hins.keeps_disk.1 hins.keeps_disk.2
  | mapSwappable => exact hd.of_eq rfl rfl
  | swapIn hin => exact (hin.disk h hd).1
  | swapOut hout =>
    refine (h.loop_keeps (I := fun u => u.Disk dev) (fun hu hdu hone => ?_) hd hout).2
    exact ((hu.swapOutOne_eq hone).1.disk hu hdu).1

theorem run_disk {dev : IdeDevice} (h : s.Space mm ram qs) (hd : s.Disk dev)
    (hrun : Run (exec mm) (okSpace mm ram) s t) : t.Disk dev :=
  (h.run_invariant (I := fun u => u.Disk dev) (fun _ _ hok => hok)
    (fun hu hdu hok heq => exec_disk hu hdu hok heq) hd hrun).2

/-- Queueing a page is allowed, and the history goes on with it queued. -/
theorem Space.allowed_mapSwappable (h : s.Space mm ram qs) {addr : Word} {page : ℕ}
    {ok : Vm → VmOp → Prop} {ops : List VmOp} (hram : page ∈ ram) (hfree : page ∉ s.pmm.freePages)
    (hqs : page ∉ qs) (hdata : page ∉ s.paging mm.pgdir)
    (hok : okSpace mm ram s (.mapSwappable addr page) → ok s (.mapSwappable addr page))
    (hrest : ∀ t : Vm, t.Space mm ram (qs ++ [page]) → t.pmm.freePages = s.pmm.freePages →
      t.mem = s.mem → Allowed (exec mm) ok ops t) :
    Allowed (exec mm) ok (.mapSwappable addr page :: ops) s := by
  refine ⟨hok ⟨⟨hram, hfree⟩, fun hq => hqs ((queued_iff h.lists h.head page).mp hq), hdata⟩, ?_⟩
  rintro t ht
  simp only [exec, Option.some.injEq] at ht
  subst ht
  have hsame : (s.swapFifoMapSwappable mm page).pmm.freePages = s.pmm.freePages := by
    rw [swapFifoMapSwappable, h.head]
    exact (h.lists.enqueue hram hfree hqs).2
  exact hrest _ (h.mapSwappable hram hfree hqs hdata) hsame rfl

/-- Inserting a page adds no free page. -/
theorem Space.allowed_pageInsert (h : s.Space mm ram qs) {page : ℕ} {la perm : Word}
    {ok : Vm → VmOp → Prop} {ops : List VmOp} (hv : pdx la ≠ pdx VPT)
    (hok : ok s (.pageInsert page la perm))
    (hrest : ∀ t : Vm, t.Space mm ram qs → t.pmm.freePages ⊆ s.pmm.freePages →
      Allowed (exec mm) ok ops t) :
    Allowed (exec mm) ok (.pageInsert page la perm :: ops) s := by
  refine ⟨hok, fun t heq => ?_⟩
  obtain ⟨bs, hinv⟩ := h.lists.free
  obtain ⟨r, u, hins, hspec⟩ := pageInsert_spec hinv mm.pgdir page la perm
  simp only [exec, hins, Option.map_some, Option.some.injEq] at heq
  subst heq
  exact hrest _ (h.pageInsert hspec hv) hspec.freePages_subset

end Run

/-! ## The small machine, with swapping initialised -/

/-- `init_mm` of the small machine. -/
def initMm : MmStruct := ⟨1, .praListHead⟩

/-- The small machine after `swap_init` and `swap_init_mm`. -/
def booted (n : ℕ) (size : Word) : Vm :=
  { ((sample n size).swapFifoInitMm initMm).1 with
    swapDevice := some ⟨BLK_TYPE_DISK, size, 0⟩
    maxSwapOffset := (size - SWAP_START_SECTOR) / SECTORS_PER_PAGE }

theorem booted_eq (n : ℕ) (size : Word) :
    ((sample n size).swapFifoInitMm initMm).1.swapInit = some (booted n size) := rfl

section Booted
variable {n : ℕ} (hn : 1 ≤ n) (size : Word)
include hn

theorem booted_freePages : (booted n size).pmm.freePages = Set.Ico 4 (4 + n) := by
  have hinv := swapFifoInitMm_inv initMm (sample_inv hn size)
  show ((sample n size).swapFifoInitMm initMm).1.pmm.freePages = _
  rw [hinv.toRep.freePages_eq, ← (sample_inv hn size).toRep.freePages_eq, sample_freePages hn]

theorem booted_space (hlow : 4 + n ≤ 2 ^ 20) :
    (booted n size).Space initMm (Set.Ico 4 (4 + n)) [] := by
  have hself : pagNum (sampleMem 1 (pdx VPT)) = 1 := by decide
  refine ⟨rfl, swapFifoInitMm_lists initMm (sample_inv hn size), fun p hp => ?_, ?_, fun _ => hself,
    by simp⟩
  · rw [Set.mem_Ico] at hp
    omega
  · refine (sample_pgdirOk hn size).congr (fun j => rfl) fun f hf => ?_
    rw [booted_freePages hn, ← sample_freePages hn size]
    exact (sample_pgdirOk hn size).notFree f hf

omit hn in
/-- The frames of the directory and of its one page table. -/
theorem booted_paging {f : ℕ} (hf : f ∈ (booted n size).paging initMm.pgdir) : f < 4 := by
  rcases hf with rfl | ⟨i, hi⟩
  · decide
  · have hi' : (sample n size).IsTable 1 i f := hi
    rw [(sample_isTable size hi').2]
    decide

omit hn in
/-- No user page is mapped. -/
theorem booted_pteAt {la : Word} (hla : la < KERNEL_BASE) :
    (booted n size).pteAt initMm.pgdir la = 0#32 := by
  have hpde : (booted n size).mem initMm.pgdir (pdx la) = 0#32 := by
    show sampleMem 1 (pdx la) = 0#32
    have hk : pdx KERNEL_BASE = 768 := by decide
    rw [lt_kernelBase_iff] at hla
    rw [sampleMem, if_pos rfl, if_neg (by omega), if_neg (by rw [pdx_vpt]; omega)]
  apply pteAt_of_not_present
  rw [hpde]
  exact not_present_zero

/-- No page is counted. -/
theorem booted_ref (p : ℕ) : ((booted n size).pmm.page p).ref = 0 := by
  have hspec := Pmm.initMemmap_spec Pmm.blank.init_inv hn
    (Set.disjoint_empty (Set.Ico 4 (4 + n)))
  have href := hspec.ref p
  split_ifs at href <;> exact href

omit hn in
/-- The disk of the small machine is always ready. -/
theorem booted_disk : (booted n size).Disk ⟨0#8, 0x1F0#16, size, true⟩ :=
  ⟨⟨_, rfl, rfl⟩, rfl, Ide.answers_of_status fun _ => rfl⟩

/-- Histories that begin by allocating the first `k` pages. -/
theorem booted_allowed (hlow : 4 + n ≤ 2 ^ 20) {k : ℕ} (hk : 1 ≤ k) {pmm : Pmm}
    {ok : Vm → VmOp → Prop} {ops : List VmOp}
    (heq : (booted n size).pmm.alloc k = some (some 4, pmm))
    (hok : ok (booted n size) (.allocPages k))
    (hrest : ∀ t : Vm, t.Space initMm (Set.Ico 4 (4 + n)) [] →
      (∀ p, p ∈ t.pmm.freePages → 4 + k ≤ p) → (∀ f ∈ t.paging initMm.pgdir, f < 4) →
      t.mem = (booted n size).mem → Allowed (exec initMm) ok ops t) :
    Allowed (exec initMm) ok (.allocPages k :: ops) (booted n size) := by
  have h := booted_space hn size hlow
  obtain ⟨bs, hinv⟩ := h.lists.free
  have ht := hinv.takes_of_alloc hk heq
  refine ⟨hok, fun t hexec => ?_⟩
  simp only [exec, allocPages, heq, Option.bind_eq_bind, Option.bind_some, Option.map_some,
    Option.some.injEq] at hexec
  subst hexec
  refine hrest _ (h.takes ht) (fun p hp => ?_) (fun f hf => booted_paging (n := n) size hf) rfl
  rw [setPmm_pmm, ht.freePages, booted_freePages hn] at hp
  obtain ⟨hmem, hout⟩ := hp
  rw [Set.mem_Ico] at hmem hout
  omega

end Booted

end Vm
end Zonix
