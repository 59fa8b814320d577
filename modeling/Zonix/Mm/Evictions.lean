import Zonix.Mm.SpaceRun

/-!
# What the evictions of a history may touch

The reverse lookup scans the whole directory, the kernel's alias of every frame included, and
returns one address. So an eviction unmaps kernel memory exactly when no user page maps the
victim, and leaves a user page mapped to a free frame exactly when two of them map it.
-/

namespace Zonix
open Lib

namespace Vm

/-- The next iteration of `swap_out` evicts `v`: it is the head of the queue, its address is
found, and the disk takes it. -/
def Evicts (s : Vm) (mm : MmStruct) (v : ℕ) : Prop :=
  listNext s.pmm.link mm.swapList = .pageLink v ∧ s.findVaddrForPage mm v ≠ 0#32 ∧
    ((s.dequeued v).swapfsWrite (s.swapOffset <<< 8) v).1 = 0

instance (s : Vm) (mm : MmStruct) (v : ℕ) : Decidable (s.Evicts mm v) :=
  inferInstanceAs (Decidable (_ ∧ _ ∧ _))

section Iteration
variable {s t : Vm} {mm : MmStruct} {ram : Set ℕ} {qs : List ℕ} {o : Outcome} {v : ℕ}

/-- An iteration that ends with an eviction. -/
theorem Space.iteration_evicted {addr : Word} (h : s.Space mm ram qs)
    (heq : s.swapOutOne mm = some (.evicted v addr, t)) : Evicted s mm v addr t := by
  obtain ⟨o, t', heq', ho, hlists, -⟩ := swapOutOne_spec h.lists h.head
  obtain ⟨rfl, rfl⟩ := Prod.mk.inj (Option.some.inj (heq.symm.trans heq'))
  exact (ho.evicted_space h hlists).1

/-- An iteration evicted a page, or left entries and free pages alone. -/
theorem Space.iteration (h : s.Space mm ram qs) (heq : s.swapOutOne mm = some (o, t)) :
    (∃ v addr, o = .evicted v addr ∧ Evicted s mm v addr t) ∨
      (∀ v addr, o ≠ .evicted v addr) ∧ s.Same t := by
  cases o with
  | evicted v addr => exact Or.inl ⟨v, addr, rfl, h.iteration_evicted heq⟩
  | stop | skip => exact Or.inr ⟨by simp, (h.swapOutOne_eq heq).1.same h (by simp)⟩

theorem Evicted.evicts {addr : Word} (h : Evicted s mm v addr t) : s.Evicts mm v :=
  ⟨h.next, h.addr_eq ▸ h.addr_ne, h.written⟩

/-- The page that is to be evicted is evicted. -/
theorem Evicts.evicted (he : s.Evicts mm v) (h : s.Space mm ram qs)
    (heq : s.swapOutOne mm = some (o, t)) :
    Evicted s mm v (s.findVaddrForPage mm v) t ∧ o ≠ .stop := by
  obtain ⟨hn, hfind, hw⟩ := he
  have hlow := h.low v (h.lists.inRam v (h.eq_cons hn ▸ List.mem_cons_self))
  obtain rfl := (h.swapOutOne_eq heq).1.eq_evicted h.head hlow hn hfind hw
  exact ⟨h.iteration_evicted heq, by simp⟩

/-- An iteration makes no entry present, and changes none that stays present. -/
theorem Space.iteration_pteAt (h : s.Space mm ram qs) (heq : s.swapOutOne mm = some (o, t))
    {la : Word} (hp : Present (t.pteAt mm.pgdir la)) :
    t.pteAt mm.pgdir la = s.pteAt mm.pgdir la := by
  rcases h.iteration heq with ⟨v, addr, -, hev⟩ | ⟨-, hsame⟩
  · rw [hev.pteAt] at hp ⊢
    by_cases hla : pagNum la = pagNum addr
    · rw [if_pos hla] at hp
      exact absurd hp (not_present_shiftLeft _)
    · rw [if_neg hla]
  · exact hsame.pteAt h la

/-- Nor does the loop. -/
theorem Space.loop_pteAt (h : s.Space mm ram qs) {k : ℕ} {i r : ℤ}
    (heq : swapOutLoop mm k i s = some (r, t)) {la : Word}
    (hp : Present (t.pteAt mm.pgdir la)) : t.pteAt mm.pgdir la = s.pteAt mm.pgdir la := by
  refine (h.loop_keeps (I := fun u => Present (u.pteAt mm.pgdir la) →
    u.pteAt mm.pgdir la = s.pteAt mm.pgdir la) (fun hu hle hone hw => ?_) (fun _ => rfl) heq).2 hp
  have hwu := hu.iteration_pteAt hone hw
  rw [hwu]
  exact hle (hwu ▸ hw)

end Iteration

/-! ## The kernel's mappings -/

section Kernel
variable {s t : Vm} {mm : MmStruct} {ram : Set ℕ} {qs : List ℕ}

/-- The page that is evicted next, if any, is mapped by a user page. -/
def UserMapped (mm : MmStruct) (s : Vm) : Prop :=
  ∀ v, s.Evicts mm v → ∃ la < KERNEL_BASE, s.Maps mm.pgdir la v

/-- The translation of every kernel address is the same. -/
def KernelSame (s t : Vm) (mm : MmStruct) : Prop :=
  ∀ la, KERNEL_BASE ≤ la → t.walk mm.pgdir la = s.walk mm.pgdir la

theorem pagNum_ne_of_kernel {la addr : Word} (hla : KERNEL_BASE ≤ la) (ha : addr < KERNEL_BASE) :
    pagNum la ≠ pagNum addr := by
  intro heq
  rw [pagNum_inj] at heq
  rw [lt_kernelBase_iff] at ha
  rw [← BitVec.not_lt, lt_kernelBase_iff] at hla
  omega

/-- What is found is below whatever maps the page. -/
theorem Evicted.addr_lt {v : ℕ} {addr la : Word} (hev : Evicted s mm v addr t)
    (h : s.Space mm ram qs) (hla : la < KERNEL_BASE) (hm : s.Maps mm.pgdir la v) :
    addr < KERNEL_BASE := by
  have hqs : v ∈ qs := h.eq_cons hev.next ▸ List.mem_cons_self
  have hle := (findVaddrForPage_le (h.low v (h.lists.inRam v hqs)) hm).2
  rw [← hev.addr_eq, pagNum_eq_index, pagNum_eq_index] at hle
  have h₁ := ptx_lt la
  rw [lt_kernelBase_iff] at hla ⊢
  omega

theorem kernelSame_of_userMapped (h : s.Space mm ram qs) {k : ℕ} {i r : ℤ}
    (heq : swapOutLoop mm k i s = some (r, t)) (hP : Iterations mm (UserMapped mm) k s) :
    KernelSame s t mm := by
  refine (h.loop_invariant (I := fun u => KernelSame s u mm)
    (fun hu hsame hmapped hone la hla => ?_) (fun la _ => rfl) hP heq).2
  rw [← hsame la hla]
  apply walk_congr
  rcases hu.iteration hone with ⟨v, addr, -, hev⟩ | ⟨-, hno⟩
  · obtain ⟨la', hla', hm⟩ := hmapped v hev.evicts
    rw [hev.pteAt, if_neg (pagNum_ne_of_kernel hla (hev.addr_lt hu hla' hm))]
  · exact hno.pteAt hu la

/-- A translation that the loop leaves alone, its first iteration leaves alone. -/
theorem Space.walk_iteration (h : s.Space mm ram qs) {k : ℕ} {i r : ℤ} {o : Outcome} {u : Vm}
    (hone : s.swapOutOne mm = some (o, u)) (hloop : swapOutLoop mm k i u = some (r, t)) {la : Word}
    (hsame : t.walk mm.pgdir la = s.walk mm.pgdir la) :
    u.walk mm.pgdir la = s.walk mm.pgdir la := by
  obtain ⟨-, hu⟩ := h.swapOutOne_eq hone
  by_cases hp : Present (s.pteAt mm.pgdir la)
  · have ht : t.walk mm.pgdir la = some (s.pteAt mm.pgdir la) := hsame.trans (if_pos hp)
    rw [walk] at ht
    split_ifs at ht with htp
    have htu := hu.loop_pteAt hloop htp
    rw [Option.some.injEq] at ht
    exact walk_congr (htu.symm.trans ht)
  · have hup : ¬ Present (u.pteAt mm.pgdir la) := by
      intro hup
      exact hp (h.iteration_pteAt hone hup ▸ hup)
    rw [walk, walk, if_neg hp, if_neg hup]

theorem userMapped_of_kernelSame (h : s.Space mm ram qs) {k : ℕ} {i r : ℤ}
    (heq : swapOutLoop mm k i s = some (r, t)) (hsame : KernelSame s t mm) :
    Iterations mm (UserMapped mm) k s := by
  refine h.iterations_of_end (E := fun u => KernelSame u t mm) ?_ hsame heq
  intro s o u qs k i hs hsame hone hloop
  have hsu : o ≠ .stop → KernelSame s u mm := fun ho la hla =>
    hs.walk_iteration hone (hloop ho) (hsame la hla)
  refine ⟨fun ho la hla => (hsame la hla).trans (hsu ho la hla).symm, fun v he => ?_⟩
  obtain ⟨hev, ho⟩ := he.evicted hs hone
  by_contra hno
  have hk : KERNEL_BASE ≤ s.findVaddrForPage mm v := by
    rw [← BitVec.not_lt]
    exact fun hlt => hno ⟨_, hlt, hev.maps⟩
  -- the entry was present, and is not any more
  have hwalk := hsu ho _ hk
  rw [walk, walk, hev.pteAt, if_pos rfl, if_neg (not_present_shiftLeft _),
    if_pos hev.maps.1] at hwalk
  exact absurd hwalk (by simp)

/-- In every state that a history reaches, `swap_out` leaves the kernel's translations alone
exactly when every page that it evicts is mapped by a user page. -/
theorem swapOut_kernelSame_iff (h : s.Space mm ram []) {u : Vm}
    (hrun : Run (exec mm) (okSpace mm ram) s u) (n : ℤ) :
    ∃ r t, u.swapOut mm n = some (r, t) ∧
      (KernelSame u t mm ↔ Iterations mm (UserMapped mm) n.toNat u) := by
  obtain ⟨qs, hu⟩ := run_space h hrun
  obtain ⟨r, t, heq, -⟩ := swapOut_lists hu.lists hu.head n
  exact ⟨r, t, heq, userMapped_of_kernelSame hu heq, kernelSame_of_userMapped hu heq⟩

/-- A history of the small machine, and a `swap_out` after it. -/
def trial (ops : List VmOp) (n : ℤ) : Option (Vm × ℤ × Vm) := do
  let u ← ops.foldlM (exec initMm) (booted 8 1024#32)
  let (r, t) ← u.swapOut initMm n
  some (u, r, t)

theorem trial_spec {ops : List VmOp} {n : ℤ} {β : Type*} {f : Vm × ℤ × Vm → β} {b : β}
    (heq : (trial ops n).map f = some b) :
    ∃ u r t, ops.foldlM (exec initMm) (booted 8 1024#32) = some u ∧
      u.swapOut initMm n = some (r, t) ∧ f (u, r, t) = b := by
  obtain ⟨⟨u, r, t⟩, htrial, hf⟩ := Option.map_eq_some_iff.mp heq
  rw [trial, Option.bind_eq_bind, Option.bind_eq_some_iff] at htrial
  obtain ⟨u', hu, htrial⟩ := htrial
  rw [Option.bind_eq_bind, Option.bind_eq_some_iff] at htrial
  obtain ⟨⟨r', t'⟩, hout, htrial⟩ := htrial
  obtain ⟨rfl, heq⟩ := Prod.mk.inj (Option.some.inj htrial)
  obtain ⟨rfl, rfl⟩ := Prod.mk.inj heq
  exact ⟨u', r', t', hu, hout, hf⟩

/-- A page that is allocated and queued, and that no user page maps. -/
def unmappedOps : List VmOp := [.allocPages 1, .mapSwappable 0#32 4]

theorem unmappedOps_allowed : Allowed (exec initMm) (okSpace initMm (Set.Ico 4 (4 + 8))) unmappedOps
    (booted 8 1024#32) := by
  refine booted_allowed (by decide) 1024#32 (by decide) (le_refl 1) rfl (le_refl 1) ?_
  intro t ht hfree hpaging hmem
  refine ht.allowed_mapSwappable (by simp) (fun hp => ?_) (by simp) (fun hp => ?_) id ?_
  · exact absurd (hfree 4 hp) (by decide)
  · exact absurd (hpaging 4 hp) (by decide)
  · exact fun u hu hsame hmem' => trivial

/-- `swap_out` finds the kernel's alias of that page, and unmaps it. -/
theorem swapOut_unmaps_kernel :
    (∀ p < 12, 4 ≤ p → (booted 8 1024#32).Maps initMm.pgdir (KERNEL_BASE + page2pa p) p) ∧
    ∃ u r t, Run (exec initMm) (okSpace initMm (Set.Ico 4 (4 + 8))) (booted 8 1024#32) u ∧
      u.swapOut initMm 1 = some (r, t) ∧ ¬ KernelSame u t initMm := by
  refine ⟨by decide +kernel, ?_⟩
  have heq : (trial unmappedOps 1).map (fun x =>
      (x.1.walk initMm.pgdir 0xC0004000#32, x.2.2.walk initMm.pgdir 0xC0004000#32)) =
      some (some 0x4003#32, none) := by decide +kernel
  obtain ⟨u, r, t, hexec, hout, hwalk⟩ := trial_spec heq
  have hrun := Run.of_foldlM unmappedOps_allowed hexec
  obtain ⟨hu, ht⟩ := Prod.mk.inj hwalk
  refine ⟨u, r, t, hrun, hout, fun hsame => ?_⟩
  have hla := hsame 0xC0004000#32 (by decide)
  rw [hu, ht] at hla
  exact absurd hla (by simp)

theorem swapOut_kernelSame_unmapped :
    ∃ u r t, Run (exec initMm) (okSpace initMm (Set.Ico 4 (4 + 8))) (booted 8 1024#32) u ∧
      u.swapOut initMm 1 = some (r, t) ∧
      (KernelSame u t initMm ↔ Iterations initMm (UserMapped initMm) 1 u) := by
  have heq : ∃ u, unmappedOps.foldlM (exec initMm) (booted 8 1024#32) = some u := ⟨_, rfl⟩
  obtain ⟨u, heq⟩ := heq
  have hrun := Run.of_foldlM unmappedOps_allowed heq
  obtain ⟨r, t, hout, hiff⟩ := swapOut_kernelSame_iff
    (booted_space (by decide) 1024#32 (by decide)) hrun 1
  exact ⟨u, r, t, hrun, hout, hiff⟩

end Kernel

/-! ## The user's mappings -/

section User
variable {s t : Vm} {mm : MmStruct} {ram : Set ℕ} {qs : List ℕ}

/-- At most one user page maps the page that is evicted next. -/
def MappedOnce (mm : MmStruct) (s : Vm) : Prop :=
  ∀ v, s.Evicts mm v → ∀ la < KERNEL_BASE, ∀ la' < KERNEL_BASE,
    s.Maps mm.pgdir la v → s.Maps mm.pgdir la' v → pagNum la = pagNum la'

/-- No user page is mapped to a free frame. -/
def NoDangling (mm : MmStruct) (s : Vm) : Prop :=
  ∀ la < KERNEL_BASE, ∀ p, s.Maps mm.pgdir la p → p ∉ s.pmm.freePages

theorem Maps.eq {pgdir p p' : ℕ} {la : Word} (h : s.Maps pgdir la p) (h' : s.Maps pgdir la p') :
    p = p' :=
  h.2.symm.trans h'.2

theorem maps_of_pteAt {pgdir p : ℕ} {la : Word} (heq : t.pteAt pgdir la = s.pteAt pgdir la) :
    t.Maps pgdir la p ↔ s.Maps pgdir la p := by
  rw [Maps, Maps, heq]

/-- With the same entries and no more free pages. -/
theorem NoDangling.mono (hs : NoDangling mm s)
    (hpte : ∀ la, t.pteAt mm.pgdir la = s.pteAt mm.pgdir la)
    (hfree : t.pmm.freePages ⊆ s.pmm.freePages) : NoDangling mm t :=
  fun la hla p hm hp => hs la hla p ((maps_of_pteAt (hpte la)).mp hm) (hfree hp)

/-- An eviction removes one mapping, of the page that it frees. -/
theorem Evicted.maps_iff {v p : ℕ} {addr la : Word} (hev : Evicted s mm v addr t) :
    t.Maps mm.pgdir la p ↔ pagNum la ≠ pagNum addr ∧ s.Maps mm.pgdir la p := by
  rw [Maps, Maps, hev.pteAt]
  by_cases hla : pagNum la = pagNum addr
  · rw [if_pos hla]
    exact iff_of_false (fun hh => not_present_shiftLeft _ hh.1) fun hh => hh.1 hla
  · rw [if_neg hla]
    exact (and_iff_right hla).symm

theorem noDangling_of_mappedOnce (h : s.Space mm ram qs) (hs : NoDangling mm s) {k : ℕ} {i r : ℤ}
    (heq : swapOutLoop mm k i s = some (r, t)) (hP : Iterations mm (MappedOnce mm) k s) :
    NoDangling mm t := by
  refine (h.loop_invariant (I := NoDangling mm) (fun hu hsafe honce hone => ?_) hs hP heq).2
  rcases hu.iteration hone with ⟨v, addr, -, hev⟩ | ⟨-, hno⟩
  · intro la hla p hm
    obtain ⟨hne, hm⟩ := hev.maps_iff.mp hm
    rw [hev.free]
    rintro (hp | rfl)
    · exact hsafe la hla p hm hp
    · -- a second user page would map the victim
      exact hne (honce p hev.evicts la hla addr (hev.addr_lt hu hla hm) hm hev.maps)
  · exact hsafe.mono (hno.pteAt hu) hno.free.le

/-- A page that is mapped and free stays so: it is not on the queue. -/
theorem Space.dangling_iteration (h : s.Space mm ram qs) {o : Outcome}
    (hone : s.swapOutOne mm = some (o, t)) {la : Word} {p : ℕ} (hm : s.Maps mm.pgdir la p)
    (hfree : p ∈ s.pmm.freePages) : t.Maps mm.pgdir la p ∧ p ∈ t.pmm.freePages := by
  rcases h.iteration hone with ⟨v, addr, -, hev⟩ | ⟨-, hno⟩
  · have hqs : v ∈ qs := h.eq_cons hev.next ▸ List.mem_cons_self
    refine ⟨hev.maps_iff.mpr ⟨fun hla => ?_, hm⟩, ?_⟩
    · have hv : s.Maps mm.pgdir la v := (maps_congr hla).mpr hev.maps
      exact h.lists.notFree v hqs (hm.eq hv ▸ hfree)
    · rw [hev.free]
      exact Or.inl hfree
  · refine ⟨(maps_of_pteAt (hno.pteAt h la)).mpr hm, ?_⟩
    rw [hno.free]
    exact hfree

theorem Space.dangling_loop (h : s.Space mm ram qs) {k : ℕ} {i r : ℤ}
    (heq : swapOutLoop mm k i s = some (r, t)) (ht : NoDangling mm t) : NoDangling mm s := by
  intro la hla p hm hfree
  have hstill := (h.loop_keeps (I := fun u => u.Maps mm.pgdir la p ∧ p ∈ u.pmm.freePages)
    (fun hu hp hone => hu.dangling_iteration hone hp.1 hp.2) ⟨hm, hfree⟩ heq).2
  exact ht la hla p hstill.1 hstill.2

theorem mappedOnce_of_noDangling (h : s.Space mm ram qs) {k : ℕ} {i r : ℤ}
    (heq : swapOutLoop mm k i s = some (r, t)) (ht : NoDangling mm t) :
    Iterations mm (MappedOnce mm) k s := by
  refine h.iterations_of_end (E := fun _ => True) ?_ trivial heq
  intro s o u qs k i hs _ hone hloop
  obtain ⟨-, hu⟩ := hs.swapOutOne_eq hone
  refine ⟨fun _ => trivial, fun v he la hla la' hla' hm hm' => ?_⟩
  obtain ⟨hev, ho⟩ := he.evicted hs hone
  have hv : v ∈ u.pmm.freePages := by
    rw [hev.free]
    exact Or.inr rfl
  -- a mapping that is left would map a free page
  have hgone : ∀ a < KERNEL_BASE, s.Maps mm.pgdir a v →
      pagNum a = pagNum (s.findVaddrForPage mm v) := by
    intro a ha hma
    by_contra hne
    exact hu.dangling_loop (hloop ho) ht a ha v (hev.maps_iff.mpr ⟨hne, hma⟩) hv
  rw [hgone la hla hm, hgone la' hla' hm']

/-! ### Histories -/

/-- Pages are inserted at user addresses; they are allocated, and the permissions are flags. -/
def okUser (mm : MmStruct) (ram : Set ℕ) (s : Vm) (op : VmOp) : Prop :=
  okSpace mm ram s op ∧
    match op with
    | .pageInsert page la perm => s.Allocated ram page ∧ la < KERNEL_BASE ∧ perm < 0x1000#32
    | .pgdirAllocPage la perm => la < KERNEL_BASE ∧ perm < 0x1000#32
    | _ => True

/-- Besides, `swap_out` evicts no page that two user pages map. -/
def okMapped (mm : MmStruct) (ram : Set ℕ) (s : Vm) (op : VmOp) : Prop :=
  okUser mm ram s op ∧
    match op with
    | .swapOut n => Iterations mm (MappedOnce mm) n.toNat s
    | _ => True

theorem PageInsert.noDangling (hs : NoDangling mm s) (h : s.Space mm ram qs) {page : ℕ}
    {la perm : Word} {res : ℤ} (hins : PageInsert s mm.pgdir page la perm res t)
    (hpage : page < 2 ^ 20) (hfree : page ∉ s.pmm.freePages) (hv : pdx la ≠ pdx VPT)
    (hperm : perm < 0x1000#32) : NoDangling mm t := by
  intro la' hla' p hm hp
  have hp' := hins.freePages_subset hp
  have hpte := hins.pteAt h.pgdir h.freeLow hv (pdx_ne_vpt hla')
  split_ifs at hpte with hcase
  · rw [Maps, hpte, pagNum_entry hpage hperm] at hm
    exact hfree (hm.2 ▸ hp')
  · exact hs la' hla' p ((maps_of_pteAt hpte).mp hm) hp'

theorem exec_noDangling (h : s.Space mm ram qs) (hs : NoDangling mm s) {op : VmOp}
    (hok : okMapped mm ram s op) (heq : exec mm s op = some t) : NoDangling mm t := by
  obtain ⟨⟨hspace, hcond⟩, honce⟩ := hok
  obtain ⟨heffect, -⟩ := exec_space h hspace heq
  cases heffect with
  | exhausted => exact hs
  | allocPages ht => exact hs.mono (fun la => rfl) ht.freePages_subset
  | pageInsert hins =>
    obtain ⟨⟨hram, hfree⟩, -, hperm⟩ := hcond
    exact hins.noDangling hs h (h.low _ hram) hfree hspace hperm
  | pgdirAllocPage hall =>
    cases hall with
    | exhausted => exact hs
    | @allocated page pmm res t ht hins =>
      have hu := h.takes ht
      have hout : page ∉ (s.setPmm pmm).pmm.freePages := by
        rw [setPmm_pmm, ht.one.2]
        exact fun hh => hh.2 rfl
      have hsafe : NoDangling mm (s.setPmm pmm) :=
        hs.mono (fun la => rfl) ht.freePages_subset
      exact hins.noDangling hsafe hu (h.freeLow page ht.one.1) hout hspace hcond.2
  | mapSwappable hfree => exact hs.mono (fun la => rfl) hfree.le
  | @swapIn addr r p t hin =>
    cases p with
    | none =>
      have hsame := (hin.same h rfl).2
      exact hs.mono (hsame.pteAt h) hsame.free.le
    | some q =>
      obtain ⟨hloaded, -⟩ := hin.loaded_space h hspace
      intro la hla p hm hp
      have hpte := hloaded.pteAt la
      rw [hloaded.free] at hp
      split_ifs at hpte with hcase
      · rw [Maps, hpte, pagNum_entry (h.freeLow q hloaded.wasFree) (by decide)] at hm
        exact hp.2 hm.2.symm
      · exact hs la hla p ((maps_of_pteAt hpte).mp hm) hp.1
  | swapOut hout => exact noDangling_of_mappedOnce h hs hout honce

/-- In every state that such a history reaches, no user page is mapped to a free frame; and
`swap_out` keeps it so exactly when it evicts no page that two user pages map. -/
theorem swapOut_noDangling_iff (h : s.Space mm ram []) (hs : NoDangling mm s) {u : Vm}
    (hrun : Run (exec mm) (okMapped mm ram) s u) (n : ℤ) :
    NoDangling mm u ∧ ∃ r t, u.swapOut mm n = some (r, t) ∧
      (NoDangling mm t ↔ Iterations mm (MappedOnce mm) n.toNat u) := by
  obtain ⟨⟨qs, hspace⟩, hsafe⟩ :=
    h.run_invariant (I := NoDangling mm) (fun _ _ hok => hok.1.1)
      (fun hu hsafe hok heq => exec_noDangling hu hsafe hok heq) hs hrun
  obtain ⟨r, t, heq, -⟩ := swapOut_lists hspace.lists hspace.head n
  exact ⟨hsafe, r, t, heq, mappedOnce_of_noDangling hspace heq,
    noDangling_of_mappedOnce hspace hsafe heq⟩

/-- A queued page that two user pages map. -/
def aliasedOps : List VmOp :=
  [.allocPages 1, .mapSwappable 0#32 4, .pageInsert 4 0x400000#32 PTE_U,
    .pageInsert 4 0x800000#32 PTE_U]

theorem aliasedOps_allowed : Allowed (exec initMm) (okUser initMm (Set.Ico 4 (4 + 8))) aliasedOps
    (booted 8 1024#32) := by
  refine booted_allowed (by decide) 1024#32 (by decide) (le_refl 1) rfl ⟨le_refl 1, trivial⟩ ?_
  intro t ht hfree hpaging hmem
  refine ht.allowed_mapSwappable (by simp) (fun hp => ?_) (by simp) (fun hp => ?_)
    (fun hok => ⟨hok, trivial⟩) ?_
  · exact absurd (hfree 4 hp) (by decide)
  · exact absurd (hpaging 4 hp) (by decide)
  intro u hu hsame hmem'
  have hout : (4 : ℕ) ∉ u.pmm.freePages := fun hp => absurd (hfree 4 (hsame ▸ hp)) (by decide)
  have hram : (4 : ℕ) ∈ Set.Ico 4 (4 + 8) := by simp
  have hv : pdx 0x400000#32 ≠ pdx VPT ∧ pdx 0x800000#32 ≠ pdx VPT := by decide
  refine hu.allowed_pageInsert hv.1 ⟨hv.1, ⟨hram, hout⟩, by decide, by decide⟩ ?_
  intro w hw hsub
  refine hw.allowed_pageInsert hv.2
    ⟨hv.2, ⟨hram, fun hp => hout (hsub hp)⟩, by decide, by decide⟩ ?_
  exact fun x hx hsub' => trivial

/-- `swap_out` clears the entry at 4 MB and frees the page; the entry at 8 MB still maps it. -/
theorem swapOut_leaves_dangling :
    ∃ u r t, Run (exec initMm) (okUser initMm (Set.Ico 4 (4 + 8))) (booted 8 1024#32) u ∧
      u.swapOut initMm 1 = some (r, t) ∧ ¬ NoDangling initMm t := by
  have heq : (trial aliasedOps 1).map (fun x => decide (x.1.Evicts initMm 4 ∧
      x.1.Maps initMm.pgdir 0x400000#32 4 ∧ x.1.Maps initMm.pgdir 0x800000#32 4)) = some true := by
    decide +kernel
  obtain ⟨u, r, t, hexec, hout, hu⟩ := trial_spec heq
  have hrun := Run.of_foldlM aliasedOps_allowed hexec
  obtain ⟨hev, h4, h8⟩ := of_decide_eq_true hu
  refine ⟨u, r, t, hrun, hout, fun hsafe => ?_⟩
  obtain ⟨qs, hspace⟩ := run_space (booted_space (by decide) 1024#32 (by decide))
    (hrun.mono fun s op hok => hok.1)
  have honce := (mappedOnce_of_noDangling hspace hout hsafe).1
  exact absurd (honce 4 hev _ (by decide) _ (by decide) h4 h8) (by decide)

/-- Before the first `swap_out` no user page is mapped at all. -/
theorem booted_noDangling : NoDangling initMm (booted 8 1024#32) := by
  intro la hla p hm
  rw [Maps, booted_pteAt 1024#32 hla] at hm
  exact absurd hm.1 not_present_zero

theorem swapOut_noDangling_aliased :
    ∃ u r t, Run (exec initMm) (okMapped initMm (Set.Ico 4 (4 + 8))) (booted 8 1024#32) u ∧
      u.swapOut initMm 1 = some (r, t) ∧
      (NoDangling initMm t ↔ Iterations initMm (MappedOnce initMm) 1 u) := by
  have hsome : (aliasedOps.foldlM (exec initMm) (booted 8 1024#32)).isSome = true := by
    decide +kernel
  obtain ⟨u, heq⟩ := Option.isSome_iff_exists.mp hsome
  have hrun : Run (exec initMm) (okMapped initMm (Set.Ico 4 (4 + 8))) (booted 8 1024#32) u := by
    refine Run.of_foldlM (aliasedOps_allowed.mono fun s op hop hok => ⟨hok, ?_⟩) heq
    simp only [aliasedOps, List.mem_cons, List.not_mem_nil, or_false] at hop
    rcases hop with rfl | rfl | rfl | rfl <;> trivial
  obtain ⟨-, r, t, hout, hiff⟩ := swapOut_noDangling_iff
    (booted_space (by decide) 1024#32 (by decide)) booted_noDangling hrun 1
  exact ⟨u, r, t, hrun, hout, hiff⟩

end User

end Vm
end Zonix
