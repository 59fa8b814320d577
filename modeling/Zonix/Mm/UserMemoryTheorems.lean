import Zonix.Mm.UserMemory
import Zonix.Mm.SwapRoundTrip

/-!
# A load returns what was last stored

Whatever is allocated, mapped, evicted and loaded again between the two. Every call is one
access to the memory (`InOrder.exec`); the rest is a fact about memories.
-/

namespace Zonix
open Lib

namespace Vm

/-- The address space, the disk and the user pages are in order. -/
structure InOrder (s : Vm) (mm : MmStruct) (ram : Set ℕ) (dev : IdeDevice) : Prop where
  space : ∃ qs, s.Space mm ram qs
  disk : s.Disk dev
  backed : s.Backed mm dev

section Calls
variable {s t u : Vm} {mm : MmStruct} {ram : Set ℕ} {qs : List ℕ} {dev : IdeDevice}
  {la perm : Word} {p page table i : ℕ} {r : ℤ}

/-! ## Mapping pages -/

theorem takes_keeps {n : ℕ} {pmm : Pmm} (ht : s.pmm.Takes n page pmm) :
    s.KeepsPages mm dev (s.setPmm pmm) :=
  .of_mem (fun _ _ _ => rfl) (fun _ => rfl) ht.freePages_subset fun _ _ _ => rfl

theorem GetPte.keeps {create : Bool} {ptep : Option (ℕ × ℕ)} (h : s.Space mm ram qs)
    (hget : GetPte s mm.pgdir la create ptep t) (hv : pdx la ≠ pdx VPT) :
    s.KeepsPages mm dev t := by
  cases hget with
  | table | absent | exhausted => exact .refl s
  | created page pmm hno hc ht =>
    have hlow := h.freeLow page ht.one.1
    refine ⟨fun f hfree hpaging j => ?_, ?_, fun f hf => ?_, fun n w _ => slot_congr rfl n w⟩
    · have hdir : f ≠ mm.pgdir := fun heq => hpaging (Or.inl heq)
      have hpage : f ≠ page := fun heq => hfree (heq ▸ ht.one.1)
      rw [newTable_mem, pagNum_page2pa hlow, if_neg fun hh => hdir hh.1, if_neg hpage]
    · rw [newTable_pmm, Pmm.setRef_freePages]
      exact ht.freePages_subset
    · rcases hf with rfl | ⟨i, hi⟩
      · exact Or.inl (Or.inl rfl)
      · rw [newTable_isTable pmm h.pgdir hv ht.one.1 hlow] at hi
        split_ifs at hi
        · exact Or.inr (hi ▸ ht.one.1)
        · exact Or.inl (Or.inr ⟨i, hi⟩)

theorem mapPage_keeps (h : s.Space mm ram qs) (ht : s.IsTable mm.pgdir (pdx la) table) :
    s.KeepsPages mm dev (s.mapPage mm.pgdir page la perm table i) := by
  have hwrites := mapPage_writesEntry s mm.pgdir page la perm table i
  refine ⟨fun f _ hpaging j => ?_, ?_, fun f hf => Or.inl ?_, fun n w _ => slot_congr (by simp) n w⟩
  · rw [mapPage_mem, if_neg fun hh => hpaging (Or.inr ⟨_, hh.1 ▸ ht⟩)]
  · rw [mapPage_pmm, Pmm.setRef_freePages]
  · rwa [paging_congr (hwrites.directory h.pgdir ht)] at hf

theorem PageInsert.keeps {res : ℤ} (h : s.Space mm ram qs)
    (hins : PageInsert s mm.pgdir page la perm res t) (hv : pdx la ≠ pdx VPT) :
    s.KeepsPages mm dev t := by
  cases hins with
  | failure => exact .refl s
  | success hget =>
    have htable := (hget.isTable h.pgdir h.freeLow hv).1
    exact (hget.keeps h hv).trans (mapPage_keeps (h.getPte hget hv) htable)

namespace Backed

/-- A page of the kernel's own is entered at a user page. -/
theorem pageInsert {res : ℤ} (hb : s.Backed mm dev) (h : s.Space mm ram qs)
    (hins : PageInsert s mm.pgdir page la perm res t) (hla : la < KERNEL_BASE)
    (hpage : page < 2 ^ 20) (hperm : perm < 0x1000#32) (hfree : page ∉ s.pmm.freePages)
    (hpaging : page ∉ s.paging mm.pgdir) (hno : s.MappedNowhere mm page) :
    t.Backed mm dev ∧
      (∀ k ≠ pagNum la, t.userMemory mm dev k = s.userMemory mm dev k) ∧
      (res = INSERT_SUCCESS → t.Maps mm.pgdir la page ∧
        (s.userMemory mm dev).Sets (pagNum la) (fun w => t.mem page w) (t.userMemory mm dev)) := by
  have hv := pdx_ne_vpt hla
  have hk : s.KeepsPages mm dev t := hins.keeps h hv
  have hpte : ∀ la' < KERNEL_BASE, _ := fun la' hla' =>
    hins.pteAt h.pgdir h.freeLow hv (pdx_ne_vpt hla')
  by_cases hres : res = INSERT_SUCCESS
  · simp only [hres, true_and] at hpte
    have hout : page ∉ t.paging mm.pgdir := fun hf => (hk.paging page hf).elim hpaging hfree
    obtain ⟨ht, hm, hsets⟩ :=
      hb.entry hk hla hpte hpage hperm (fun hf => hfree (hk.free hf)) hout hno
    exact ⟨ht, hsets.others, fun _ => ⟨hm, hsets⟩⟩
  · simp only [hres, false_and, if_false] at hpte
    obtain ⟨ht, hsame⟩ := hb.same hk hpte
    exact ⟨ht, fun k _ => congrFun hsame k, fun heq => absurd heq hres⟩

/-- A free page. -/
theorem unmapped_of_free (hb : s.Backed mm dev) (hp : p ∈ s.pmm.freePages) : s.MappedNowhere mm p :=
  fun la hla hm => (hb.frame la hla p hm).1 hp

/-- A page that was taken is entered at a user page. -/
theorem insertTaken {res : ℤ} {pmm : Pmm} (hb : s.Backed mm dev) (h : s.Space mm ram qs)
    (ht : s.pmm.Takes 1 page pmm) (hins : PageInsert (s.setPmm pmm) mm.pgdir page la perm res t)
    (hla : la < KERNEL_BASE) (hperm : perm < 0x1000#32) :
    t.Backed mm dev ∧
      (∀ k ≠ pagNum la, t.userMemory mm dev k = s.userMemory mm dev k) ∧
      (res = INSERT_SUCCESS → t.Maps mm.pgdir la page ∧
        (s.userMemory mm dev).Sets (pagNum la) (fun w => t.mem page w) (t.userMemory mm dev)) := by
  obtain ⟨hfree, htaken⟩ := ht.one
  obtain ⟨hb₁, hsame⟩ := hb.same (takes_keeps ht) fun _ _ => rfl
  have hout : page ∉ (s.setPmm pmm).pmm.freePages := by
    rw [setPmm_pmm, htaken]
    exact fun hf => hf.2 rfl
  rw [← hsame]
  exact hb₁.pageInsert (h.takes ht) hins hla (h.freeLow page hfree) hperm hout
    (fun hf => h.pgdir.notFree page hf hfree) (hb.unmapped_of_free hfree)

theorem pgdirAllocPage {ptr : Option ℕ} (hb : s.Backed mm dev) (h : s.Space mm ram qs)
    (hall : PgdirAllocPage s mm.pgdir la perm ptr t) (hla : la < KERNEL_BASE)
    (hperm : perm < 0x1000#32) :
    t.Backed mm dev ∧ ∀ k ≠ pagNum la, t.userMemory mm dev k = s.userMemory mm dev k := by
  cases hall with
  | exhausted => exact ⟨hb, fun _ _ => rfl⟩
  | allocated ht hins =>
    obtain ⟨ht', hothers, -⟩ := hb.insertTaken h ht hins hla hperm
    exact ⟨ht', hothers⟩

/-! ## Swapping -/

/-- What `swap_in` loaded is the page that was swapped out. -/
theorem loaded (hb : s.Backed mm dev) (h : s.Space mm ram qs) (hd : s.Disk dev)
    (hin : SwapIn s mm la r (some p) t) (hla : la < KERNEL_BASE)
    (ho : s.SwappedOut mm.pgdir la) :
    t.Backed mm dev ∧ t.Maps mm.pgdir la p ∧ t.userMemory mm dev = s.userMemory mm dev := by
  have hv := pdx_ne_vpt hla
  obtain ⟨hloaded, -⟩ := hin.loaded_space h hv
  obtain ⟨pmm, u, table, ht, hread, hupmm, htable, hmem, heq⟩ := hin.filled h hv
  have hfree := hloaded.wasFree
  have hlow := h.freeLow p hfree
  have hdir : ∀ f ∈ s.paging mm.pgdir, f ≠ p := by
    rintro f hf rfl
    exact h.pgdir.notFree f hf hfree
  have htable' : s.IsTable mm.pgdir (pdx la) table := (isTable_congr (fun _ => rfl) _ _).mp htable
  have hother : ∀ f, f ≠ p → f ∉ s.paging mm.pgdir → ∀ j, t.mem f j = s.mem f j := by
    intro f hf hpaging j
    rw [heq]
    show (u.mapPage _ _ _ _ _ _).mem f j = _
    rw [mapPage_mem, if_neg fun hh => hpaging (Or.inr ⟨_, hh.1 ▸ htable'⟩), hmem f hf]
  have hslots := (hin.disk h hd).2
  have hk : s.KeepsPages mm dev t := by
    refine ⟨fun f hf hpaging => hother f ?_ hpaging, ?_, fun f hf => Or.inl ?_,
      fun n w _ => hslots n w⟩
    · rintro rfl
      exact hf hfree
    · rw [hloaded.free]
      exact Set.sdiff_subset
    · rwa [paging_congr hloaded.dir] at hf
  have hpte : ∀ la' < KERNEL_BASE, _ := fun la' _ => hloaded.pteAt la'
  obtain ⟨ht', hm, hsets⟩ := hb.entry hk hla hpte hlow (by decide)
    (by rw [hloaded.free]; exact fun hf => hf.2 rfl)
    (by rw [paging_congr hloaded.dir]; exact fun hf => hdir p hf rfl) (hb.unmapped_of_free hfree)
  refine ⟨ht', hm, funext fun k => ?_⟩
  by_cases hk' : k = pagNum la
  · subst hk'
    rw [hsets.page, userMemory_page hla, content_of_swappedOut ho]
    congr 1
    funext w
    -- the frame was filled from the slot, and the entry was written to another
    have hd' : (s.setPmm pmm).Disk dev := hd.of_eq rfl rfl
    have hcontent := (swapfsRead_disk hd' (s.pteAt mm.pgdir la) hlow).2.2.2
    rw [hread] at hcontent
    have hne : p ≠ table := fun heq' => hdir table (Or.inr ⟨_, htable'⟩) heq'.symm
    rw [heq]
    show (u.mapPage _ _ _ _ _ _).mem p w = _
    rw [mapPage_mem, if_neg fun hh => hne hh.1]
    exact hcontent rfl w w.isLt
  · exact hsets.others k hk'

theorem swapIn {ptr : Option ℕ} (hb : s.Backed mm dev) (h : s.Space mm ram qs) (hd : s.Disk dev)
    (hin : SwapIn s mm la r ptr t) (hla : la < KERNEL_BASE) (ho : s.SwappedOut mm.pgdir la) :
    t.Backed mm dev ∧ t.userMemory mm dev = s.userMemory mm dev := by
  cases ptr with
  | some q =>
    obtain ⟨ht, -, hmem⟩ := hb.loaded h hd hin hla ho
    exact ⟨ht, hmem⟩
  | none =>
    have hsame := (hin.same h rfl).2
    refine hb.same (.of_mem hsame.mem ?_ hsame.free.subset ?_) fun la' _ => hsame.pteAt h la'
    · exact hsame.mem _ (h.pgdir.notFree _ (Or.inl rfl))
    · exact fun n w _ => (hin.disk h hd).2 n w

/-- An eviction from a user page to a slot in which no user page is, or from the kernel's alias
of the frame. -/
theorem evicted (hb : s.Backed mm dev) (h : s.Space mm ram qs) (hd : s.Disk dev) {addr : Word}
    (hev : Evicted s mm p addr t) (hfree : SlotFree mm s)
    (hslot : ∀ n w, w < 1024 → t.slot dev n w =
      if n = slotNum (s.swapOffset <<< 8) then s.mem p w else s.slot dev n w) :
    t.Backed mm dev ∧ t.userMemory mm dev = s.userMemory mm dev := by
  obtain ⟨hne, hunused⟩ := hfree p hev.evicts
  have hqs : p ∈ qs := h.eq_cons hev.next ▸ List.mem_cons_self
  have hlow := h.low p (h.lists.inRam p hqs)
  have hd' : (s.dequeued p).Disk dev := hd.of_eq rfl rfl
  have hfits : Fits dev (s.swapOffset <<< 8) :=
    (swapfsWrite_disk hd' (s.swapOffset <<< 8) hlow).2.1.mp hev.written
  have hat : ∀ la, pagNum la = pagNum addr → t.pteAt mm.pgdir la = s.swapOffset <<< 8 := by
    intro la hpage
    rw [hev.pteAt, if_pos hpage]
  have hother : ∀ la, pagNum la ≠ pagNum addr → t.pteAt mm.pgdir la = s.pteAt mm.pgdir la := by
    intro la hpage
    rw [hev.pteAt, if_neg hpage]
  refine ⟨⟨fun la hla la' hla' f hm hm' => ?_, fun la hla f hm => ?_, fun la hla ho => ?_⟩,
    funext fun k => userMemory_eq_of fun la hla _ => ?_⟩
  · exact hb.once la hla la' hla' f (hev.maps_iff.mp hm).2 (hev.maps_iff.mp hm').2
  · obtain ⟨hpage, hs⟩ := hev.maps_iff.mp hm
    obtain ⟨hf, hpaging⟩ := hb.frame la hla f hs
    rw [hev.free, paging_congr hev.dir]
    refine ⟨?_, hpaging⟩
    rintro (hf' | rfl)
    · exact hf hf'
    · -- the victim was mapped at one user page, which is not any more
      exact hpage (hb.once la hla addr (hev.addr_lt h hla hs) f hs hev.maps)
  · by_cases hpage : pagNum la = pagNum addr
    · rw [hat la hpage]
      exact ⟨hfits, s.swapOffset, rfl⟩
    · rw [hother la hpage]
      exact hb.slot la hla ((swappedOut_congr (hother la hpage)).mp ho)
  · by_cases hpage : pagNum la = pagNum addr
    · have hm : s.Maps mm.pgdir la p := (maps_congr hpage).mpr hev.maps
      have ho : t.SwappedOut mm.pgdir la := by
        rw [SwappedOut, hat la hpage]
        exact ⟨hne, not_present_shiftLeft _⟩
      rw [content_of_maps hm, content_of_swappedOut ho, hat la hpage]
      congr 1
      funext w
      rw [hslot _ w w.isLt, if_pos rfl]
    · refine content_congr (hother la hpage) (fun f hm => ?_) fun ho w hw => ?_
      · exact hev.mem f (hb.frame la hla f hm).2
      · rw [hslot _ w hw, if_neg]
        intro hnum
        obtain ⟨-, off, hoff⟩ := hb.slot la hla ho
        rw [hoff] at hnum
        exact hunused la hla ho (hoff.trans (slotNum_inj hnum))

theorem swapOut (hb : s.Backed mm dev) (h : s.Space mm ram qs) (hd : s.Disk dev) {n : ℤ}
    (hout : s.swapOut mm n = some (r, t)) (hfree : Iterations mm (SlotFree mm) n.toNat s) :
    t.Backed mm dev ∧ t.userMemory mm dev = s.userMemory mm dev := by
  refine (h.loop_invariant (I := fun u => u.Disk dev ∧ u.Backed mm dev ∧
    u.userMemory mm dev = s.userMemory mm dev) ?_ ⟨hd, hb, rfl⟩ hfree hout).2.2
  rintro v o w qs' hv ⟨hdv, hbv, hmem⟩ hslot hone
  obtain ⟨ho, -⟩ := hv.swapOutOne_eq hone
  obtain ⟨hdw, hslots⟩ := ho.disk hv hdv
  refine ⟨hdw, ?_⟩
  rw [← hmem]
  cases o with
  | evicted q addr => exact hbv.evicted hv hdv (hv.iteration_evicted hone) hslot hslots
  | stop | skip =>
    have hsame := ho.same hv (by simp)
    refine hbv.same (.of_mem hsame.mem ?_ hsame.free.subset hslots) fun la _ => hsame.pteAt hv la
    exact hsame.mem _ (hv.pgdir.notFree _ (Or.inl rfl))

/-- A call that takes or gives back no user page. -/
theorem freed {pmm : Pmm} (hb : s.Backed mm dev) (hno : s.MappedNowhere mm page)
    (hfree : pmm.freePages = s.pmm.freePages ∪ {page}) :
    (s.setPmm pmm).Backed mm dev ∧ (s.setPmm pmm).userMemory mm dev = s.userMemory mm dev := by
  refine ⟨⟨hb.once, fun la hla f hm => ⟨?_, (hb.frame la hla f hm).2⟩, hb.slot⟩, rfl⟩
  rw [setPmm_pmm, hfree]
  rintro (hf | rfl)
  · exact (hb.frame la hla f hm).1 hf
  · exact hno la hla hm

/-- A word of a mapped page is written. -/
theorem write (hb : s.Backed mm dev) (h : s.Space mm ram qs) (hla : la < KERNEL_BASE)
    (hm : s.Maps mm.pgdir la p) (i : Fin 1024) (v : Word) :
    (s.setWord p i v).Space mm ram qs ∧ (s.setWord p i v).Backed mm dev ∧
      (s.userMemory mm dev).Sets (pagNum la) (Function.update (fun w => s.mem p w) i v)
        ((s.setWord p i v).userMemory mm dev) := by
  obtain ⟨hfree, hpaging⟩ := hb.frame la hla p hm
  have hother : ∀ f, f ≠ p → ∀ j, (s.setWord p i v).mem f j = s.mem f j := by
    intro f hf j
    rw [setWord_mem, if_neg fun hh => hf hh.1]
  have hdir : ∀ j, (s.setWord p i v).mem mm.pgdir j = s.mem mm.pgdir j :=
    hother _ fun heq => hpaging (Or.inl heq.symm)
  have hpte : ∀ la, (s.setWord p i v).pteAt mm.pgdir la = s.pteAt mm.pgdir la := by
    refine h.pteAt_congr fun f hf => hother f ?_
    rintro rfl
    exact hpaging hf
  have hmaps : ∀ la f, (s.setWord p i v).Maps mm.pgdir la f ↔ s.Maps mm.pgdir la f :=
    fun la f => maps_of_pteAt (hpte la)
  refine ⟨h.congr h.lists hdir h.pgdir.notFree h.data,
    ⟨fun la₁ h₁ la₂ h₂ f hm₁ hm₂ => ?_, fun la' hla' f hm' => ?_, fun la' hla' ho => ?_⟩,
    ?_, fun k hk => userMemory_eq_of ?_⟩
  · exact hb.once la₁ h₁ la₂ h₂ f ((hmaps la₁ f).mp hm₁) ((hmaps la₂ f).mp hm₂)
  · rw [paging_congr hdir]
    exact hb.frame la' hla' f ((hmaps la' f).mp hm')
  · rw [hpte]
    exact hb.slot la' hla' ((swappedOut_congr (hpte la')).mp ho)
  · rw [userMemory_page hla, content_of_maps ((hmaps la p).mpr hm)]
    congr 1
    funext w
    rw [setWord_mem, Function.update_apply]
    simp only [true_and, Fin.val_inj]
  · rintro la' hla' rfl
    refine content_congr (hpte la') (fun f hm' => hother f ?_) fun _ _ _ => rfl
    rintro rfl
    exact hk (hb.once la' hla' la hla f hm' hm)

end Backed

/-! ## Accesses -/

theorem touch_maps (hm : s.Maps mm.pgdir la p) (faults : ℕ) :
    touch mm la faults s = some (p, s) := by
  have hframe : s.frameOf mm la = some p := by
    rw [frameOf, walk, if_pos hm.1, Option.map_some, hm.2]
  cases faults <;> simp [touch, hframe]

/-- One fault brings the page in. -/
theorem touch_fault (hno : ¬ Present (s.pteAt mm.pgdir la))
    (heq : s.vmmPgFault mm la = some (r, t)) (hm : t.Maps mm.pgdir la p) {faults : ℕ}
    (hpos : 0 < faults) : touch mm la faults s = some (p, t) := by
  obtain ⟨k, rfl⟩ : ∃ k, faults = k + 1 := ⟨faults - 1, by omega⟩
  have hframe : s.frameOf mm la = none := by rw [frameOf, walk, if_neg hno, Option.map_none]
  simp only [touch, hframe, heq, Option.bind_eq_bind, Option.bind_some]
  exact touch_maps hm k

/-- The page has been brought in. -/
structure Touched (s : Vm) (mm : MmStruct) (ram : Set ℕ) (dev : IdeDevice) (la : Word) (p : ℕ)
    (t : Vm) : Prop where
  inOrder : t.InOrder mm ram dev
  maps : t.Maps mm.pgdir la p
  fits : (s.userMemory mm dev).Fits (pagNum la) fun w => t.mem p w
  sets : (s.userMemory mm dev).Sets (pagNum la) (fun w => t.mem p w) (t.userMemory mm dev)

/-- Nothing that the program sees has changed. -/
theorem Touched.of_same (ht : t.InOrder mm ram dev) (hla : la < KERNEL_BASE)
    (hm : t.Maps mm.pgdir la p) (hmem : t.userMemory mm dev = s.userMemory mm dev) :
    s.Touched mm ram dev la p t := by
  have hpage : t.userMemory mm dev (pagNum la) = some fun w : Fin 1024 => t.mem p w := by
    rw [userMemory_page hla, content_of_maps hm]
  refine ⟨ht, hm, fun c hc => ?_, hpage, fun k _ => congrFun hmem k⟩
  rw [← hmem, hpage] at hc
  exact (Option.some.inj hc).symm

namespace InOrder

/-- The page had no content. -/
theorem demand (h : s.InOrder mm ram dev) (hla : la < KERNEL_BASE)
    (hp : Present (s.mem mm.pgdir (pdx la))) (hz : s.pteAt mm.pgdir la = 0#32)
    (hfree : 1 ≤ s.pmm.nrFree) :
    ∃ ptr t f, s.pgdirAllocPage mm.pgdir (roundDown la) PTE_U = some (ptr, t) ∧
      s.Touched mm ram dev la f t := by
  obtain ⟨qs, hspace⟩ := h.space
  obtain ⟨bs, hinv⟩ := hspace.lists.free
  have hpage := pagNum_roundDown la
  have hla' : roundDown la < KERNEL_BASE := by
    rw [← pagNum_lt_kernelBase, hpage]
    exact pagNum_lt_kernelBase.mpr hla
  obtain ⟨ptr, t, heq, hall⟩ := pgdirAllocPage_spec hinv mm.pgdir (roundDown la) PTE_U
  have ht := hspace.pgdirAllocPage hall (pdx_ne_vpt hla')
  cases hall with
  | exhausted hempty =>
    have hnone := hinv.nrFree_eq_zero_iff.mpr hempty
    omega
  | @allocated page pmm res _ htakes hins =>
    have hdisk : t.Disk dev := h.disk.of_eq hins.keeps_disk.1 hins.keeps_disk.2
    obtain ⟨hb, -, hsucc⟩ := h.backed.insertTaken hspace htakes hins hla' (by decide)
    have hres : res = INSERT_SUCCESS := by
      cases hins with
      | success => rfl
      | failure hno =>
        rw [pdx_roundDown] at hno
        exact absurd hp hno
    obtain ⟨hm, hsets⟩ := hsucc hres
    rw [hpage] at hsets
    refine ⟨_, t, page, heq, ⟨⟨qs, ht⟩, hdisk, hb⟩, (maps_congr hpage).mp hm, fun c hc => ?_, hsets⟩
    rw [userMemory_page hla, content_of_empty hz] at hc
    exact absurd hc (by simp)

/-- A fault on a page that is not present brings it in. -/
theorem fault (h : s.InOrder mm ram dev) (hla : la < KERNEL_BASE) (hs : s.Served mm la)
    (hno : ¬ Present (s.pteAt mm.pgdir la)) :
    ∃ r t f, s.vmmPgFault mm la = some (r, t) ∧ s.Touched mm ram dev la f t := by
  obtain ⟨qs, hspace⟩ := h.space
  obtain ⟨bs, hinv⟩ := hspace.lists.free
  have hfree := hs hno
  have hv := pdx_ne_vpt hla
  have hpage := pagNum_roundDown la
  by_cases hp : Present (s.mem mm.pgdir (pdx la))
  · rw [if_pos hp] at hfree
    rw [vmmPgFault_table hp]
    by_cases hz : s.pteAt mm.pgdir la = 0#32
    · rw [if_pos hz]
      obtain ⟨ptr, t, f, heq, ht⟩ := h.demand hla hp hz hfree
      exact ⟨0, t, f, by rw [heq]; rfl, ht⟩
    · rw [if_neg hz]
      have hpte := s.pteAt_page mm.pgdir hpage
      have ho : s.SwappedOut mm.pgdir (roundDown la) := by
        rw [SwappedOut, hpte]
        exact ⟨hz, hno⟩
      have hla' : roundDown la < KERNEL_BASE := by
        rw [← pagNum_lt_kernelBase, hpage]
        exact pagNum_lt_kernelBase.mpr hla
      have hp' : Present (s.mem mm.pgdir (pdx (roundDown la))) := by
        rw [pdx_roundDown]
        exact hp
      have hsome : s.pmm.freePages ≠ ∅ := fun hempty => by
        have hnone := hinv.nrFree_eq_zero_iff.mpr hempty
        omega
      obtain ⟨q, t, heq, -, ht, -⟩ := swapIn_loads hspace h.disk (pdx_ne_vpt hla') hp'
        (h.backed.slot _ hla' ho).1 hsome
      obtain ⟨r', ptr', t', heq', hin, -⟩ := swapIn_spec hspace.lists hspace.head (roundDown la)
      obtain ⟨rfl, hrest⟩ := Prod.mk.inj (Option.some.inj (heq.symm.trans heq'))
      obtain ⟨rfl, rfl⟩ := Prod.mk.inj hrest
      obtain ⟨hb, hm, hmem⟩ := h.backed.loaded hspace h.disk hin hla' ho
      refine ⟨0, t, q, by rw [heq]; rfl, .of_same ⟨⟨_, ht⟩, (hin.disk hspace h.disk).1, hb⟩ hla
        ((maps_congr hpage).mp hm) hmem⟩
  · -- the page table comes first
    rw [if_neg hp] at hfree
    have hv' : pdx (roundDown la) ≠ pdx VPT := by
      rw [pdx_roundDown]
      exact hv
    obtain ⟨ptep, u, hget, hspec⟩ := getPte_spec hinv mm.pgdir (roundDown la) true
    have hu := hspace.getPte hspec hv'
    have hk : s.KeepsPages mm dev u := hspec.keeps hspace hv'
    obtain ⟨hb, hmem⟩ := h.backed.same hk fun la' hla' =>
      hspec.pteAt hspace.pgdir hspace.freeLow hv' (pdx_ne_vpt hla')
    have hpte := hspec.pteAt hspace.pgdir hspace.freeLow hv' hv
    cases hspec with
    | table hp' =>
      rw [pdx_roundDown] at hp'
      exact absurd hp' hp
    | absent _ hc => exact absurd hc (by decide)
    | exhausted _ _ hempty =>
      have hnone := hinv.nrFree_eq_zero_iff.mpr hempty
      omega
    | created page pmm hp' hc htakes =>
      have hpde : Present
          ((s.newTable mm.pgdir (roundDown la) page pmm).mem mm.pgdir (pdx la)) := by
        rw [newTable_directory _ pmm hspace.pgdir htakes.one.1 (hspace.freeLow page htakes.one.1),
          if_pos (pdx_roundDown la).symm]
        exact (present_or _ _).mpr (Or.inr present_PTE_USER)
      have hz : (s.newTable mm.pgdir (roundDown la) page pmm).pteAt mm.pgdir la = 0#32 := by
        rw [hpte, pteAt_of_not_present hp]
      have hleft : 1 ≤ (s.newTable mm.pgdir (roundDown la) page pmm).pmm.nrFree := by
        rw [newTable_pmm, Pmm.setRef_nrFree, htakes.nrFree]
        omega
      have hin : (s.newTable mm.pgdir (roundDown la) page pmm).InOrder mm ram dev :=
        ⟨⟨qs, hu⟩, h.disk.of_eq rfl rfl, hb⟩
      obtain ⟨ptr, t, f, heq, ht⟩ := hin.demand hla hpde hz hleft
      rw [ptx_roundDown] at hget
      refine ⟨0, t, f, ?_, ht.inOrder, ht.maps, hmem ▸ ht.fits, hmem ▸ ht.sets⟩
      rw [vmmPgFault_newTable hspace hget htakes, heq]
      rfl

theorem touched (h : s.InOrder mm ram dev) (hla : la < KERNEL_BASE) (hs : s.Served mm la)
    {faults : ℕ} (hpos : 0 < faults) :
    ∃ f t, touch mm la faults s = some (f, t) ∧ s.Touched mm ram dev la f t := by
  by_cases hp : Present (s.pteAt mm.pgdir la)
  · exact ⟨_, s, touch_maps ⟨hp, rfl⟩ faults, .of_same h hla ⟨hp, rfl⟩ rfl⟩
  · obtain ⟨r, t, f, heq, ht⟩ := h.fault hla hs hp
    exact ⟨f, t, touch_fault hp heq ht.maps hpos, ht⟩

/-! ## Every operation is an access -/

/-- The calls. -/
theorem call (h : s.InOrder mm ram dev) {op : VmOp} (hok : okMem mm ram s (.call op)) :
    ∃ t, exec mm s op = some t ∧ t.InOrder mm ram dev ∧
      (s.userMemory mm dev).Step ((MemOp.call op).access none) (t.userMemory mm dev) := by
  obtain ⟨qs, hspace⟩ := h.space
  obtain ⟨bs, hinv⟩ := hspace.lists.free
  -- a call that the program does not see
  have hsilent : ∀ {t : Vm} {qs' : List ℕ}, t.Space mm ram qs' → t.Disk dev →
      t.Backed mm dev ∧ t.userMemory mm dev = s.userMemory mm dev →
      t.InOrder mm ram dev ∧ (s.userMemory mm dev).Step .silent (t.userMemory mm dev) := by
    rintro t qs' hsp hd ⟨hb, hmem⟩
    rw [hmem]
    exact ⟨⟨⟨qs', hsp⟩, hd, hb⟩, .silent⟩
  cases op with
  | allocPages n =>
    rcases hinv.alloc_cases hok with ⟨hall, -⟩ | ⟨page, pmm, hall, ht⟩
    · refine ⟨s, ?_, hsilent hspace h.disk ⟨h.backed, rfl⟩⟩
      simp [exec, allocPages, hall, setPmm]
    · refine ⟨s.setPmm pmm, ?_, hsilent (hspace.takes ht) (h.disk.of_eq rfl rfl)
        (h.backed.same (takes_keeps ht) fun _ _ => rfl)⟩
      simp [exec, allocPages, hall]
  | pagesFree page =>
    obtain ⟨⟨hram, hfree⟩, hq, hpaging, hno⟩ := hok
    rw [queued_iff hspace.lists hspace.head] at hq
    obtain ⟨pmm, hgive, hg, hlists⟩ := hspace.lists.free_one hram hfree hq
    refine ⟨s.setPmm pmm, by rw [exec, pagesFree, hgive]; rfl, @hsilent _ qs ?_
      (h.disk.of_eq rfl rfl) (h.backed.freed hno hg.one)⟩
    refine hspace.congr hlists (fun _ => rfl) (fun f hf => ?_) hspace.data
    rw [setPmm_pmm, hg.one]
    rintro (hf' | rfl)
    · exact hspace.pgdir.notFree f hf hf'
    · exact hpaging hf
  | getPte la create =>
    have hv := pdx_ne_vpt hok
    obtain ⟨ptep, t, hget, hspec⟩ := getPte_spec hinv mm.pgdir la create
    have hd : t.Disk dev := by
      cases hspec with
      | table | absent | exhausted => exact h.disk
      | created => exact h.disk.of_eq rfl rfl
    exact ⟨t, by rw [exec, hget]; rfl, hsilent (hspace.getPte hspec hv) hd
      (h.backed.same (hspec.keeps hspace hv) fun la' hla' =>
        hspec.pteAt hspace.pgdir hspace.freeLow hv (pdx_ne_vpt hla'))⟩
  | pageInsert page la perm =>
    obtain ⟨hla, hperm, ⟨hram, hfree⟩, hpaging, hno⟩ := hok
    obtain ⟨res, t, hins, hspec⟩ := pageInsert_spec hinv mm.pgdir page la perm
    obtain ⟨hb, hothers, -⟩ := h.backed.pageInsert hspace hspec hla (hspace.low page hram) hperm
      hfree hpaging hno
    exact ⟨t, by rw [exec, hins]; rfl, ⟨⟨qs, hspace.pageInsert hspec (pdx_ne_vpt hla)⟩,
      h.disk.of_eq hspec.keeps_disk.1 hspec.keeps_disk.2, hb⟩, .replace hothers⟩
  | pgdirAllocPage la perm =>
    obtain ⟨hla, hperm⟩ := hok
    obtain ⟨ptr, t, hall, hspec⟩ := pgdirAllocPage_spec hinv mm.pgdir la perm
    obtain ⟨hb, hothers⟩ := h.backed.pgdirAllocPage hspace hspec hla hperm
    have hv : okSpace mm ram s (.pgdirAllocPage la perm) := pdx_ne_vpt hla
    have hexec : exec mm s (.pgdirAllocPage la perm) = some t := by rw [exec, hall]; rfl
    exact ⟨t, hexec, ⟨⟨qs, hspace.pgdirAllocPage hspec hv⟩, exec_disk hspace h.disk hv hexec, hb⟩,
      .replace hothers⟩
  | mapSwappable addr page =>
    obtain ⟨⟨hram, hfree⟩, hq, hpaging⟩ := hok
    rw [queued_iff hspace.lists hspace.head] at hq
    have hsame : (s.swapFifoMapSwappable mm page).pmm.freePages = s.pmm.freePages := by
      rw [swapFifoMapSwappable, hspace.head]
      exact (hspace.lists.enqueue hram hfree hq).2
    refine ⟨_, rfl, hsilent (hspace.mapSwappable hram hfree hq hpaging) (h.disk.of_eq rfl rfl)
      (h.backed.same ?_ fun _ _ => rfl)⟩
    exact .of_mem (fun _ _ _ => rfl) (fun _ => rfl) hsame.subset fun _ _ _ => rfl
  | swapIn addr =>
    obtain ⟨hla, ho⟩ := hok
    obtain ⟨r, ptr, t, heq, hin, hlists⟩ := swapIn_spec hspace.lists hspace.head addr
    exact ⟨t, by rw [exec, heq]; rfl, hsilent (hspace.swapIn hin hlists (pdx_ne_vpt hla))
      (hin.disk hspace h.disk).1 (h.backed.swapIn hspace h.disk hin hla ho)⟩
  | swapOut n =>
    obtain ⟨r, t, heq, -⟩ := swapOut_lists hspace.lists hspace.head n
    obtain ⟨qs', ht⟩ := hspace.swapOut heq
    have hany : okSpace mm ram s (.swapOut n) := trivial
    have hexec : exec mm s (.swapOut n) = some t := by rw [exec, heq]; rfl
    exact ⟨t, hexec, hsilent ht (exec_disk hspace h.disk hany hexec)
      (h.backed.swapOut hspace h.disk heq hok)⟩
  | pgFault => exact hok.elim

theorem exec (h : s.InOrder mm ram dev) {faults : ℕ} (hpos : 0 < faults) {op : MemOp}
    (hok : okMem mm ram s op) :
    ∃ answer t, execMem mm faults s op = some (answer, t) ∧ t.InOrder mm ram dev ∧
      (s.userMemory mm dev).Step (op.access answer) (t.userMemory mm dev) := by
  cases op with
  | load la =>
    obtain ⟨f, t, heq, ht⟩ := h.touched hok.1 hok.2 hpos
    refine ⟨some (t.mem f (wordOf la)), t, ?_, ht.inOrder, .load ht.fits ht.sets⟩
    simp [execMem, heq]
  | store la v =>
    obtain ⟨f, t, heq, ht⟩ := h.touched hok.1 hok.2 hpos
    obtain ⟨qs, hspace⟩ := ht.inOrder.space
    obtain ⟨hw, hb, hsets⟩ := ht.inOrder.backed.write hspace hok.1 ht.maps (wordOf la) v
    refine ⟨none, t.setWord f (wordOf la) v, ?_, ⟨⟨qs, hw⟩, ht.inOrder.disk.of_eq rfl rfl, hb⟩,
      .store ht.fits ⟨hsets.page, fun k hk => ?_⟩⟩
    · simp [execMem, heq]
    · rw [hsets.others k hk, ht.sets.others k hk]
  | call op =>
    obtain ⟨t, heq, ht, hstep⟩ := h.call hok
    refine ⟨none, t, ?_, ht, hstep⟩
    rw [execMem, heq]
    rfl

end InOrder

/-! ## Histories -/

/-- The operation neither stores to the word of `la` nor gives its page another content. -/
def MemOp.Spares (la : Word) : MemOp → Prop
  | .store la' _ => pagNum la' = pagNum la → wordOf la' ≠ wordOf la
  | .call (.pageInsert _ la' _) | .call (.pgdirAllocPage la' _) => pagNum la' ≠ pagNum la
  | _ => True

theorem MemOp.Spares.access {op : MemOp} (h : op.Spares la) (answer : Option Word) :
    (op.access answer).Spares (pagNum la) (wordOf la) := by
  cases op with
  | load => trivial
  | store => exact h
  | call op => cases op <;> exact h

/-- In a history of loads and stores below `KERNEL_BASE` and of calls of the kernel, in any order,
every operation comes back, and a load returns what was last stored to its word, wherever the page
was in between. -/
theorem load_returns_last_store (h : s.InOrder mm ram dev) {faults : ℕ} (hpos : 0 < faults)
    {pre mid : List MemOp} {v : Word}
    (hok : Allowed (states (execMem mm faults)) (okMem mm ram)
      (pre ++ (.store la v :: (mid ++ [.load la]))) s)
    (hmid : ∀ op ∈ mid, op.Spares la) :
    ∃ answers t, outputs (execMem mm faults) (pre ++ (.store la v :: (mid ++ [.load la]))) s =
      some (answers ++ [some v], t) ∧ t.InOrder mm ram dev := by
  have hstep : ∀ (u : Vm) (op : MemOp), u.InOrder mm ram dev → okMem mm ram u op →
      ∃ answer t, execMem mm faults u op = some (answer, t) ∧ t.InOrder mm ram dev ∧
        (u.userMemory mm dev).Step (op.access answer) (t.userMemory mm dev) :=
    fun u op hu hop => hu.exec hpos hop
  obtain ⟨answers, answer, t, u, heq, ht, hload, hv⟩ :=
    Memory.outputs_load hstep hok h (fun _ => rfl) fun op hop answer => (hmid op hop).access answer
  obtain ⟨x, -, hx⟩ := Option.bind_eq_some_iff.mp hload
  obtain ⟨rfl, -⟩ := Prod.mk.inj (Option.some.inj hx)
  have hval : x.2.mem x.1 (wordOf la) = v := hv _ rfl
  rw [hval] at heq
  exact ⟨answers, t, heq, ht⟩

end Calls

/-! ## On the small machine -/

instance (s : Vm) (mm : MmStruct) (la : Word) : Decidable (s.Served mm la) :=
  inferInstanceAs (Decidable (_ → _))

theorem booted_inOrder : (booted 8 2048#32).InOrder initMm (Set.Ico 4 (4 + 8))
    ⟨0#8, 0x1F0#16, 2048#32, true⟩ := by
  have hnone : ∀ la < KERNEL_BASE, ∀ f, ¬ (booted 8 2048#32).Maps initMm.pgdir la f := by
    intro la hla f hm
    rw [Maps, booted_pteAt 2048#32 hla] at hm
    exact not_present_zero hm.1
  refine ⟨⟨[], booted_space (by decide) 2048#32 (by decide)⟩, booted_disk 2048#32, ?_⟩
  exact ⟨fun la hla _ _ f hm => absurd hm (hnone la hla f),
    fun la hla f hm => absurd hm (hnone la hla f),
    fun la _ ho => absurd ho (booted_swappedOut 8 2048#32 la)⟩

/-- The calls of a history, and what comes after them. -/
theorem Allowed.calls {mm : MmStruct} {ram : Set ℕ} {faults : ℕ} {ops : List VmOp}
    {rest : List MemOp} {s : Vm}
    (h : Allowed (exec mm) (fun s op => okMem mm ram s (.call op)) ops s)
    (hrest : ∀ t, ops.foldlM (exec mm) s = some t →
      Allowed (states (execMem mm faults)) (okMem mm ram) rest t) :
    Allowed (states (execMem mm faults)) (okMem mm ram) (ops.map MemOp.call ++ rest) s := by
  induction ops generalizing s with
  | nil => exact hrest s rfl
  | cons op ops ih =>
    refine ⟨h.1, fun t ht => ?_⟩
    have hexec : exec mm s op = some t := by
      rw [states, execMem, Option.map_map] at ht
      simpa using ht
    refine ih (h.2 t hexec) fun u hu => hrest u ?_
    rw [List.foldlM_cons, hexec]
    exact hu

/-- Page 4 is queued and mapped at 4 MB. -/
theorem mappedOps_calls : Allowed (exec initMm)
    (fun s op => okMem initMm (Set.Ico 4 (4 + 8)) s (.call op)) mappedOps (booted 8 2048#32) := by
  refine booted_allowed (by decide) 2048#32 (by decide) (le_refl 1) rfl (le_refl 1) ?_
  intro t ht hfree hpaging hmem
  have hout : 4 ∉ t.pmm.freePages := fun hp => absurd (hfree 4 hp) (by decide)
  have htable : 4 ∉ t.paging initMm.pgdir := fun hp => absurd (hpaging 4 hp) (by decide)
  refine ht.allowed_mapSwappable (by simp) hout (by simp) htable id ?_
  intro u hu hsame hmem'
  have hla : 0x400000#32 < KERNEL_BASE := by decide
  refine hu.allowed_pageInsert (pdx_ne_vpt hla) ⟨hla, by decide, ⟨by simp, ?_⟩, ?_, ?_⟩
    fun w hw hsub => trivial
  · rw [hsame]
    exact hout
  · have hsame' : u.paging initMm.pgdir = t.paging initMm.pgdir :=
      paging_congr fun j => by rw [hmem']
    rw [hsame']
    exact htable
  · intro la hla hm
    have hpte : u.pteAt initMm.pgdir la = (booted 8 2048#32).pteAt initMm.pgdir la := by
      rw [pteAt, pteAt, hmem', hmem]
    rw [Maps, hpte, booted_pteAt 2048#32 hla] at hm
    exact not_present_zero hm.1

/-- Every entry of a user page is present or empty. -/
def NothingOut (s : Vm) : Prop :=
  ∀ d < 768, Present (s.mem initMm.pgdir d) → ∀ i < 1024,
    s.mem (pagNum (s.mem initMm.pgdir d)) i = 0#32 ∨
      Present (s.mem (pagNum (s.mem initMm.pgdir d)) i)

instance (s : Vm) : Decidable s.NothingOut :=
  decidable_of_iff (∀ d < 768, Present (s.mem initMm.pgdir d) → ∀ i < 1024,
    s.mem (pagNum (s.mem initMm.pgdir d)) i = 0#32 ∨
      Present (s.mem (pagNum (s.mem initMm.pgdir d)) i)) Iff.rfl

theorem NothingOut.swappedOut {s : Vm} (h : s.NothingOut) {la : Word} (hla : la < KERNEL_BASE) :
    ¬ s.SwappedOut initMm.pgdir la := by
  rintro ⟨hz, hp⟩
  rw [pteAt] at hz hp
  split_ifs at hz hp with hpde
  · exact (h _ (lt_kernelBase_iff.mp hla) hpde _ (ptx_lt la)).elim hz hp
  · exact hz rfl

/-- The page at 4 MB is stored to, evicted, and loaded from. -/
theorem load_returns_last_store_evicted : ∃ answers t,
    outputs (execMem initMm 1) (mappedOps.map MemOp.call ++
      (.store 0x400000#32 7#32 :: ([.call (.swapOut 1)] ++ [.load 0x400000#32])))
      (booted 8 2048#32) = some (answers ++ [some 7#32], t) := by
  have heq : ((mappedOps.foldlM (exec initMm) (booted 8 2048#32)).bind fun u =>
      (execMem initMm 1 u (.store 0x400000#32 7#32)).bind fun x =>
        (exec initMm x.2 (.swapOut 1)).map fun y => decide (u.Served initMm 0x400000#32 ∧
          x.2.NothingOut ∧ x.2.swapOffset = 1#32 ∧ y.Served initMm 0x400000#32)) =
      some true := by decide +kernel
  obtain ⟨u, hu, heq⟩ := Option.bind_eq_some_iff.mp heq
  obtain ⟨⟨answer, x⟩, hx, heq⟩ := Option.bind_eq_some_iff.mp heq
  obtain ⟨y, hy, heq⟩ := Option.map_eq_some_iff.mp heq
  obtain ⟨hsu, hnone, hoff, hsy⟩ := of_decide_eq_true heq
  have hfree : SlotFree initMm x := by
    intro v hv
    rw [hoff]
    exact ⟨by decide, fun la hla ho => absurd ho (hnone.swappedOut hla)⟩
  have hla : 0x400000#32 < KERNEL_BASE := by decide
  have hok : Allowed (states (execMem initMm 1)) (okMem initMm (Set.Ico 4 (4 + 8)))
      (mappedOps.map MemOp.call ++
        (.store 0x400000#32 7#32 :: ([.call (.swapOut 1)] ++ [.load 0x400000#32])))
      (booted 8 2048#32) := by
    refine Allowed.calls mappedOps_calls fun u' hu' => ?_
    obtain rfl := Option.some.inj (hu.symm.trans hu')
    refine ⟨⟨hla, hsu⟩, fun x' hx' => ?_⟩
    rw [states, hx, Option.map_some] at hx'
    obtain rfl := Option.some.inj hx'
    refine ⟨⟨hfree, fun _ _ _ _ => trivial⟩, fun y' hy' => ?_⟩
    rw [states, execMem, Option.map_map, hy] at hy'
    obtain rfl := Option.some.inj hy'
    exact ⟨⟨hla, hsy⟩, fun _ _ => trivial⟩
  obtain ⟨answers, t, houts, -⟩ :=
    load_returns_last_store booted_inOrder (by decide) hok (by simp [MemOp.Spares])
  exact ⟨answers, t, houts⟩

end Vm
end Zonix
