import Zonix.Mm.SpaceRun

/-!
# Out and in again

A page that is mapped at one user address only is evicted from that address, and loading the
address again brings its content back, in a frame that may be another one. Nothing else
changes, but for the order of the queue.
-/

namespace Zonix
open Lib

namespace Vm

variable {s t : Vm} {mm : MmStruct} {ram : Set ℕ} {qs : List ℕ} {dev : IdeDevice} {la : Word}
  {v : ℕ}

/-- `ROUND_DOWN` leaves the address of a page alone. -/
theorem pageAddr_of_aligned (h : roundDown la = la) : pageAddr (pdx la) (ptx la) = la := by
  have hmod : la.toNat % 2 ^ 12 = 0 := by
    have hnat := congrArg BitVec.toNat h
    have hsize : (BitVec.ofNat 32 PG_SIZE).toNat = 4096 := rfl
    have hlt := la.isLt
    rw [roundDown, BitVec.toNat_sub, BitVec.toNat_umod, hsize] at hnat
    omega
  apply BitVec.eq_of_toNat_eq
  rw [pageAddr_index_toNat]
  omega

/-- The only user page that maps a frame is the one that the reverse lookup finds. -/
theorem findVaddrForPage_eq (hv : v < 2 ^ 20) (hla : la < KERNEL_BASE)
    (halign : roundDown la = la) (hmap : s.Maps mm.pgdir la v)
    (honly : ∀ la' < KERNEL_BASE, s.Maps mm.pgdir la' v → pagNum la' = pagNum la) :
    s.findVaddrForPage mm v = la := by
  rcases findVaddrForPage_cases s mm hv with ⟨d, i, hd, hi, heq, hmaps, hlow⟩ | ⟨-, hno⟩
  · have hle := hlow la hmap
    have hbelow : pageAddr d i < KERNEL_BASE := by
      rw [lt_kernelBase_iff] at hla ⊢
      rw [pagNum_eq_index, pagNum_eq_index] at hle
      have h₁ := ptx_lt la
      omega
    have hsame := honly _ hbelow hmaps
    rw [pagNum_inj, pdx_pageAddr hd hi, ptx_pageAddr hd hi] at hsame
    rw [heq, hsame.1, hsame.2, pageAddr_of_aligned halign]
  · exact absurd hmap (hno la)

/-- `swap_out(mm, 1, t)` evicts the page at the head of the queue from its only user address. -/
theorem swapOut_one (h : s.Space mm ram (v :: qs)) (hd : s.Disk dev)
    (hfit : Fits dev (s.swapOffset <<< 8)) (hfind : s.findVaddrForPage mm v = la)
    (hpos : la ≠ 0#32) :
    ∃ t, s.swapOut mm 1 = some (1, t) ∧ SwapOutOne s mm (.evicted v la) t ∧
      Evicted s mm v la t ∧ t.Space mm ram qs := by
  obtain ⟨o, t, heq, ho, hlists, -⟩ := swapOutOne_spec h.lists h.head
  have hlow := h.low v (h.lists.inRam v List.mem_cons_self)
  have hd' : (s.dequeued v).Disk dev := hd.of_eq rfl rfl
  have hev : o = .evicted v la := hfind ▸ ho.eq_evicted h.head hlow (h.head ▸ h.lists.next_cons)
    (hfind ▸ hpos) ((swapfsWrite_disk hd' (s.swapOffset <<< 8) hlow).2.1.mpr hfit)
  subst hev
  obtain ⟨hevicted, hspace⟩ := ho.evicted_space h hlists
  refine ⟨t, ?_, ho, hevicted, hspace⟩
  show swapOutLoop mm 1 0 s = _
  rw [swapOutLoop_next heq (by simp)]
  rfl

/-- `swap_in` of an address whose entry names a slot, when a page is free. -/
theorem swapIn_loads (h : s.Space mm ram qs) (hd : s.Disk dev) (hv : pdx la ≠ pdx VPT)
    (hp : Present (s.mem mm.pgdir (pdx la))) (hfit : Fits dev (s.pteAt mm.pgdir la))
    (hfree : s.pmm.freePages ≠ ∅) :
    ∃ q t, s.swapIn mm la = some (0, some q, t) ∧ Loaded s mm la q t ∧
      t.Space mm ram (qs ++ [q]) ∧
      ∀ w, w < 1024 → t.mem q w = s.slot dev (slotNum (s.pteAt mm.pgdir la)) w := by
  obtain ⟨r, p, t, heq, hin, -⟩ := swapIn_spec h.lists h.head la
  have hq : ∃ q, r = 0 ∧ p = some q := by
    cases hin with
    | exhausted hno => exact absurd hno hfree
    | noTable ht hno hg => exact absurd hp hno
    | @readFailed page pmm pmm' r u ht _ hread hr hg =>
      have hd' : (s.setPmm pmm).Disk dev := hd.of_eq rfl rfl
      have hok := (swapfsRead_disk hd' (s.pteAt mm.pgdir la) (h.freeLow page ht.one.1)).2.1
      rw [hread] at hok
      exact absurd (hok.mpr hfit) hr
    | loaded => exact ⟨_, rfl, rfl⟩
  obtain ⟨q, rfl, rfl⟩ := hq
  obtain ⟨hloaded, hspace⟩ := hin.loaded_space h hv
  refine ⟨q, t, heq, hloaded, hspace, fun w hw => ?_⟩
  -- the page was filled from the slot, and the entry is in another frame
  obtain ⟨pmm, u, table, ht, hread, -, htable, -, rfl⟩ := hin.filled h hv
  have hd' : (s.setPmm pmm).Disk dev := hd.of_eq rfl rfl
  have hcontent := (swapfsRead_disk hd' (s.pteAt mm.pgdir la) (h.freeLow q ht.one.1)).2.2.2
  rw [hread] at hcontent
  have hne : q ≠ table := by
    rintro rfl
    exact h.pgdir.notFree q (Or.inr ⟨_, htable⟩) ht.one.1
  show (u.mapPage mm.pgdir q la _ table (ptx la)).mem q w = _
  rw [mapPage_mem, if_neg fun hh => hne hh.1]
  exact hcontent rfl w hw

/-- A page with one user address goes out to a slot of the disk and comes in again. -/
theorem evict_and_load (h : s.Space mm ram (v :: qs)) (hd : s.Disk dev)
    (hfit : Fits dev (s.swapOffset <<< 8)) (halign : roundDown la = la) (hne : la ≠ 0#32)
    (hla : la < KERNEL_BASE) (hmap : s.Maps mm.pgdir la v)
    (honly : ∀ la' < KERNEL_BASE, s.Maps mm.pgdir la' v → pagNum la' = pagNum la) :
    ∃ t q u, s.swapOut mm 1 = some (1, t) ∧ t.swapIn mm la = some (0, some q, u) ∧
      Evicted s mm v la t ∧ t.Space mm ram qs ∧ t.Disk dev ∧
      Loaded t mm la q u ∧ u.Space mm ram (qs ++ [q]) ∧ ∀ w < 1024, u.mem q w = s.mem v w := by
  have hlow := h.low v (h.lists.inRam v List.mem_cons_self)
  obtain ⟨t, hout, ho, hev, ht⟩ :=
    swapOut_one h hd hfit (findVaddrForPage_eq hlow hla halign hmap honly) hne
  obtain ⟨hdt, hslots⟩ := ho.disk h hd
  have hpte : t.pteAt mm.pgdir la = s.swapOffset <<< 8 := by
    rw [hev.pteAt, if_pos rfl]
  have hp : Present (t.mem mm.pgdir (pdx la)) := by
    rw [hev.dir]
    exact hmap.present
  have hfree : t.pmm.freePages ≠ ∅ := by
    rw [hev.free]
    exact Set.Nonempty.ne_empty ⟨v, Or.inr rfl⟩
  obtain ⟨q, u, hin, hloaded, hu, hcontent⟩ :=
    swapIn_loads ht hdt (pdx_ne_vpt hla) hp (hpte ▸ hfit) hfree
  refine ⟨t, q, u, hout, hin, hev, ht, hdt, hloaded, hu, fun w hw => ?_⟩
  rw [hcontent w hw, hslots _ w hw, hpte]
  exact if_pos rfl

/-- What `swap_in` loaded is mapped. -/
theorem Loaded.maps {q : ℕ} (h : Loaded s mm la q t) (hq : q < 2 ^ 20) : t.Maps mm.pgdir la q := by
  have hpte := h.pteAt la
  rw [if_pos rfl] at hpte
  exact maps_of_entry hpte hq (by decide)

/-- `swap_out(mm, 1, t)` and then `swap_in(mm, la, &q)`, for a page whose only user mapping is
`la`: the address is mapped again, to a frame with the content that the page had; every other
entry, and the number of free pages, are what they were, and the page went from the head of
the queue to its end. -/
theorem swapOut_swapIn (h : s.Space mm ram (v :: qs)) (hd : s.Disk dev)
    (hoff : s.swapOffset.toNat < 2 ^ 24)
    (hfit : 1000 + 8 * s.swapOffset.toNat + 8 ≤ dev.size.toNat)
    (halign : roundDown la = la) (hpos : 0#32 < la) (hla : la < KERNEL_BASE)
    (hmap : s.Maps mm.pgdir la v)
    (honly : ∀ la' < KERNEL_BASE, s.Maps mm.pgdir la' v → pagNum la' = pagNum la) :
    ∃ t q u, s.swapOut mm 1 = some (1, t) ∧ t.swapIn mm la = some (0, some q, u) ∧
      u.Maps mm.pgdir la q ∧ (∀ w, w < 1024 → u.mem q w = s.mem v w) ∧
      (∀ la', pagNum la' ≠ pagNum la → u.pteAt mm.pgdir la' = s.pteAt mm.pgdir la') ∧
      u.Space mm ram (qs ++ [q]) ∧ u.pmm.nrFree = s.pmm.nrFree := by
  have hfit' : Fits dev (s.swapOffset <<< 8) := by
    rw [Fits, slotNum_shiftLeft, Nat.mod_eq_of_lt hoff, swapStartSector_toNat,
      sectorsPerPage_toNat]
    omega
  have hne : la ≠ 0#32 := by
    rintro rfl
    exact absurd hpos (by decide)
  obtain ⟨t, q, u, hout, hin, hev, ht, -, hloaded, hu, hcontent⟩ :=
    evict_and_load h hd hfit' halign hne hla hmap honly
  refine ⟨t, q, u, hout, hin, hloaded.maps (ht.freeLow q hloaded.wasFree), hcontent,
    fun la' hne' => ?_, hu, ?_⟩
  · rw [hloaded.pteAt, if_neg hne', hev.pteAt, if_neg hne']
  · rw [hloaded.nrFree, hev.nrFree, Nat.add_sub_cancel]

/-- A queued page, mapped at 4 MB. -/
def mappedOps : List VmOp :=
  [.allocPages 1, .mapSwappable 0x400000#32 4, .pageInsert 4 0x400000#32 PTE_U]

theorem mappedOps_allowed : Allowed (exec initMm) (okSpace initMm (Set.Ico 4 (4 + 8))) mappedOps
    (booted 8 2048#32) := by
  refine booted_allowed (by decide) 2048#32 (by decide) (le_refl 1) rfl (le_refl 1) ?_
  intro t ht hfree hpaging hmem
  refine ht.allowed_mapSwappable (by simp) (fun hp => ?_) (by simp) (fun hp => ?_) id ?_
  · exact absurd (hfree 4 hp) (by decide)
  · exact absurd (hpaging 4 hp) (by decide)
  intro u hu hsame hmem'
  have hv : pdx 0x400000#32 ≠ pdx VPT := by decide
  exact hu.allowed_pageInsert hv hv fun w hw hsub => trivial

/-- The page at 4 MB is the only user page that maps frame 4. -/
def OnlyMapping (s : Vm) : Prop :=
  ∀ d < 768, Present (s.mem initMm.pgdir d) → ∀ i < 1024,
    s.Maps initMm.pgdir (pageAddr d i) 4 → d = 1 ∧ i = 0

instance (s : Vm) : Decidable s.OnlyMapping :=
  decidable_of_iff (∀ d < 768, Present (s.mem initMm.pgdir d) → ∀ i < 1024,
    s.Maps initMm.pgdir (pageAddr d i) 4 → d = 1 ∧ i = 0) Iff.rfl

/-- On the small machine, page 4 goes out from 4 MB and comes in again. -/
theorem swapOut_swapIn_sample : ∃ u t q w,
    mappedOps.foldlM (exec initMm) (booted 8 2048#32) = some u ∧
    u.swapOut initMm 1 = some (1, t) ∧ t.swapIn initMm 0x400000#32 = some (0, some q, w) ∧
    w.Maps initMm.pgdir 0x400000#32 q ∧ w.pmm.nrFree = u.pmm.nrFree := by
  have heq : (mappedOps.foldlM (exec initMm) (booted 8 2048#32)).map (fun u =>
      decide (listNext u.pmm.link initMm.swapList = .pageLink 4 ∧ u.swapOffset = 1#32 ∧
        u.Maps initMm.pgdir 0x400000#32 4 ∧ u.OnlyMapping)) = some true := by
    decide +kernel
  obtain ⟨u, hu, hfacts⟩ := Option.map_eq_some_iff.mp heq
  obtain ⟨hnext, hoff, hmap, honly⟩ := of_decide_eq_true hfacts
  have hrun := Run.of_foldlM mappedOps_allowed hu
  have hbooted := booted_space (n := 8) (by decide) 2048#32 (by decide)
  obtain ⟨qs, hspace⟩ := run_space hbooted hrun
  have hdisk := run_disk hbooted (booted_disk 2048#32) hrun
  rw [hspace.eq_cons hnext] at hspace
  have hone : ∀ la < KERNEL_BASE, u.Maps initMm.pgdir la 4 → pagNum la = pagNum 0x400000#32 := by
    intro la hla hm
    have hpage : pagNum la = pagNum (pageAddr (pdx la) (ptx la)) := by
      rw [pagNum_pageAddr (pdx_lt la) (ptx_lt la), pagNum_eq_index]
    have hdi := honly (pdx la) (lt_kernelBase_iff.mp hla) hm.present (ptx la) (ptx_lt la)
      ((maps_congr hpage).mp hm)
    rw [pagNum_eq_index, hdi.1, hdi.2]
    decide
  obtain ⟨t, q, w, hout, hin, hmaps, -, -, -, hfree⟩ := swapOut_swapIn hspace hdisk
    (hoff ▸ by decide) (hoff ▸ by decide) (by decide) (by decide) (by decide) hmap hone
  exact ⟨u, t, q, w, hu, hout, hin, hmaps, hfree⟩

end Vm
end Zonix
