import Zonix.Mm.VmmInit
import Zonix.Mm.UserMemoryTheorems
import Zonix.Drivers.DetectTheorems

/-!
# The start of the kernel: `kern_init` of `kern/init.c`

The runs of this development begin with a free list, a direct map, a disk and no user page. Here
`kern_init` makes them, from the E820 map, the memory that `head.S` leaves and whatever disks
answer. What it calls besides has no part in this state.
-/

namespace Zonix
open Lib PageInit

/-! ## The free list -/

section FreeList
variable {s : Pmm} {ram : Set ℕ} {bs : List Extent} {ms : List (ℕ × ℕ)} {e820 : List E820Entry}
  {kernelEnd : Word}

/-- The pages of the calls of `init_memmap`. -/
def memmapPages (ms : List (ℕ × ℕ)) : List ℕ := ms.flatMap fun m => List.range' m.1 m.2

/-- Each call adds one block to the end of the list. -/
theorem memmaps_inv (h : s.Inv ram bs) (hpos : ∀ m ∈ ms, 1 ≤ m.2) (hnd : (memmapPages ms).Nodup)
    (hnew : ∀ p ∈ memmapPages ms, p ∉ ram) :
    (ms.foldl (fun s m => s.initMemmap m.1 m.2) s).Inv (ram ∪ {p | p ∈ memmapPages ms})
        (bs ++ ms.map fun m => ⟨m.1, m.2⟩) ∧
      ∀ p, p ∈ memmapPages ms ∨ (s.page p).ref = 0 →
        ((ms.foldl (fun s m => s.initMemmap m.1 m.2) s).page p).ref = 0 := by
  induction ms generalizing s ram bs with
  | nil =>
    refine ⟨?_, fun p hp => hp.elim (fun hp => absurd hp List.not_mem_nil) id⟩
    have hempty : ram ∪ {p | p ∈ memmapPages []} = ram := by simp [memmapPages]
    rw [hempty, List.map_nil, List.append_nil]
    exact h
  | cons m ms ih =>
    obtain ⟨hm, hms⟩ := List.forall_mem_cons.mp hpos
    have hcons : memmapPages (m :: ms) = List.range' m.1 m.2 ++ memmapPages ms := rfl
    rw [hcons] at hnd hnew
    obtain ⟨-, hnd', hapart⟩ := List.nodup_append.mp hnd
    have hdisj : Disjoint (Set.Ico m.1 (m.1 + m.2)) ram := Set.disjoint_left.mpr fun p hp =>
      hnew p (List.mem_append_left _ (List.mem_range'_1.mpr hp))
    have hspec := Pmm.initMemmap_spec h hm hdisj
    obtain ⟨hinv, href⟩ := ih hspec.inv hms hnd' fun p hp hh => by
      rcases hh with hh | hh
      · exact hnew p (List.mem_append_right _ hp) hh
      · exact hapart p (List.mem_range'_1.mpr hh) p hp rfl
    have hram : ram ∪ {p | p ∈ memmapPages (m :: ms)} =
        ram ∪ Set.Ico m.1 (m.1 + m.2) ∪ {p | p ∈ memmapPages ms} := by
      rw [Set.union_assoc]
      congr 1
      ext p
      rw [hcons]
      exact List.mem_append.trans (or_congr List.mem_range'_1 Iff.rfl)
    refine ⟨?_, fun p hp => href p ?_⟩
    · rw [hram, List.map_cons, List.append_cons]
      exact hinv
    · rw [hcons, List.mem_append, List.mem_range'_1] at hp
      rw [hspec.ref]
      split_ifs with hin
      · exact Or.inr rfl
      · exact hp.imp_left fun hp => hp.resolve_left hin

theorem setPageReserved_inv (h : s.Inv ∅ []) (n : ℕ) :
    ((List.range n).foldl (fun s i => s.setPageReserved i) s).Inv ∅ [] := by
  induction n with
  | zero => exact h
  | succ n ih =>
    rw [List.range_succ, List.foldl_append, List.foldl_cons, List.foldl_nil]
    exact ⟨⟨ih.ring, by simp, ih.separate, ih.nrFree⟩, ih.inRam, by simp⟩

/-- After `pmm_init` the free pages are those that were registered, in their order. -/
theorem pmmInit_inv (s : Pmm) (hnd : (registered e820 kernelEnd).Nodup)
    (hpos : ∀ m ∈ memmaps e820 kernelEnd, 1 ≤ m.2) : ∃ bs,
    (s.pmmInit e820 kernelEnd).Inv {p | p ∈ registered e820 kernelEnd} bs ∧
      Extents.inOrder bs = registered e820 kernelEnd ∧
      ∀ p ∈ registered e820 kernelEnd, ((s.pmmInit e820 kernelEnd).page p).ref = 0 := by
  obtain ⟨hinv, href⟩ := memmaps_inv (setPageReserved_inv s.init_inv (npage e820).toNat) hpos hnd
    fun p _ hp => hp
  rw [Set.empty_union, List.nil_append] at hinv
  refine ⟨_, hinv, ?_, fun p hp => href p (Or.inl hp)⟩
  rw [Extents.inOrder, List.flatMap_map]
  rfl

end FreeList

/-! ## The map -/

/-- The map that the BIOS reports, and the end of the kernel's image: the RAM entries do not
overlap, lie in the window of the direct map and hold whole pages; the image and the descriptors of
all pages lie in the first 4 MB. -/
structure GoodMap (e820 : List E820Entry) (kernelEnd : Word) : Prop where
  map : MapOk e820
  ram : ∀ e ∈ e820, e.type = E820_RAM → e.addr.toNat + e.size.toNat ≤ KERNEL_MEM_SIZE.toNat
  whole : ∀ e ∈ e820, Usable (validMem e820 kernelEnd) e →
    roundUp64 (start (validMem e820 kernelEnd) e) < roundDown64 (limit e)
  image : 0xC0100000#32 ≤ kernelEnd ∧ kernelEnd ≤ 0xC03FF000#32
  descriptors : pageDesc kernelEnd (npage e820).toNat ≤ KERNEL_BASE + BOOT_MEM_SIZE

namespace GoodMap
variable {e820 : List E820Entry} {kernelEnd : Word} (h : GoodMap e820 kernelEnd)
include h

theorem sound : Sound e820 (validMem e820 kernelEnd) := by
  refine Sound.of_not_truncated fun e he hu => ?_
  have hlt := h.whole e he hu
  refine ⟨BitVec.le_of_lt hlt, ?_⟩
  have hend := limit_le_memSize h.ram he hu.1
  have hstart := hu.2
  rw [BitVec.lt_def] at hstart
  rw [BitVec.le_def, roundUp64_toNat]
  omega

theorem pos : ∀ m ∈ memmaps e820 kernelEnd, 1 ≤ m.2 := by
  intro m hm
  obtain ⟨e, he, heq⟩ := List.mem_filterMap.mp hm
  obtain ⟨hu, rfl⟩ := memmapArgs_eq_some.mp heq
  have hlt := roundUp64_lt_iff.mp (h.whole e he hu)
  dsimp only
  rw [count_eq, if_pos hlt.le]
  omega

/-- The array of descriptors ends in the first 4 MB, behind the image. -/
theorem validMem_toNat : kernelEnd.toNat ≤ (validMem e820 kernelEnd).toNat + 0xC0000000 := by
  have hpages := pages_toNat h.image.1 h.image.2
  have hnpage := npage_le h.ram
  have hbase : KERNEL_BASE.toNat = 0xC0000000 := by decide
  have hend := (pageDesc_le_iff h.image.1 h.image.2 (by omega)).mp h.descriptors
  have haddr := pageDesc_toNat h.image.1 h.image.2 (show (npage e820).toNat ≤ 0x1000000 by omega)
  have hdesc : pageDesc kernelEnd (npage e820).toNat =
      roundUp kernelEnd + npage e820 * SIZEOF_PAGE_DESC := by
    rw [pageDesc, BitVec.ofNat_toNat, BitVec.setWidth_eq]
  have hround : kernelEnd.toNat ≤ (roundUp kernelEnd).toNat := by
    have hsize : (BitVec.ofNat 32 PG_SIZE).toNat = 4096 := rfl
    have hone : (1#32).toNat = 1 := rfl
    have himage : kernelEnd.toNat ≤ 0xC03FF000 := h.image.2
    rw [roundUp, roundDown_toNat, BitVec.toNat_sub, BitVec.toNat_add, hsize, hone]
    omega
  rw [validMem, ← hdesc, BitVec.toNat_sub, haddr, hbase]
  omega

/-- The registered pages are in the window, behind the image. -/
theorem registered_mem {p : ℕ} (hp : p ∈ registered e820 kernelEnd) :
    p < Vm.windowPages ∧ kernelEnd.toNat ≤ p * PG_SIZE + 0xC0000000 := by
  have hunused := h.sound.unused h.map hp
  have hvalid := h.validMem_toNat
  obtain ⟨f, hf, hram, hlow, hhigh⟩ := h.sound.ram h.map hp
  obtain ⟨e, he, hreg⟩ := mem_registered.mp hp
  obtain ⟨-, -, hpa, -⟩ := h.sound.registers he hreg
  have hend := h.ram f hf hram
  have hsize : KERNEL_MEM_SIZE.toNat = 0x38000000 := rfl
  rw [BitVec.le_def, hpa] at hunused
  rw [hpa, PG_SIZE] at hhigh
  rw [PG_SIZE, Vm.windowPages]
  omega

end GoodMap

/-! ## `vmm_init` after `pmm_init` -/

namespace Vm
variable {s t : Vm} {e820 : List E820Entry} {kernelEnd : Word} {bootPgdir : ℕ}

section Window
variable {s₀ : Vm} {ram : Set ℕ} {free : List ℕ}

/-- The whole window is mapped. -/
theorem Building.translate (h : Building s₀ bootPgdir ram free windowPages t) (off : Word)
    (hoff : off < KERNEL_MEM_SIZE) :
    t.translate bootPgdir (KERNEL_BASE + off) = some (off, PTE_W ||| PTE_P) := by
  have hsize : KERNEL_MEM_SIZE.toNat = 0x38000000 := rfl
  have hbase : KERNEL_BASE.toNat = 0xC0000000 := rfl
  rw [BitVec.lt_def, hsize] at hoff
  have hwin : pagNum off < windowPages := by
    rw [pagNum_eq, windowPages]
    omega
  have hla : (KERNEL_BASE + off).toNat = 0xC0000000 + off.toNat := by
    rw [BitVec.toNat_add, hbase]
    omega
  have hpage : pagNum (KERNEL_BASE + off) = pagNum (page2kva (pagNum off)) := by
    rw [pagNum_page2kva hwin, pagNum_eq, pagNum_eq, hla]
    omega
  have hentry : t.pteAt bootPgdir (KERNEL_BASE + off) =
      page2pa (pagNum off) ||| PTE_P ||| PTE_W := by
    rw [t.pteAt_page bootPgdir hpage, h.entries _ hwin, if_pos]
    exact lt_of_lt_of_le hwin (le_max_left _ _)
  have hround : roundDown (page2pa (pagNum off)) = page2pa (pagNum off) := by
    rw [aligned_iff, page2pa_toNat (pagNum_lt off)]
    omega
  have haddr : page2pa (pagNum off) + (KERNEL_BASE + off) % BitVec.ofNat 32 PG_SIZE = off := by
    apply BitVec.eq_of_toNat_eq
    have hpg : (BitVec.ofNat 32 PG_SIZE).toNat = 4096 := rfl
    rw [BitVec.toNat_add, page2pa_toNat (pagNum_lt off), BitVec.toNat_umod, hla, hpg, pagNum_eq]
    omega
  rw [translate_of_pteAt (by decide) hround hentry, haddr]

/-- Nothing is mapped below it. -/
theorem Building.pteAt_user (h : Building s₀ bootPgdir ram free windowPages t) (la : Word)
    (hla : la < KERNEL_BASE) : t.pteAt bootPgdir la = 0#32 := by
  have hlt := lt_kernelBase_iff.mp hla
  apply pteAt_of_not_present
  rw [h.tables _ (pdx_lt la) (pdx_ne_vpt hla)]
  omega

end Window

section Boot
variable (h : GoodMap e820 kernelEnd) (hhead : s.HeadMem bootPgdir)
  (himage : (bootPgdir + 2) * PG_SIZE + 0xC0000000 ≤ kernelEnd.toNat)
include h hhead himage

theorem vmmInitMmu_building :
    (((s.setPmm (s.pmm.pmmInit e820 kernelEnd)).vmmInitMmu bootPgdir).isSome ↔
      Reaches (registered e820 kernelEnd) 0 windowPages) ∧
    ∀ t, (s.setPmm (s.pmm.pmmInit e820 kernelEnd)).vmmInitMmu bootPgdir = some t →
      (s.setPmm (s.pmm.pmmInit e820 kernelEnd)).vmmInit bootPgdir = some t ∧
        Building (s.setPmm (s.pmm.pmmInit e820 kernelEnd)) bootPgdir
          {p | p ∈ registered e820 kernelEnd} (registered e820 kernelEnd) windowPages t := by
  obtain ⟨bs, hinv, horder, -⟩ := pmmInit_inv s.pmm (h.sound.registered_nodup h.map) h.pos
  have hhead' := hhead.congr (t := s.setPmm (s.pmm.pmmInit e820 kernelEnd)) rfl rfl
  have hused : ∀ p ∈ (s.setPmm (s.pmm.pmmInit e820 kernelEnd)).pmm.freePages,
      bootPgdir + 1 < p := by
    intro p hp
    have hmem := (h.registered_mem (hinv.mem_ram hp)).2
    rw [PG_SIZE] at himage hmem
    omega
  have hspec := hhead'.vmmInitMmu_spec hinv (fun p hp => (h.registered_mem hp).1) hused
  rwa [horder] at hspec

/-- `vmm_init` builds the direct map through the direct map. It gets to its end if and only if each
page table lies in memory that is mapped when the table is cleared; then it has done what it would
with all of the memory at hand, and the whole window is mapped. -/
theorem vmmInitMmu_iff :
    (((s.setPmm (s.pmm.pmmInit e820 kernelEnd)).vmmInitMmu bootPgdir).isSome ↔
      Reaches (registered e820 kernelEnd) 0 windowPages) ∧
    ∀ t, (s.setPmm (s.pmm.pmmInit e820 kernelEnd)).vmmInitMmu bootPgdir = some t →
      (s.setPmm (s.pmm.pmmInit e820 kernelEnd)).vmmInit bootPgdir = some t ∧
        ∀ off < KERNEL_MEM_SIZE,
          t.translate bootPgdir (KERNEL_BASE + off) = some (off, PTE_W ||| PTE_P) := by
  obtain ⟨hiff, hdone⟩ := vmmInitMmu_building h hhead himage
  refine ⟨hiff, fun t ht => ?_⟩
  obtain ⟨hplain, hbuilt⟩ := hdone t ht
  exact ⟨hplain, hbuilt.translate⟩

end Boot

/-! ## `kern_init` -/

/-- `blk_init()`, on the disks of the machine. -/
def initDisks (s : Vm) (hd : Hd) : Vm :=
  { s with
    ide := (blkInit hd).2.toIde
    blockDevices := (blkInit hd).1.map BlkDevice.toBlockDevice }

theorem setPmm_ide (s : Vm) (pmm : Pmm) : (s.setPmm pmm).ide = s.ide := rfl

theorem setPmm_blockDevices (s : Vm) (pmm : Pmm) :
    (s.setPmm pmm).blockDevices = s.blockDevices := rfl

theorem initDisks_mem (s : Vm) (hd : Hd) : (s.initDisks hd).mem = s.mem := by
  rw [initDisks]

theorem initDisks_cr3 (s : Vm) (hd : Hd) : (s.initDisks hd).cr3 = s.cr3 := by
  rw [initDisks]

theorem initDisks_ide (s : Vm) (hd : Hd) : (s.initDisks hd).ide = (blkInit hd).2.toIde := by
  rw [initDisks]

theorem initDisks_blockDevices (s : Vm) (hd : Hd) :
    (s.initDisks hd).blockDevices = (blkInit hd).1.map BlkDevice.toBlockDevice := by
  rw [initDisks]

/-- What `kern_init` does to memory and disks: `blk_init`, `pmm_init`, `vmm_init` and
`swap_init`. -/
def kernInit (s : Vm) (hd : Hd) (bootPgdir : ℕ) (e820 : List E820Entry) (kernelEnd : Word) :
    Option Vm := do
  let s := s.initDisks hd
  let s := s.setPmm (s.pmm.pmmInit e820 kernelEnd)
  let s ← s.vmmInitMmu bootPgdir
  s.swapInit

/-- `init_mm`, once `swap_init_mm` was called. -/
def kernMm (bootPgdir : ℕ) : MmStruct := ⟨bootPgdir, .praListHead⟩

/-! ### The disk -/

theorem hdDetectDevice_status (hd : Hd) (devId : Fin MAX_IDE_DEVICES) :
    (hd.hdDetectDevice devId).2.status = hd.status := by
  have hprobe : (Hd.probe hd.toIde (ideConfigs devId)).2.status = hd.status := rfl
  have hwaited := (Ide.hdWaitDataOnBase_polled (Hd.probe hd.toIde (ideConfigs devId)).2
    (ideConfigs devId).base).later.status.trans hprobe
  rw [Hd.hdDetectDevice]
  dsimp only
  split_ifs
  · exact hprobe
  · exact hwaited
  · exact hwaited

/-- To detect the drives does not change what they answer. -/
theorem blkInit_status (hd : Hd) : (blkInit hd).2.status = hd.status := by
  have hclear : ∀ (l : List (Fin MAX_IDE_DEVICES)) (hd : Hd),
      (l.foldl Hd.clear hd).status = hd.status := by
    intro l
    induction l with
    | nil => exact fun _ => rfl
    | cons i l ih => exact fun hd => ih _
  have hdetect : ∀ (l : List (Fin MAX_IDE_DEVICES)) (hd : Hd),
      (l.foldl Hd.detectNext hd).status = hd.status := by
    intro l
    induction l with
    | nil => exact fun _ => rfl
    | cons i l ih =>
      intro hd
      have hnext : (hd.detectNext i).status = hd.status := by
        rw [← hdDetectDevice_status hd i, Hd.detectNext]
        dsimp only
        split_ifs <;> rfl
      exact (ih _).trans hnext
  rw [blkInit, Hd.hdInit]
  exact (hdetect _ _).trans (hclear _ hd)

/-- The first block device is a disk that answers. -/
structure GoodDisk (hd : Hd) (dev : IdeDevice) : Prop where
  first : ∃ b, (blkInit hd).1.head? = some b ∧ (blkInit hd).2.devices b.privateData = dev
  answers : (blkInit hd).2.Answers dev.base

theorem GoodDisk.blkGetDevice {hd : Hd} {dev : IdeDevice} (h : GoodDisk hd dev) :
    ∃ b, Zonix.blkGetDevice ((blkInit hd).1.map BlkDevice.toBlockDevice) BLK_TYPE_DISK = some b ∧
      (blkInit hd).2.devices b.privateData = dev ∧ dev.present = true := by
  obtain ⟨b, hb, hdev⟩ := h.first
  obtain ⟨rest, hlist⟩ := List.head?_eq_some_iff.mp hb
  have hmem : b ∈ (blkInit hd).1 := hlist ▸ List.mem_cons_self
  rw [Hd.blkInit_fst] at hmem
  obtain ⟨i, hi, rfl⟩ := List.mem_map.mp hmem
  have hpresent : (hd.hdInit.devices i).present = true := (List.mem_filter.mp hi).2
  have htype : (hd.hdInit.blkDevice i).type = BLK_TYPE_DISK := rfl
  have hid : (hd.hdInit.blkDevice i).privateData = i := rfl
  have hsnd : (blkInit hd).2 = hd.hdInit := by rw [blkInit]
  refine ⟨(hd.hdInit.blkDevice i).toBlockDevice, ?_, hdev, ?_⟩
  · rw [hlist, List.map_cons, Zonix.blkGetDevice, List.find?_cons_of_pos]
    exact decide_eq_true htype
  · rw [← hdev, hsnd, hid, hpresent]

section KernInit
variable {s₀ : Vm} {hd : Hd} {dev : IdeDevice} {ram : Set ℕ} {free : List ℕ}

/-- With the map built and a disk behind the swap device, the address space is in order. -/
theorem Building.inOrder (h : Building s₀ bootPgdir ram free windowPages t)
    (hlow : ∀ p ∈ ram, p < windowPages) (hmem : s.mem = t.mem) (hpmm : s.pmm = t.pmm)
    (hdisk : s.Disk dev) : (s.swapFifoInitMm (kernMm bootPgdir)).1.InOrder (kernMm bootPgdir) ram
      dev := by
  obtain ⟨bs, hinv, -⟩ := h.inv
  have hinv' : s.pmm.Inv ram bs := hpmm ▸ hinv
  have hdir : ∀ j, (s.swapFifoInitMm (kernMm bootPgdir)).1.mem bootPgdir j = t.mem bootPgdir j :=
    fun j => congrFun (congrFun hmem bootPgdir) j
  have hfree : (s.swapFifoInitMm (kernMm bootPgdir)).1.pmm.freePages = t.pmm.freePages := by
    rw [(swapFifoInitMm_inv (kernMm bootPgdir) hinv').toRep.freePages_eq, hinv.toRep.freePages_eq]
  have huser : ∀ la < KERNEL_BASE,
      (s.swapFifoInitMm (kernMm bootPgdir)).1.pteAt bootPgdir la = 0#32 := by
    intro la hla
    have hsame : s.pteAt bootPgdir la = t.pteAt bootPgdir la := by rw [pteAt, pteAt, hmem]
    exact hsame.trans (h.pteAt_user la hla)
  have hmaps : ∀ la < KERNEL_BASE, ∀ f,
      ¬ (s.swapFifoInitMm (kernMm bootPgdir)).1.Maps bootPgdir la f := by
    rintro la hla f ⟨hp, -⟩
    exact not_present_zero (huser la hla ▸ hp)
  constructor
  · refine ⟨[], rfl, swapFifoInitMm_lists _ hinv', fun p hp => (hlow p hp).trans (by decide), ?_,
      fun _ => ?_, by simp⟩
    · refine h.pgdirOk.congr hdir fun f hf => ?_
      rw [hfree]
      exact h.pgdirOk.notFree f hf
    · show pagNum (s.mem bootPgdir (pdx VPT)) = bootPgdir
      rw [hmem]
      exact h.self
  · exact hdisk.of_eq rfl rfl
  · exact ⟨fun la hla _ _ f hm => absurd hm (hmaps la hla f),
      fun la hla f hm => absurd hm (hmaps la hla f), fun la hla ho => absurd (huser la hla) ho.1⟩

/-- `swap_init` finds the disk. -/
theorem Building.swapInit (h : Building s₀ bootPgdir ram free windowPages t) {b : BlockDevice}
    (hb : Zonix.blkGetDevice s₀.blockDevices BLK_TYPE_DISK = some b)
    (hdev : s₀.ide.devices b.privateData = dev) (hpresent : dev.present = true)
    (hanswers : s₀.ide.Answers dev.base) :
    ∃ u, t.swapInit = some u ∧ u.mem = t.mem ∧ u.pmm = t.pmm ∧ u.Disk dev := by
  rw [← h.blockDevices] at hb
  rw [← h.ide] at hdev hanswers
  refine ⟨{ t.swapfsInit with
    maxSwapOffset := (b.size - SWAP_START_SECTOR) / SECTORS_PER_PAGE }, ?_, rfl, rfl,
    ⟨b, hb, hdev⟩, hpresent, hanswers⟩
  rw [Vm.swapInit, swapfsInit, hb]
  rfl

variable (h : GoodMap e820 kernelEnd) (hhead : s.HeadMem bootPgdir)
  (himage : (bootPgdir + 2) * PG_SIZE + 0xC0000000 ≤ kernelEnd.toNat)
  (hreach : Reaches (registered e820 kernelEnd) 0 windowPages) (hdisk : GoodDisk hd dev)
include h hhead himage hreach hdisk

/-- `kern_init` gets to its end, with the address space, the disk and the user pages in order once
`swap_init_mm` was called. All of the window is mapped and nothing below it, and the pages behind
the first 223 are free and not in use. -/
theorem kernInit_inOrder : ∃ t, s.kernInit hd bootPgdir e820 kernelEnd = some t ∧
    (t.swapFifoInitMm (kernMm bootPgdir)).1.InOrder (kernMm bootPgdir)
      {p | p ∈ registered e820 kernelEnd} dev ∧
    (∀ off < KERNEL_MEM_SIZE,
      t.translate bootPgdir (KERNEL_BASE + off) = some (off, PTE_W ||| PTE_P)) ∧
    (∀ la < KERNEL_BASE, t.pteAt bootPgdir la = 0#32) ∧
    (∀ p, p ∈ t.pmm.freePages ↔ p ∈ (registered e820 kernelEnd).drop 223) ∧
    ∀ p ∈ t.pmm.freePages, (t.pmm.page p).ref = 0 := by
  obtain ⟨b, hb, hdev, hpresent⟩ := hdisk.blkGetDevice
  have hhead' := hhead.congr (s.initDisks_mem hd) (s.initDisks_cr3 hd)
  obtain ⟨hiff, hdone⟩ := vmmInitMmu_building h hhead' himage
  obtain ⟨t, ht⟩ := Option.isSome_iff_exists.mp (hiff.mpr hreach)
  obtain ⟨-, hbuilt⟩ := hdone t ht
  have hswap := @Building.swapInit _ _ _ dev _ _ hbuilt b
  rw [setPmm_blockDevices, setPmm_ide, initDisks_blockDevices, initDisks_ide] at hswap
  obtain ⟨u, hu, hmem, hpmm, hudisk⟩ := hswap hb hdev hpresent hdisk.answers
  obtain ⟨bs, hinv, horder⟩ := hbuilt.inv
  have href := hbuilt.ref
  rw [setPmm_pmm] at href
  obtain ⟨-, -, -, hzero⟩ := pmmInit_inv (s.initDisks hd).pmm (h.sound.registered_nodup h.map) h.pos
  have hpte : ∀ la, u.pteAt bootPgdir la = t.pteAt bootPgdir la := fun la => by
    rw [pteAt, pteAt, hmem]
  have hrun : s.kernInit hd bootPgdir e820 kernelEnd = some u := by
    rw [kernInit, ht, Option.bind_eq_bind, Option.bind_some, hu]
  refine ⟨u, hrun, hbuilt.inOrder (fun p hp => (h.registered_mem hp).1) hmem hpmm hudisk,
    fun off hoff => ?_, fun la hla => ?_, fun p => ?_, fun p hp => ?_⟩
  · rw [translate_congr (hpte _), hbuilt.translate off hoff]
  · rw [hpte, hbuilt.pteAt_user la hla]
  · have hcount : (windowPages - 1) / 1024 = 223 := by decide
    rw [hpmm, hinv.toRep.freePages_eq, ← Extents.mem_inOrder, horder, hcount]
  · rw [hpmm] at hp ⊢
    rw [href p hp, hzero p (hinv.mem_ram hp)]

end KernInit

/-! ### 16 MB of memory -/

/-- The machine that `head.S` leaves, with `__boot_pgdir` in the frame `0x110`. -/
def headSample : Vm :=
  { sample 1 0#32 with
    mem := fun f i =>
      if f = 0x110 then PageInit.bootPgdir 0x111 i
      else if f = 0x111 then PageInit.bootPt1 i
      else 0#32
    cr3 := page2pa 0x110 }

theorem headSample_headMem : headSample.HeadMem 0x110 :=
  ⟨fun _ _ => rfl, fun _ _ => rfl, rfl, by decide⟩

theorem smallMap_goodMap : GoodMap smallMap 0xC0120000#32 :=
  ⟨MapOk.of_apart (by decide) (by decide), by decide, by decide, by decide, by decide⟩

/-- The page tables come right behind the descriptors, in the first 4 MB. -/
theorem smallMap_reaches : Reaches (registered smallMap 0xC0120000#32) 0 windowPages := by
  have hcalls : memmaps smallMap 0xC0120000#32 = [(0x134, 0xECC)] := by decide +kernel
  have hpages : registered smallMap 0xC0120000#32 = List.range' 0x134 0xECC := by
    rw [registered, hcalls, List.flatMap_singleton]
  intro d hd _ hlt
  rw [windowPages] at hlt
  refine ⟨0x134 + (d - 1), ?_, by omega⟩
  rw [hpages, List.getElem?_range' (by omega), Nat.one_mul]

theorem vmmInitMmu_iff_smallMap :
    ((headSample.setPmm (headSample.pmm.pmmInit smallMap 0xC0120000#32)).vmmInitMmu
      0x110).isSome := by
  have himage : (0x110 + 2) * PG_SIZE + 0xC0000000 ≤ (0xC0120000#32).toNat := by decide
  exact (vmmInitMmu_iff smallMap_goodMap headSample_headMem himage).1.mpr smallMap_reaches

/-- Four drives, ready whenever they are asked, that identify themselves with the word 1000 all
over. -/
def fourDrives : Hd where
  devices := fun _ => ⟨0#8, 0#16, 0#32, false⟩
  status := fun _ _ => IDE_DRDY ||| IDE_DRQ
  polls := 0
  regs := fun _ => ⟨0#8, 0#8, 0#8, 0#8, 0#8⟩
  commands := []
  sector := fun _ _ _ _ => 0#32
  identify := fun _ _ _ => 1000#16
  info := fun _ => ⟨0#8, 0#8, 0#16, 0#16, 0#16, false, ideName 'a' ascii_a_ne⟩
  numDevices := 0

theorem fourDrives_goodDisk : GoodDisk fourDrives ((blkInit fourDrives).2.devices 0) := by
  have hfirst : (blkInit fourDrives).1.head?.map (fun b => b.privateData) = some 0 := by
    decide +kernel
  obtain ⟨b, hb, hid⟩ := Option.map_eq_some_iff.mp hfirst
  refine ⟨⟨b, hb, by rw [hid]⟩, Ide.answers_of_status fun n => ?_⟩
  rw [blkInit_status]
  rfl

theorem kernInit_inOrder_smallMap : ∃ t,
    headSample.kernInit fourDrives 0x110 smallMap 0xC0120000#32 = some t ∧
      (t.swapFifoInitMm (kernMm 0x110)).1.InOrder (kernMm 0x110)
        {p | p ∈ registered smallMap 0xC0120000#32} ((blkInit fourDrives).2.devices 0) := by
  have himage : (0x110 + 2) * PG_SIZE + 0xC0000000 ≤ (0xC0120000#32).toNat := by decide
  obtain ⟨t, ht, horder, -⟩ := kernInit_inOrder smallMap_goodMap headSample_headMem himage
    smallMap_reaches fourDrives_goodDisk
  exact ⟨t, ht, horder⟩

end Vm

end Zonix
