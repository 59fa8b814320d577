import Zonix.Mm.SpaceRun

/-!
# The swap area

What `swap_init` computes is the number of slots that the disk has room for behind
`SWAP_START_SECTOR`. So as long as the offsets of the entries are below it, `swapfs_write` and
`swapfs_read` behave like the stores and loads of an array of pages, and no other sector is
touched.
-/

namespace Zonix
open Lib

/-- The calls of the swap file system. -/
inductive SwapfsOp
  | read (entry : Word) (page : ℕ)
  | write (entry : Word) (page : ℕ)

/-- `(entry >> 8) & 0xFFFFFF` -/
def entryOffset (entry : Word) : Word := (entry >>> 8) &&& 0xFFFFFF#32

namespace Vm

def execSwapfs (s : Vm) : SwapfsOp → Option Vm
  | .read entry page => some (s.swapfsRead entry page).2
  | .write entry page => some (s.swapfsWrite entry page).2

/-- The offset is below `max_swap_offset`, and the page is a frame of 32-bit memory. -/
def okSwapfs (s : Vm) : SwapfsOp → Prop
  | .read entry page => entryOffset entry < s.maxSwapOffset ∧ page < 2 ^ 20
  | .write entry page => entryOffset entry < s.maxSwapOffset ∧ page < 2 ^ 20

/-- The disk that `swap_init` finds: `blk_init` registered it with its size, it never fails, and
has room for one slot at least. That no sector number exceeds 28 bits is due to the offsets, which
have 24. -/
structure SwapDisk (s : Vm) (b : BlockDevice) : Prop where
  found : blkGetDevice s.blockDevices BLK_TYPE_DISK = some b
  size : b.size = (s.ide.devices b.privateData).size
  present : (s.ide.devices b.privateData).present = true
  answers : s.ide.Answers (s.ide.devices b.privateData).base
  lower : 1016 ≤ b.size.toNat

/-- The sectors of `dev` from `SWAP_START_SECTOR` on are set up for swapping. -/
structure SwapArea (s : Vm) (dev : IdeDevice) : Prop where
  disk : s.Disk dev
  lower : 1016 ≤ dev.size.toNat
  max : s.maxSwapOffset = (dev.size - SWAP_START_SECTOR) / SECTORS_PER_PAGE

section Area
variable {s t u : Vm} {dev : IdeDevice} {entry entry' : Word} {page page' : ℕ}

theorem entryOffset_toNat (entry : Word) : (entryOffset entry).toNat = slotNum entry := by
  rw [entryOffset, BitVec.toNat_and, BitVec.toNat_ushiftRight, Nat.shiftRight_eq_div_pow,
    show (0xFFFFFF#32).toNat = 2 ^ 24 - 1 from rfl, Nat.and_two_pow_sub_one_eq_mod]
  exact Nat.mod_eq_of_lt (slotNum_lt entry)

theorem SwapDisk.swapArea {b : BlockDevice} (h : s.SwapDisk b) (heq : s.swapInit = some t) :
    t.SwapArea (s.ide.devices b.privateData) ∧ t.ide = s.ide := by
  have hfound : s.swapfsInit.swapDevice = some b := h.found
  simp only [swapInit, hfound, Option.bind_eq_bind, Option.bind_some, Option.some.injEq] at heq
  subst heq
  refine ⟨⟨⟨⟨b, rfl, rfl⟩, h.present, h.answers⟩, ?_, ?_⟩, rfl⟩
  · rw [← h.size]
    exact h.lower
  · rw [← h.size]

theorem SwapArea.max_toNat (h : s.SwapArea dev) :
    s.maxSwapOffset.toNat = (dev.size.toNat - 1000) / 8 := by
  have hlower := h.lower
  have hle : SWAP_START_SECTOR ≤ dev.size := by
    rw [BitVec.le_def, swapStartSector_toNat]
    omega
  rw [h.max, BitVec.toNat_udiv, BitVec.toNat_sub_of_le hle, swapStartSector_toNat,
    sectorsPerPage_toNat]

/-- What is below `max_swap_offset` is on the disk. -/
theorem SwapArea.fits (h : s.SwapArea dev) (hlt : entryOffset entry < s.maxSwapOffset) :
    Fits dev entry := by
  have hlower := h.lower
  rw [BitVec.lt_def, entryOffset_toNat, h.max_toNat] at hlt
  rw [Fits, swapStartSector_toNat, sectorsPerPage_toNat]
  omega

/-- The sectors of the slot are in the area. -/
theorem SwapArea.issued (h : s.SwapArea dev) (hlt : entryOffset entry < s.maxSwapOffset)
    {ide : Ide} (hissued : s.ide.Issued ide dev (swapSector entry).toNat
      ((swapSector entry).toNat + SECTORS_PER_PAGE.toNat)) :
    s.ide.Issued ide dev SWAP_START_SECTOR.toNat dev.size.toNat := by
  refine hissued.mono ?_ (h.fits hlt).le_size
  rw [swapSector_toNat]
  exact Nat.le_add_right _ _

/-! ## One call -/

/-- A store to the array of slots. -/
theorem SwapArea.write (h : s.SwapArea dev) (hlt : entryOffset entry < s.maxSwapOffset)
    (hp : page < 2 ^ 20) :
    (s.swapfsWrite entry page).1 = 0 ∧ (s.swapfsWrite entry page).2.SwapArea dev ∧
      (s.swapfsWrite entry page).2.maxSwapOffset = s.maxSwapOffset ∧
      s.ide.Issued (s.swapfsWrite entry page).2.ide dev SWAP_START_SECTOR.toNat dev.size.toNat ∧
      ∀ n w, w < 1024 → (s.swapfsWrite entry page).2.slot dev n w =
        if n = slotNum entry then s.mem page w else s.slot dev n w := by
  obtain ⟨hdisk, hres, hslot⟩ := swapfsWrite_disk h.disk entry hp
  have hzero := hres.mpr (h.fits hlt)
  -- the commands of the write name the sectors of the slot and no others
  have hissued : s.ide.Issued (s.swapfsWrite entry page).2.ide dev (swapSector entry).toNat
      ((swapSector entry).toNat + SECTORS_PER_PAGE.toNat) := by
    obtain ⟨b, hb, rfl⟩ := h.disk.device
    rw [swapfsWrite_eq, setIde_ide, slotWrite, hb]
    exact Ide.blkWrite_issued _ (swapSector_add_le entry)
  have hmax : (s.swapfsWrite entry page).2.maxSwapOffset = s.maxSwapOffset := by
    rw [swapfsWrite_eq]
    rfl
  refine ⟨hzero, ⟨hdisk, h.lower, hmax.trans h.max⟩, hmax, h.issued hlt hissued, fun n w hw => ?_⟩
  rw [hslot n w hw]
  simp only [hzero, true_and]

/-- A load. -/
theorem SwapArea.read (h : s.SwapArea dev) (hlt : entryOffset entry < s.maxSwapOffset)
    (hp : page < 2 ^ 20) :
    (s.swapfsRead entry page).1 = 0 ∧ (s.swapfsRead entry page).2.SwapArea dev ∧
      (s.swapfsRead entry page).2.maxSwapOffset = s.maxSwapOffset ∧
      s.ide.Issued (s.swapfsRead entry page).2.ide dev SWAP_START_SECTOR.toNat dev.size.toNat ∧
      ∀ w, w < 1024 → (s.swapfsRead entry page).2.mem page w = s.slot dev (slotNum entry) w := by
  obtain ⟨hdisk, hres, -, hload⟩ := swapfsRead_disk h.disk entry hp
  have hzero := hres.mpr (h.fits hlt)
  have hissued : s.ide.Issued (s.swapfsRead entry page).2.ide dev (swapSector entry).toNat
      ((swapSector entry).toNat + SECTORS_PER_PAGE.toNat) := by
    obtain ⟨b, hb, rfl⟩ := h.disk.device
    rw [swapfsRead_eq, slotRead, hb]
    exact Ide.blkRead_issued _ (swapSector_add_le entry)
  have hmax : (s.swapfsRead entry page).2.maxSwapOffset = s.maxSwapOffset := by
    rw [swapfsRead_eq]
    rfl
  exact ⟨hzero, ⟨hdisk, h.lower, hmax.trans h.max⟩, hmax, h.issued hlt hissued, hload hzero⟩

/-! ## Any number of calls -/

/-- The area stays set up, and the calls stay in it. -/
theorem SwapArea.run (h : s.SwapArea dev) (hrun : Run execSwapfs okSwapfs s t) :
    t.SwapArea dev ∧ t.maxSwapOffset = s.maxSwapOffset ∧
      s.ide.Issued t.ide dev SWAP_START_SECTOR.toNat dev.size.toNat := by
  refine hrun.invariant (I := fun u => u.SwapArea dev ∧ u.maxSwapOffset = s.maxSwapOffset ∧
    s.ide.Issued u.ide dev SWAP_START_SECTOR.toNat dev.size.toNat) ⟨h, rfl, .of_eq rfl⟩ ?_
  rintro u op v ⟨hu, hmax, hissued⟩ hok heq
  cases op with
  | read entry page =>
    obtain ⟨-, hv, hmax', hissued', -⟩ := hu.read hok.1 hok.2
    obtain rfl := Option.some.inj heq
    exact ⟨hv, hmax'.trans hmax, hissued.trans hissued'⟩
  | write entry page =>
    obtain ⟨-, hv, hmax', hissued', -⟩ := hu.write hok.1 hok.2
    obtain rfl := Option.some.inj heq
    exact ⟨hv, hmax'.trans hmax, hissued.trans hissued'⟩

/-- What the swap file system promises in a state `u`, for entries below `max`: a page that is
written can be read back, and the pages of other entries are as before. -/
structure Independent (u : Vm) (max : Word) : Prop where
  write : ∀ e p, entryOffset e < max → p < 2 ^ 20 → (u.swapfsWrite e p).1 = 0
  readBack : ∀ e p q, entryOffset e < max → p < 2 ^ 20 → q < 2 ^ 20 →
    ((u.swapfsWrite e p).2.swapfsRead e q).1 = 0 ∧
      ∀ w, w < 1024 → ((u.swapfsWrite e p).2.swapfsRead e q).2.mem q w = u.mem p w
  other : ∀ e e' p q, entryOffset e < max → entryOffset e' < max →
    entryOffset e ≠ entryOffset e' → p < 2 ^ 20 → q < 2 ^ 20 →
    ((u.swapfsWrite e p).2.swapfsRead e' q).1 = (u.swapfsRead e' q).1 ∧
      ∀ w, w < 1024 →
        ((u.swapfsWrite e p).2.swapfsRead e' q).2.mem q w = (u.swapfsRead e' q).2.mem q w

theorem SwapArea.independent (h : s.SwapArea dev) : s.Independent s.maxSwapOffset := by
  refine ⟨fun e p he hp => (h.write he hp).1, fun e p q he hp hq => ?_,
    fun e e' p q he he' hne hp hq => ?_⟩
  · obtain ⟨-, ht, hmax, -, hslot⟩ := h.write he hp
    rw [← hmax] at he
    obtain ⟨hzero, -, -, -, hload⟩ := ht.read he hq
    refine ⟨hzero, fun w hw => ?_⟩
    rw [hload w hw, hslot _ w hw, if_pos rfl]
  · -- the read of another slot gives the same before and after the write
    obtain ⟨-, ht, hmax, -, hslot⟩ := h.write he hp
    obtain ⟨hzero', -, -, -, hload'⟩ := h.read he' hq
    rw [← hmax] at he'
    obtain ⟨hzero, -, -, -, hload⟩ := ht.read he' hq
    have hslots : slotNum e' ≠ slotNum e := by
      rw [← entryOffset_toNat, ← entryOffset_toNat]
      exact fun hh => hne (BitVec.eq_of_toNat_eq hh.symm)
    refine ⟨hzero.trans hzero'.symm, fun w hw => ?_⟩
    rw [hload w hw, hload' w hw, hslot _ w hw, if_neg hslots]

/-- After `swap_init`, and after any number of transfers of such entries: the slots are
independent, and all that was ever touched are sectors of the disk from `SWAP_START_SECTOR` on. -/
theorem swapfs_independent {b : BlockDevice} (h : s.SwapDisk b) (heq : s.swapInit = some t)
    (hrun : Run execSwapfs okSwapfs t u) :
    u.Independent t.maxSwapOffset ∧
      s.ide.Issued u.ide (s.ide.devices b.privateData) SWAP_START_SECTOR.toNat b.size.toNat := by
  obtain ⟨harea, hide⟩ := h.swapArea heq
  obtain ⟨hu, hmax, hissued⟩ := harea.run hrun
  refine ⟨hmax ▸ hu.independent, ?_⟩
  rw [hide, ← h.size] at hissued
  exact hissued

end Area

/-- Frame 4 is written to slot 1 of the small machine. -/
theorem swapfs_independent_booted :
    let s := ((sample 8 1024#32).swapFifoInitMm initMm).1
    let u := ((booted 8 1024#32).swapfsWrite 0x100#32 4).2
    u.Independent (booted 8 1024#32).maxSwapOffset ∧
      s.ide.Issued u.ide (s.ide.devices 0) SWAP_START_SECTOR.toNat (1024#32).toNat := by
  have hdisk : ((sample 8 1024#32).swapFifoInitMm initMm).1.SwapDisk ⟨BLK_TYPE_DISK, 1024#32, 0⟩ :=
    ⟨rfl, rfl, rfl, (booted_disk (n := 8) 1024#32).answers, by decide⟩
  have hok : (booted 8 1024#32).okSwapfs (.write 0x100#32 4) := by
    unfold okSwapfs
    decide
  exact swapfs_independent hdisk (booted_eq 8 1024#32) (.single ⟨.write 0x100#32 4, hok, rfl⟩)

end Vm
end Zonix
