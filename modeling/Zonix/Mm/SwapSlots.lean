import Zonix.Mm.SwapEffects
import Zonix.Drivers.HdTheorems

/-!
# Swap slots

The slot of a swap entry is eight sectors of the swap device. On a disk that answers, writing
a page to a slot changes that slot only, and reading it back returns the page.
-/

namespace Zonix
open Lib

namespace Vm

/-- The swap offset in an entry. -/
def slotNum (entry : Word) : ℕ := entry.toNat / 2 ^ 8

/-- Word `w` of a swap slot. -/
def slot (s : Vm) (dev : IdeDevice) (n w : ℕ) : Word :=
  s.ide.sector dev.base (decide (dev.drive ≠ 0#8))
    (SWAP_START_SECTOR.toNat + n * SECTORS_PER_PAGE.toNat + w / SECTOR_WORDS) (w % SECTOR_WORDS)

/-- The swap device is there, and transfers to it never fail from now on. -/
structure Disk (s : Vm) (dev : IdeDevice) : Prop where
  device : ∃ b, s.swapDevice = some b ∧ s.ide.devices b.privateData = dev
  present : dev.present = true
  answers : s.ide.Answers dev.base

/-- The slot of the entry is inside the device. -/
def Fits (dev : IdeDevice) (entry : Word) : Prop :=
  SWAP_START_SECTOR.toNat + slotNum entry * SECTORS_PER_PAGE.toNat + SECTORS_PER_PAGE.toNat ≤
    dev.size.toNat

theorem swapStartSector_toNat : SWAP_START_SECTOR.toNat = 1000 := rfl

theorem sectorsPerPage_toNat : SECTORS_PER_PAGE.toNat = 8 := rfl

theorem slotNum_lt (entry : Word) : slotNum entry < 2 ^ 24 := by
  have hlt := entry.isLt
  rw [slotNum]
  omega

theorem swapSector_toNat (entry : Word) : (swapSector entry).toNat =
    SWAP_START_SECTOR.toNat + slotNum entry * SECTORS_PER_PAGE.toNat := by
  have hlt := slotNum_lt entry
  have hnum : ((entry >>> 8) &&& 0xFFFFFF#32).toNat = slotNum entry := by
    rw [BitVec.toNat_and, BitVec.toNat_ushiftRight, Nat.shiftRight_eq_div_pow,
      show (0xFFFFFF#32).toNat = 2 ^ 24 - 1 from rfl, Nat.and_two_pow_sub_one_eq_mod]
    exact Nat.mod_eq_of_lt hlt
  rw [swapSector, BitVec.toNat_add, BitVec.toNat_mul, hnum, swapStartSector_toNat,
    sectorsPerPage_toNat]
  omega

/-- The sectors of a slot have numbers of 28 bits. -/
theorem swapSector_add_le (entry : Word) :
    (swapSector entry).toNat + SECTORS_PER_PAGE.toNat ≤ 2 ^ 28 := by
  have hlt := slotNum_lt entry
  rw [swapSector_toNat, swapStartSector_toNat, sectorsPerPage_toNat]
  omega

/-- What the driver checks. -/
theorem lt_swapSector_iff {dev : IdeDevice} {entry : Word} :
    dev.size < swapSector entry + SECTORS_PER_PAGE ↔ ¬ Fits dev entry := by
  have hle := swapSector_add_le entry
  rw [Fits, ← swapSector_toNat, BitVec.lt_def, BitVec.toNat_add]
  omega

/-- All sectors of the slot are on the disk. -/
theorem Fits.le_size {dev : IdeDevice} {entry : Word} (h : Fits dev entry) :
    (swapSector entry).toNat + SECTORS_PER_PAGE.toNat ≤ dev.size.toNat := by
  rw [swapSector_toNat]
  exact h

/-- Entries with no bits below the offset are told apart by it. -/
theorem slotNum_shiftLeft (off : Word) : slotNum (off <<< 8) = off.toNat % 2 ^ 24 := by
  rw [slotNum, BitVec.toNat_shiftLeft, Nat.shiftLeft_eq]
  omega

section Disk
variable {s t : Vm} {dev : IdeDevice}

theorem Disk.congr (h : s.Disk dev) (hdev : t.swapDevice = s.swapDevice)
    (hide : Ide.Later s.ide t.ide) : t.Disk dev := by
  obtain ⟨b, hb, hdevs⟩ := h.device
  refine ⟨⟨b, hdev.trans hb, ?_⟩, h.present, h.answers.later hide⟩
  rw [hide.devices, hdevs]

/-- What the write of a slot leaves in every slot. -/
theorem slot_of_stored {ide : Ide} {src : ℕ → Word} {n : ℕ}
    (h : Ide.Stored s.ide ide dev (SWAP_START_SECTOR.toNat + n * SECTORS_PER_PAGE.toNat) src 0
      SECTORS_PER_PAGE.toNat) (m : ℕ) {w : ℕ} (hw : w < 1024) :
    (s.setIde ide).slot dev m w = if m = n then src w else s.slot dev m w := by
  have hlt : w % SECTOR_WORDS < SECTOR_WORDS := Nat.mod_lt _ (by decide)
  have hdiv := Nat.div_add_mod w SECTOR_WORDS
  have hw8 : w / SECTOR_WORDS < 8 := Nat.div_lt_of_lt_mul hw
  rw [slot, slot, setIde_ide, h, sectorsPerPage_toNat]
  generalize w / SECTOR_WORDS = i at *
  by_cases hm : m = n
  · subst hm
    rw [if_pos ⟨rfl, rfl, by omega, by omega, hlt⟩, if_pos rfl, Nat.add_sub_cancel_left,
      Nat.mul_comm, hdiv]
  · rw [if_neg hm, if_neg fun hh => by omega]

theorem swapfsWrite_disk (h : s.Disk dev) (entry : Word) {page : ℕ} (hp : page < 2 ^ 20) :
    (s.swapfsWrite entry page).2.Disk dev ∧
      ((s.swapfsWrite entry page).1 = 0 ↔ Fits dev entry) ∧
      ∀ n w, w < 1024 → (s.swapfsWrite entry page).2.slot dev n w =
        if (s.swapfsWrite entry page).1 = 0 ∧ n = slotNum entry then s.mem page w
        else s.slot dev n w := by
  obtain ⟨b, hb, hdevs⟩ := h.device
  have hsector := swapSector_toNat entry
  have hwrite : s.slotWrite entry page = s.ide.hdWriteDevice b.privateData (swapSector entry)
      (s.mem page) SECTORS_PER_PAGE := by
    rw [slotWrite, hb, pagNum_page2pa hp]
    rfl
  by_cases hfit : Fits dev entry
  · have hsize := hdevs.symm ▸ hfit.le_size
    obtain ⟨ide, heq, hlater, hstored⟩ := Ide.hdWriteDevice_spec (swapSector entry) (s.mem page)
      SECTORS_PER_PAGE (hdevs.symm ▸ h.answers) (hdevs.symm ▸ h.present) hsize
      (swapSector_add_le entry)
    have heq' : s.swapfsWrite entry page = (0, s.setIde ide) := by
      rw [swapfsWrite_eq, hwrite, heq]
      rfl
    rw [heq']
    rw [hdevs, hsector] at hstored
    refine ⟨h.congr rfl hlater, iff_of_true rfl hfit, fun n w hw => ?_⟩
    rw [slot_of_stored hstored n hw]
    simp
  · -- past the end of the disk nothing is written
    have hfail : s.ide.hdWriteDevice b.privateData (swapSector entry) (s.mem page)
        SECTORS_PER_PAGE = (-1, s.ide) := by
      have hlt : (s.ide.devices b.privateData).size < swapSector entry + SECTORS_PER_PAGE := by
        rw [hdevs]
        exact lt_swapSector_iff.mpr hfit
      rw [Ide.hdWriteDevice, if_neg (by simp [hdevs, h.present]), if_pos hlt]
    have heq : s.swapfsWrite entry page = (-1, s.setIde s.ide) := by
      rw [swapfsWrite_eq, hwrite, hfail]
      rfl
    rw [heq]
    refine ⟨h.congr rfl (.refl _), iff_of_false (by simp) hfit, fun n w hw => ?_⟩
    rw [if_neg fun hh => absurd hh.1 (by simp)]
    rfl

theorem swapfsRead_disk (h : s.Disk dev) (entry : Word) {page : ℕ} (hp : page < 2 ^ 20) :
    (s.swapfsRead entry page).2.Disk dev ∧
      ((s.swapfsRead entry page).1 = 0 ↔ Fits dev entry) ∧
      (∀ n w, (s.swapfsRead entry page).2.slot dev n w = s.slot dev n w) ∧
      ((s.swapfsRead entry page).1 = 0 → ∀ w, w < 1024 →
        (s.swapfsRead entry page).2.mem page w = s.slot dev (slotNum entry) w) := by
  obtain ⟨b, hb, hdevs⟩ := h.device
  have hsector := swapSector_toNat entry
  have hread : s.slotRead entry page = s.ide.hdReadDevice b.privateData (swapSector entry)
      (s.mem page) SECTORS_PER_PAGE := by
    rw [slotRead, hb, pagNum_page2pa hp]
    rfl
  by_cases hfit : Fits dev entry
  · have hsize := hdevs.symm ▸ hfit.le_size
    obtain ⟨ide, buf, heq, hlater, hsame, hloaded⟩ := Ide.hdReadDevice_spec (swapSector entry)
      (s.mem page) SECTORS_PER_PAGE (hdevs.symm ▸ h.answers) (hdevs.symm ▸ h.present) hsize
      (swapSector_add_le entry)
    have heq' : s.swapfsRead entry page = (0, (s.setIde ide).setFrame page buf) := by
      rw [swapfsRead_eq, hread, heq, pagNum_page2pa hp]
      rfl
    rw [heq']
    rw [hdevs, hsector] at hloaded
    refine ⟨h.congr rfl hlater, iff_of_true rfl hfit, fun n w => ?_, fun _ w hw => ?_⟩
    · show ide.sector _ _ _ _ = _
      rw [hsame]
      rfl
    · have hw8 : w / SECTOR_WORDS < 8 := Nat.div_lt_of_lt_mul hw
      rw [setFrame_mem, if_pos rfl, hloaded, sectorsPerPage_toNat,
        if_pos ⟨Nat.zero_le _, by omega⟩]
      rfl
  · have hfail : s.ide.hdReadDevice b.privateData (swapSector entry) (s.mem page)
        SECTORS_PER_PAGE = (-1, s.ide, s.mem page) := by
      have hlt : (s.ide.devices b.privateData).size < swapSector entry + SECTORS_PER_PAGE := by
        rw [hdevs]
        exact lt_swapSector_iff.mpr hfit
      rw [Ide.hdReadDevice, if_neg (by simp [hdevs, h.present]), if_pos hlt]
    have heq : s.swapfsRead entry page = (-1, (s.setIde s.ide).setFrame page (s.mem page)) := by
      rw [swapfsRead_eq, hread, hfail, pagNum_page2pa hp]
      rfl
    rw [heq]
    exact ⟨h.congr rfl (.refl _), iff_of_false (by simp) hfit, fun n w => rfl,
      fun hh => absurd hh (by simp)⟩

/-- The slots are what the disk holds. -/
theorem slot_congr (h : t.ide = s.ide) (n w : ℕ) : t.slot dev n w = s.slot dev n w := by
  rw [slot, slot, h]

theorem Disk.of_eq (h : s.Disk dev) (hdev : t.swapDevice = s.swapDevice) (hide : t.ide = s.ide) :
    t.Disk dev :=
  h.congr hdev (hide ▸ .refl _)

theorem PageInsert.keeps_disk {pgdir page : ℕ} {la perm : Word} {res : ℤ}
    (hins : PageInsert s pgdir page la perm res t) :
    t.swapDevice = s.swapDevice ∧ t.ide = s.ide := by
  cases hins with
  | failure => exact ⟨rfl, rfl⟩
  | @success table i u hget =>
    have hu : u.swapDevice = s.swapDevice ∧ u.ide = s.ide := by
      cases hget <;> exact ⟨rfl, rfl⟩
    refine ⟨?_, ?_⟩
    · rw [mapPage, tlbInvl_swapDevice]
      exact hu.1
    · rw [mapPage_ide]
      exact hu.2

end Disk

/-! ## Swapping and the slots -/

section Swapping
variable {s t : Vm} {mm : MmStruct} {ram : Set ℕ} {qs : List ℕ} {dev : IdeDevice}

/-- `swap_in` writes no slot. -/
theorem SwapIn.disk (h : s.Space mm ram qs) (hd : s.Disk dev) {addr : Word} {r : ℤ}
    {p : Option ℕ} (hin : SwapIn s mm addr r p t) :
    t.Disk dev ∧ ∀ n w, t.slot dev n w = s.slot dev n w := by
  have hread : ∀ {page : ℕ} (pmm : Pmm) {r : ℤ} {u : Vm}, page ∈ s.pmm.freePages →
      (s.setPmm pmm).swapfsRead (s.pteAt mm.pgdir addr) page = (r, u) →
      u.Disk dev ∧ ∀ n w, u.slot dev n w = s.slot dev n w := by
    intro page pmm r u hfree hu
    have hd' : (s.setPmm pmm).Disk dev := hd.of_eq rfl rfl
    obtain ⟨hdisk, -, hslots, -⟩ :=
      swapfsRead_disk hd' (s.pteAt mm.pgdir addr) (h.freeLow page hfree)
    rw [hu] at hdisk hslots
    exact ⟨hdisk, hslots⟩
  cases hin with
  | exhausted => exact ⟨hd, fun n w => rfl⟩
  | noTable => exact ⟨hd.of_eq rfl rfl, fun n w => rfl⟩
  | readFailed ht hp hu hr hg =>
    obtain ⟨hdisk, hslots⟩ := hread _ ht.one.1 hu
    exact ⟨hdisk.of_eq rfl rfl, hslots⟩
  | loaded ht hp hu hins =>
    obtain ⟨hdisk, hslots⟩ := hread _ ht.one.1 hu
    obtain ⟨hdev, hide⟩ := hins.keeps_disk
    refine ⟨hdisk.of_eq hdev hide, fun n w => ?_⟩
    rw [← hslots]
    exact slot_congr hide n w

/-- An iteration of `swap_out` writes the slot of the evicted page, and no other. -/
theorem SwapOutOne.disk (h : s.Space mm ram qs) (hd : s.Disk dev) {o : Outcome}
    (ho : SwapOutOne s mm o t) : t.Disk dev ∧ ∀ n w, w < 1024 → t.slot dev n w =
      match o with
      | .evicted v _ => if n = slotNum (s.swapOffset <<< 8) then s.mem v w else s.slot dev n w
      | _ => s.slot dev n w := by
  have hwrite : ∀ {v : ℕ} {r : ℤ} {u : Vm}, listNext s.pmm.link mm.swapList = .pageLink v →
      (s.dequeued v).swapfsWrite (s.swapOffset <<< 8) v = (r, u) →
      u.Disk dev ∧ ∀ n w, w < 1024 → u.slot dev n w =
        if r = 0 ∧ n = slotNum (s.swapOffset <<< 8) then s.mem v w else s.slot dev n w := by
    intro v r u hn hu
    have hram : v ∈ ram := h.lists.inRam v (h.eq_cons hn ▸ List.mem_cons_self)
    have hd' : (s.dequeued v).Disk dev := hd.of_eq rfl rfl
    obtain ⟨hdisk, -, hslots⟩ := swapfsWrite_disk hd' (s.swapOffset <<< 8) (h.low v hram)
    rw [hu] at hdisk hslots
    exact ⟨hdisk, hslots⟩
  cases ho with
  | stop => exact ⟨hd, fun n w _ => rfl⟩
  | notFound => exact ⟨hd.of_eq rfl rfl, fun n w _ => rfl⟩
  | writeFailed hn hfind hp hw hr =>
    obtain ⟨hdisk, hslots⟩ := hwrite hn hw
    refine ⟨hdisk, fun n w hlt => ?_⟩
    rw [hslots n w hlt, if_neg fun hh => hr hh.1]
  | evicted hn hfind hp hw hg =>
    obtain ⟨hdisk, hslots⟩ := hwrite hn hw
    refine ⟨hdisk.of_eq (tlbInvl_swapDevice ..) (evictState_ide ..), fun n w hlt => ?_⟩
    rw [slot_congr (evictState_ide ..), hslots n w hlt]
    simp

end Swapping
end Vm
end Zonix
