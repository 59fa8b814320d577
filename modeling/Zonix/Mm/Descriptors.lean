import Zonix.Mm.MemMap

/-!
# The page descriptors, and the memory that `head.S` maps

`page_init` puts one descriptor for each page of the memory behind the kernel, before `vmm_init`
maps more than the first 4 MB. So whether it can write them depends on the size of the memory.
-/

namespace Zonix
open Lib

namespace PageInit

variable {e820 : List E820Entry} {kernelEnd : Word} {e : E820Entry} {p pt1 : ℕ}

/-! ## The boot page tables -/

theorem present_iff_odd (x : Word) : Present x ↔ x.toNat % 2 = 1 := by
  rw [present_iff, BitVec.getLsbD, Nat.testBit_zero, decide_eq_true_iff]

theorem present_bootPt1 (i : ℕ) : Present (bootPt1 i) := by
  have hflags : (PTE_P ||| PTE_W).toNat = 3 := by decide
  rw [present_iff_odd, bootPt1, BitVec.toNat_add, BitVec.toNat_ofNat, hflags, PG_SIZE]
  omega

theorem present_bootPgdir_iff (i : ℕ) : Present (bootPgdir pt1 i) ↔ i = 768 := by
  have hbase : pdx KERNEL_BASE = 768 := by decide
  rw [bootPgdir, hbase]
  split_ifs with hi
  · refine iff_of_true ?_ hi
    have hflags : (PTE_P ||| PTE_U ||| PTE_W).toNat = 7 := by decide
    rw [present_iff_odd, BitVec.toNat_add, hflags, page2pa, PG_SHIFT, BitVec.toNat_shiftLeft,
      Nat.shiftLeft_eq]
    omega
  · exact iff_of_false not_present_zero hi

/-- The 4 MB behind `KERNEL_BASE` are mapped, and nothing else is. -/
theorem bootMapped_iff (la : Word) :
    BootMapped pt1 la ↔ 0xC0000000 ≤ la.toNat ∧ la.toNat < 0xC0400000 := by
  rw [BootMapped, present_bootPgdir_iff, and_iff_left (present_bootPt1 _), pdx_eq]
  omega

/-! ## The array of descriptors -/

section Array
variable (hlow : 0xC0100000#32 ≤ kernelEnd) (hroom : kernelEnd ≤ 0xC03FF000#32)
include hlow hroom

/-- The array begins at the page behind the kernel. -/
theorem pages_toNat : 0xC0100000 ≤ (roundUp kernelEnd).toNat ∧
    (roundUp kernelEnd).toNat ≤ 0xC03FF000 := by
  have hsize : (BitVec.ofNat 32 PG_SIZE).toNat = 4096 := rfl
  have hone : (1#32).toNat = 1 := rfl
  have h₁ : 0xC0100000 ≤ kernelEnd.toNat := hlow
  have h₂ : kernelEnd.toNat ≤ 0xC03FF000 := hroom
  rw [roundUp, roundDown_toNat, BitVec.toNat_sub, BitVec.toNat_add, hsize, hone]
  omega

theorem pageDesc_toNat (hp : p ≤ 0x1000000) :
    (pageDesc kernelEnd p).toNat = (roundUp kernelEnd).toNat + 20 * p := by
  have hsize : SIZEOF_PAGE_DESC.toNat = 20 := rfl
  have hpages := pages_toNat hlow hroom
  rw [pageDesc, BitVec.toNat_add, BitVec.toNat_mul, BitVec.toNat_ofNat, hsize]
  omega

theorem descMapped_iff (hp : p ≤ 0x1000000) : DescMapped pt1 kernelEnd p ↔
    (roundUp kernelEnd).toNat + 20 * p + 20 ≤ 0xC0400000 := by
  have hsize : SIZEOF_PAGE_DESC.toNat = 20 := rfl
  have hpages := pages_toNat hlow hroom
  have haddr := pageDesc_toNat hlow hroom hp
  have hbyte : ∀ b < 20, (pageDesc kernelEnd p + BitVec.ofNat 32 b).toNat =
      (roundUp kernelEnd).toNat + 20 * p + b := by
    intro b hb
    rw [BitVec.toNat_add, BitVec.toNat_ofNat, haddr]
    omega
  constructor
  · intro h
    have hlast := (bootMapped_iff _).mp (h 19 (by rw [hsize]; omega))
    rw [hbyte 19 (by omega)] at hlast
    omega
  · intro h b hb
    rw [hsize] at hb
    rw [bootMapped_iff, hbyte b hb]
    omega

theorem pageDesc_le_iff (hp : p ≤ 0x1000000) :
    pageDesc kernelEnd p ≤ KERNEL_BASE + BOOT_MEM_SIZE ↔
      (roundUp kernelEnd).toNat + 20 * p ≤ 0xC0400000 := by
  have hend : (KERNEL_BASE + BOOT_MEM_SIZE).toNat = 0xC0400000 := by decide
  rw [BitVec.le_def, pageDesc_toNat hlow hroom hp, hend]

end Array

/-- The descriptors fit: the array ends within what is mapped; no range is inverted by the rounding;
and the base of a range that the rounding leaves empty is mapped too. -/
structure DescriptorsFit (e820 : List E820Entry) (kernelEnd : Word) : Prop where
  pages : pageDesc kernelEnd (npage e820).toNat ≤ KERNEL_BASE + BOOT_MEM_SIZE
  inverted : ∀ e ∈ e820, Usable (validMem e820 kernelEnd) e →
    roundUp64 (start (validMem e820 kernelEnd) e) ≤ roundDown64 (limit e)
  empty : ∀ e ∈ e820, Usable (validMem e820 kernelEnd) e →
    roundUp64 (start (validMem e820 kernelEnd) e) = roundDown64 (limit e) →
    pageDesc kernelEnd (stop e + 1) ≤ KERNEL_BASE + BOOT_MEM_SIZE

section Boot
variable (hram : ∀ e ∈ e820, e.type = E820_RAM →
    e.addr.toNat + e.size.toNat ≤ KERNEL_MEM_SIZE.toNat)
  (hlow : 0xC0100000#32 ≤ kernelEnd) (hroom : kernelEnd ≤ 0xC03FF000#32)
include hram

theorem limit_le_memSize (he : e ∈ e820) (hr : e.type = E820_RAM) :
    (limit e).toNat ≤ 0x38000000 := by
  have hend : e.addr.toNat + e.size.toNat ≤ 0x38000000 := hram e he hr
  rw [limit, BitVec.toNat_add]
  omega

theorem maxPa_le_memSize : (maxPa e820).toNat ≤ 0x38000000 :=
  maxPa_le_iff.mpr fun _ he hr => limit_le_memSize hram he hr

theorem npage_le : (npage e820).toNat ≤ 0x38000 := by
  have hmax := maxPa_le_memSize hram
  rw [npage_toNat]
  omega

theorem stop_le (he : e ∈ e820) (hr : e.type = E820_RAM) : stop e ≤ (npage e820).toNat := by
  have hmax := maxPa_le_memSize hram
  exact stop_le_npage he hr (by omega)

/-- Rounding up comes out at most one page behind rounding down. -/
theorem first_le {V : Word} (he : e ∈ e820) (hu : Usable V e) : first V e ≤ stop e + 1 := by
  have hend := limit_le_memSize hram he hu.1
  have hlt := hu.2
  rw [BitVec.lt_def] at hlt
  rw [first_eq, stop_eq]
  omega

include hlow hroom

/-- What `page_init` marks is mapped if and only if the array ends within what is mapped. -/
theorem array_mapped_iff : (∀ p < (npage e820).toNat, DescMapped pt1 kernelEnd p) ↔
    pageDesc kernelEnd (npage e820).toNat ≤ KERNEL_BASE + BOOT_MEM_SIZE := by
  have hpages := pages_toNat hlow hroom
  have hnpage := npage_le hram
  rw [pageDesc_le_iff hlow hroom (by omega)]
  constructor
  · intro h
    by_cases hzero : (npage e820).toNat = 0
    · omega
    · have hlast := h ((npage e820).toNat - 1) (by omega)
      rw [descMapped_iff hlow hroom (by omega)] at hlast
      omega
  · intro h p hp
    rw [descMapped_iff hlow hroom (by omega)]
    omega

/-- What `init_memmap` writes for an entry of the map, where the array is mapped. -/
theorem entry_mapped_iff {V : Word}
    (harray : ∀ p < (npage e820).toNat, DescMapped pt1 kernelEnd p) (he : e ∈ e820)
    (hu : Usable V e) :
    (∀ p, p = first V e ∨ first V e ≤ p ∧ p < first V e + count V e →
      DescMapped pt1 kernelEnd p) ↔
      roundUp64 (start V e) ≤ roundDown64 (limit e) ∧
        (roundUp64 (start V e) = roundDown64 (limit e) →
          pageDesc kernelEnd (stop e + 1) ≤ KERNEL_BASE + BOOT_MEM_SIZE) := by
  have hpages := pages_toNat hlow hroom
  have hnpage := npage_le hram
  have hfirst := first_le hram he hu
  have hstop := stop_le hram he hu.1
  have hcount := count_eq V e
  have hsame : roundUp64 (start V e) = roundDown64 (limit e) ↔ first V e = stop e := by
    rw [BitVec.toNat_eq, roundUp64_first, roundDown64_stop]
    omega
  rw [roundUp64_le_iff, hsame, pageDesc_le_iff hlow hroom (by omega)]
  constructor
  · intro h
    refine ⟨?_, fun heq => ?_⟩
    · -- an inverted range has descriptors in all of the address space
      by_contra hno
      rw [if_neg hno] at hcount
      have hfar := h 0x100000 (Or.inr ⟨by omega, by omega⟩)
      rw [descMapped_iff hlow hroom (by omega)] at hfar
      omega
    · have hbase := h _ (Or.inl rfl)
      rw [heq, descMapped_iff hlow hroom (by omega)] at hbase
      omega
  · rintro ⟨hle, hempty⟩ p hp
    rw [if_pos hle] at hcount
    by_cases hlt : first V e < stop e
    · exact harray p (by omega)
    · have hbase := hempty (by omega)
      rw [descMapped_iff hlow hroom (by omega)]
      omega

omit hram hlow hroom in
theorem written_iff : Written e820 kernelEnd p ↔ p < (npage e820).toNat ∨
    ∃ e ∈ e820, Usable (validMem e820 kernelEnd) e ∧
      (p = first (validMem e820 kernelEnd) e ∨ first (validMem e820 kernelEnd) e ≤ p ∧
        p < first (validMem e820 kernelEnd) e + count (validMem e820 kernelEnd) e) := by
  refine or_congr_right ⟨?_, ?_⟩
  · rintro ⟨m, hm, hp⟩
    obtain ⟨e, he, heq⟩ := List.mem_filterMap.mp hm
    obtain ⟨hu, rfl⟩ := memmapArgs_eq_some.mp heq
    exact ⟨e, he, hu, hp⟩
  · rintro ⟨e, he, hu, hp⟩
    exact ⟨_, List.mem_filterMap.mpr ⟨e, he, memmapArgs_eq_some.mpr ⟨hu, rfl⟩⟩, hp⟩

/-- Every descriptor that is written before `vmm_init` runs is mapped if and only if they fit. -/
theorem descriptors_mapped_iff :
    (∀ p, Written e820 kernelEnd p → DescMapped pt1 kernelEnd p) ↔
      DescriptorsFit e820 kernelEnd := by
  constructor
  · intro h
    have harray : ∀ p < (npage e820).toNat, DescMapped pt1 kernelEnd p := fun p hp =>
      h p (Or.inl hp)
    have hentry := fun e he hu => (entry_mapped_iff hram hlow hroom harray he hu).mp fun p hp =>
      h p (written_iff.mpr (Or.inr ⟨e, he, hu, hp⟩))
    exact ⟨(array_mapped_iff hram hlow hroom).mp harray, fun e he hu => (hentry e he hu).1,
      fun e he hu => (hentry e he hu).2⟩
  · intro h p hp
    have harray : ∀ p < (npage e820).toNat, DescMapped pt1 kernelEnd p :=
      (array_mapped_iff hram hlow hroom).mpr h.pages
    rcases written_iff.mp hp with hp | ⟨e, he, hu, hp⟩
    · exact harray p hp
    · exact (entry_mapped_iff hram hlow hroom harray he hu).mpr
        ⟨h.inverted e he hu, h.empty e he hu⟩ p hp

end Boot

/-- 704 MB of memory. -/
def largeMap : List E820Entry :=
  [⟨0x0#64, 0x9FC00#64, 1#32⟩, ⟨0x100000#64, 0x2BF00000#64, 1#32⟩]

/-- The descriptors of 704 MB reach behind the first 4 MB. -/
theorem largeMap_unmapped : (∀ e ∈ largeMap, e.type = E820_RAM →
      e.addr.toNat + e.size.toNat ≤ KERNEL_MEM_SIZE.toNat) ∧
    Written largeMap 0xC0120000#32 0x2BFFF ∧
    ∀ pt1, ¬ DescMapped pt1 0xC0120000#32 0x2BFFF := by
  refine ⟨by decide, Or.inl (by decide), fun pt1 h => ?_⟩
  rw [descMapped_iff (by decide) (by decide) (by decide)] at h
  exact absurd h (by decide)

theorem smallMap_mapped_iff : (∀ p, Written smallMap 0xC0120000#32 p →
    DescMapped 0x110 0xC0120000#32 p) ↔ DescriptorsFit smallMap 0xC0120000#32 :=
  descriptors_mapped_iff (by decide) (by decide) (by decide)

end PageInit
end Zonix
