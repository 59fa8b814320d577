import Mathlib.Data.Nat.Notation
import Mathlib.Logic.Basic
import Mathlib.Algebra.GroupWithZero.Nat

/-!
# Page tables of the x86: `include/arch/x86/mmu.h` and `asm/pg.h`

A `Word` is a 32-bit value: an address, a page-directory or page-table entry, or a
`uint32_t` of the drivers. The indices that the hardware and the kernel take out of an
address are natural numbers below 1024, and a page frame is the number of its 4096 bytes,
so that frame `f` begins at the physical address `page2pa f`.
-/

namespace Zonix

abbrev Word := BitVec 32

def PG_SHIFT : ℕ := 12
def PTX_SHIFT : ℕ := 12
def PDX_SHIFT : ℕ := 22

def PG_SIZE : ℕ := 4096
def PDE_NUM : ℕ := 1024
def PTE_NUM : ℕ := 1024

def PDX_MASK : Word := 0x3FF#32
def PTX_MASK : Word := 0x3FF#32

def PTE_P : Word := 0x001#32
def PTE_W : Word := 0x002#32
def PTE_U : Word := 0x004#32
def PTE_USER : Word := PTE_U ||| PTE_W ||| PTE_P

def KERNEL_BASE : Word := 0xC0000000#32
def VPT : Word := 0xFAC00000#32

/-- `PDX(la)`, the page directory index. -/
def pdx (la : Word) : ℕ := ((la >>> PDX_SHIFT) &&& PDX_MASK).toNat

/-- `PTX(la)`, the page table index. -/
def ptx (la : Word) : ℕ := ((la >>> PTX_SHIFT) &&& PTX_MASK).toNat

/-- `PTE_ADDR(pte)`, and `PDE_ADDR(pde)` alike. -/
def pteAddr (pte : Word) : Word := pte &&& ~~~0xFFF#32

/-- The flags of an entry. -/
def pteFlags (pte : Word) : Word := pte &&& 0xFFF#32

/-- `PAG_NUM(addr)`: the frame of a physical address, the page of a linear one. -/
def pagNum (addr : Word) : ℕ := (addr >>> PG_SHIFT).toNat

/-- `page2pa(page)`, for the descriptor `pages + page`. -/
def page2pa (page : ℕ) : Word := BitVec.ofNat 32 page <<< PG_SHIFT

/-- `ROUND_DOWN(a, PG_SIZE)` -/
def roundDown (a : Word) : Word := a - a % BitVec.ofNat 32 PG_SIZE

/-- `pte & PTE_P` -/
def Present (pte : Word) : Prop := pte &&& PTE_P ≠ 0#32

instance (pte : Word) : Decidable (Present pte) := inferInstanceAs (Decidable (_ ≠ _))

/-- `(pde_idx << 22) | (pte_idx << 12)` -/
def pageAddr (pdeIdx pteIdx : ℕ) : Word :=
  BitVec.ofNat 32 pdeIdx <<< 22 ||| BitVec.ofNat 32 pteIdx <<< 12

/-! ## Indices -/

theorem and_mask_toNat (x : Word) : (x &&& 0x3FF#32).toNat = x.toNat % 1024 := by
  rw [BitVec.toNat_and]
  exact Nat.and_two_pow_sub_one_eq_mod x.toNat 10

theorem pdx_eq (la : Word) : pdx la = la.toNat / 2 ^ 22 := by
  have hlt := la.isLt
  rw [pdx, PDX_MASK, and_mask_toNat, BitVec.toNat_ushiftRight, Nat.shiftRight_eq_div_pow,
    PDX_SHIFT]
  omega

theorem ptx_eq (la : Word) : ptx la = la.toNat / 2 ^ 12 % 1024 := by
  rw [ptx, PTX_MASK, and_mask_toNat, BitVec.toNat_ushiftRight, Nat.shiftRight_eq_div_pow,
    PTX_SHIFT]

theorem pdx_lt (la : Word) : pdx la < 1024 := by
  have hlt := la.isLt
  rw [pdx_eq]
  omega

theorem ptx_lt (la : Word) : ptx la < 1024 := by
  rw [ptx_eq]
  omega

theorem pagNum_eq (a : Word) : pagNum a = a.toNat / 2 ^ 12 := by
  rw [pagNum, BitVec.toNat_ushiftRight, Nat.shiftRight_eq_div_pow, PG_SHIFT]

theorem roundDown_toNat (a : Word) : (roundDown a).toNat = a.toNat / 4096 * 4096 := by
  have hsize : (BitVec.ofNat 32 PG_SIZE).toNat = 4096 := rfl
  have hlt := a.isLt
  rw [roundDown, BitVec.toNat_sub, BitVec.toNat_umod, hsize]
  omega

theorem pagNum_roundDown (a : Word) : pagNum (roundDown a) = pagNum a := by
  rw [pagNum_eq, pagNum_eq, roundDown_toNat]
  omega

theorem pagNum_eq_index (la : Word) : pagNum la = pdx la * 1024 + ptx la := by
  rw [pagNum_eq, pdx_eq, ptx_eq]
  omega

theorem pagNum_lt (la : Word) : pagNum la < 2 ^ 20 := by
  have hlt := la.isLt
  rw [pagNum_eq]
  omega

/-- Two addresses are on one page when they have both indices in common. -/
theorem pagNum_inj {la la' : Word} :
    pagNum la = pagNum la' ↔ pdx la = pdx la' ∧ ptx la = ptx la' := by
  have h := ptx_lt la
  have h' := ptx_lt la'
  rw [pagNum_eq_index, pagNum_eq_index]
  omega

theorem lt_kernelBase_iff {la : Word} : la < KERNEL_BASE ↔ pdx la < 768 := by
  have hk : KERNEL_BASE.toNat = 768 * 2 ^ 22 := by decide
  rw [BitVec.lt_def, hk, pdx_eq]
  omega

theorem pdx_vpt : pdx VPT = 1003 := by decide

/-- User addresses are outside the self-mapping slot. -/
theorem pdx_ne_vpt {la : Word} (hla : la < KERNEL_BASE) : pdx la ≠ pdx VPT := by
  rw [lt_kernelBase_iff] at hla
  rw [pdx_vpt]
  omega

theorem pageAddr_toNat {d t : ℕ} (hd : d < 1024) (ht : t < 1024) :
    (pageAddr d t).toNat = d * 2 ^ 22 + t * 2 ^ 12 := by
  have hd' : (BitVec.ofNat 32 d <<< 22).toNat = d <<< 22 := by
    rw [BitVec.toNat_shiftLeft, BitVec.toNat_ofNat, Nat.shiftLeft_eq, Nat.shiftLeft_eq]
    omega
  have ht' : (BitVec.ofNat 32 t <<< 12).toNat = t * 2 ^ 12 := by
    rw [BitVec.toNat_shiftLeft, BitVec.toNat_ofNat, Nat.shiftLeft_eq]
    omega
  rw [pageAddr, BitVec.toNat_or, hd', ht', ← Nat.shiftLeft_add_eq_or_of_lt (by omega),
    Nat.shiftLeft_eq]

@[simp] theorem pdx_pageAddr {d t : ℕ} (hd : d < 1024) (ht : t < 1024) :
    pdx (pageAddr d t) = d := by
  rw [pdx_eq, pageAddr_toNat hd ht]
  omega

@[simp] theorem ptx_pageAddr {d t : ℕ} (hd : d < 1024) (ht : t < 1024) :
    ptx (pageAddr d t) = t := by
  rw [ptx_eq, pageAddr_toNat hd ht]
  omega

/-- The first address of the page of `la`. -/
theorem pageAddr_index_toNat (la : Word) :
    (pageAddr (pdx la) (ptx la)).toNat = la.toNat / 2 ^ 12 * 2 ^ 12 := by
  rw [pageAddr_toNat (pdx_lt la) (ptx_lt la), pdx_eq, ptx_eq]
  omega

/-! ## Entries -/

theorem page2pa_toNat {p : ℕ} (hp : p < 2 ^ 20) : (page2pa p).toNat = p * 2 ^ 12 := by
  rw [page2pa, BitVec.toNat_shiftLeft, BitVec.toNat_ofNat, Nat.shiftLeft_eq, PG_SHIFT]
  omega

@[simp] theorem pagNum_page2pa {p : ℕ} (hp : p < 2 ^ 20) : pagNum (page2pa p) = p := by
  rw [pagNum_eq, page2pa_toNat hp]
  omega

theorem pteAddr_getLsbD (x : Word) (i : ℕ) :
    (pteAddr x).getLsbD i = (decide (12 ≤ i) && x.getLsbD i) := by
  by_cases hi : i < 32
  · have hmask : ∀ j < 32, (~~~0xFFF#32).getLsbD j = decide (12 ≤ j) := by decide
    rw [pteAddr, BitVec.getLsbD_and, hmask i hi, Bool.and_comm]
  · rw [BitVec.getLsbD_of_ge _ _ (by omega), BitVec.getLsbD_of_ge _ _ (by omega), Bool.and_false]

@[simp] theorem pagNum_pteAddr (x : Word) : pagNum (pteAddr x) = pagNum x := by
  rw [pagNum, pagNum]
  congr 1
  apply BitVec.eq_of_getLsbD_eq
  intro i hi
  rw [BitVec.getLsbD_ushiftRight, BitVec.getLsbD_ushiftRight, pteAddr_getLsbD]
  simp [PG_SHIFT]

/-- `PTE_ADDR(pte) == page2pa(page)` -/
theorem pteAddr_eq_page2pa {x : Word} {p : ℕ} (hp : p < 2 ^ 20) :
    pteAddr x = page2pa p ↔ pagNum x = p := by
  constructor
  · intro h
    rw [← pagNum_pteAddr, h, pagNum_page2pa hp]
  · rintro rfl
    apply BitVec.eq_of_getLsbD_eq
    intro i hi
    rw [pteAddr_getLsbD, page2pa, BitVec.getLsbD_shiftLeft, pagNum, PG_SHIFT,
      BitVec.ofNat_toNat, BitVec.setWidth_eq, BitVec.getLsbD_ushiftRight]
    by_cases h12 : 12 ≤ i
    · simp [h12, hi]
    · have : i < 12 := by omega
      simp [h12, this]

theorem getLsbD_of_flags {x : Word} (hx : x < 0x1000#32) {i : ℕ} (hi : 12 ≤ i) :
    x.getLsbD i = false := by
  rw [BitVec.lt_def] at hx
  have hpow : (2 : ℕ) ^ 12 ≤ 2 ^ i := Nat.pow_le_pow_right (by decide) hi
  exact Nat.testBit_lt_two_pow (Nat.lt_of_lt_of_le hx hpow)

theorem page2pa_getLsbD {p i : ℕ} (hi : i < 12) : (page2pa p).getLsbD i = false := by
  rw [page2pa, BitVec.getLsbD_shiftLeft, PG_SHIFT]
  simp [hi]

/-- An entry made of a frame and flags: its address is the frame's. -/
theorem pteAddr_entry (p : ℕ) {flags : Word} (hf : flags < 0x1000#32) :
    pteAddr (page2pa p ||| flags) = page2pa p := by
  apply BitVec.eq_of_getLsbD_eq
  intro i hi
  rw [pteAddr_getLsbD, BitVec.getLsbD_or]
  by_cases h12 : 12 ≤ i
  · simp [h12, getLsbD_of_flags hf h12]
  · simp [h12, page2pa_getLsbD (Nat.lt_of_not_le h12)]

theorem pteFlags_entry (p : ℕ) {flags : Word} (hf : flags < 0x1000#32) :
    pteFlags (page2pa p ||| flags) = flags := by
  apply BitVec.eq_of_getLsbD_eq
  intro i hi
  have hmask : ∀ j < 32, (0xFFF#32).getLsbD j = decide (j < 12) := by decide
  rw [pteFlags, BitVec.getLsbD_and, BitVec.getLsbD_or, hmask i hi]
  by_cases h12 : 12 ≤ i
  · simp [Nat.not_lt.mpr h12, getLsbD_of_flags hf h12]
  · simp [Nat.lt_of_not_le h12, page2pa_getLsbD (Nat.lt_of_not_le h12)]

theorem or_PTE_P_lt {perm : Word} (hp : perm < 0x1000#32) : perm ||| PTE_P < 0x1000#32 := by
  rw [BitVec.lt_def] at hp ⊢
  rw [BitVec.toNat_or]
  exact Nat.or_lt_two_pow (n := 12) hp (by decide)

theorem present_iff (x : Word) : Present x ↔ x.getLsbD 0 = true := by
  rw [Present, Ne, PTE_P, BitVec.and_one_eq_setWidth_ofBool_getLsbD]
  cases x.getLsbD 0 <;> decide

theorem present_or (x y : Word) : Present (x ||| y) ↔ Present x ∨ Present y := by
  rw [present_iff, present_iff, present_iff, BitVec.getLsbD_or, Bool.or_eq_true]

theorem present_PTE_P : Present PTE_P := by decide

theorem present_PTE_USER : Present PTE_USER := by decide

theorem present_entry (x : Word) : Present (x ||| PTE_P) :=
  (present_or _ _).mpr (Or.inr present_PTE_P)

theorem not_present_zero : ¬ Present 0#32 := by decide

/-- A swap entry has its present bit clear. -/
theorem not_present_shiftLeft (x : Word) : ¬ Present (x <<< 8) := by
  rw [present_iff, BitVec.getLsbD_shiftLeft]
  simp

/-- Flags below the frame number do not change it. -/
theorem pagNum_or {x y : Word} (hy : y < 0x1000#32) : pagNum (x ||| y) = pagNum x := by
  have hy' : y >>> PG_SHIFT = 0#32 := by
    apply BitVec.eq_of_toNat_eq
    rw [BitVec.lt_def] at hy
    rw [BitVec.toNat_ushiftRight, Nat.shiftRight_eq_div_pow, PG_SHIFT]
    exact Nat.div_eq_of_lt hy
  rw [pagNum, pagNum, BitVec.ushiftRight_or_distrib, hy', BitVec.or_zero]

/-- The frame of an entry that `page_insert` makes. -/
theorem pagNum_entry {p : ℕ} (hp : p < 2 ^ 20) {perm : Word} (hperm : perm < 0x1000#32) :
    pagNum (page2pa p ||| perm ||| PTE_P) = p := by
  rw [BitVec.or_assoc, pagNum_or (or_PTE_P_lt hperm), pagNum_page2pa hp]

end Zonix
