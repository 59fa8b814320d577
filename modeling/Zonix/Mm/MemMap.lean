import Zonix.Mm.PageInitTheorems
import Mathlib.Order.Interval.Set.Basic

/-!
# The calls of `init_memmap`, and the descriptors that they write

`page_init` asks whether an entry of the map is empty before it rounds its ends, and the array of
descriptors grows with the memory. So the calls are right for an entry that holds a whole page, and
the descriptors are mapped as long as they all fit in the 4 MB that `head.S` maps.
-/

namespace Zonix
namespace PageInit

variable {e820 : List E820Entry} {kernelEnd V : Word} {e : E820Entry} {p : ℕ}

/-! ## The end of the memory -/

/-- One step of the first loop. -/
theorem maxPa_step (a : BitVec 64) (e : E820Entry) :
    (if e.type = E820_RAM ∧ a < e.addr + e.size then e.addr + e.size else a).toNat =
      if e.type = E820_RAM then max a.toNat (limit e).toNat else a.toNat := by
  unfold limit
  by_cases hram : e.type = E820_RAM
  · rw [if_pos hram]
    by_cases hlt : a < e.addr + e.size
    · rw [if_pos ⟨hram, hlt⟩]
      rw [BitVec.lt_def] at hlt
      omega
    · rw [if_neg fun hh => hlt hh.2]
      rw [BitVec.lt_def] at hlt
      omega
  · rw [if_neg hram, if_neg fun hh => hram hh.1]

/-- The first loop finds the least upper bound of the ends of the RAM entries. -/
theorem maxPa_le_iff {b : ℕ} : (maxPa e820).toNat ≤ b ↔
    ∀ e ∈ e820, e.type = E820_RAM → (limit e).toNat ≤ b := by
  have hloop : ∀ a : BitVec 64, (e820.foldl (fun maxPa e =>
      if e.type = E820_RAM ∧ maxPa < e.addr + e.size then e.addr + e.size else maxPa) a).toNat ≤ b ↔
        a.toNat ≤ b ∧ ∀ e ∈ e820, e.type = E820_RAM → (limit e).toNat ≤ b := by
    induction e820 with
    | nil => simp
    | cons e es ih =>
      intro a
      rw [List.foldl_cons, ih, maxPa_step, List.forall_mem_cons]
      by_cases hram : e.type = E820_RAM
      · rw [if_pos hram, Nat.max_le]
        simp only [hram, true_imp_iff, and_assoc]
      · rw [if_neg hram]
        simp only [hram, false_imp_iff, true_and]
  rw [maxPa, hloop]
  exact and_iff_right (Nat.zero_le b)

theorem npage_toNat (e820 : List E820Entry) :
    (npage e820).toNat = (maxPa e820).toNat / 4096 % 2 ^ 32 := by
  rw [npage, BitVec.toNat_setWidth, BitVec.toNat_ushiftRight, Nat.shiftRight_eq_div_pow, PG_SHIFT]

/-- Below 16 TB, the frames of an entry are counted. -/
theorem stop_le_npage (he : e ∈ e820) (hram : e.type = E820_RAM)
    (hlt : (maxPa e820).toNat < 2 ^ 44) : stop e ≤ (npage e820).toNat := by
  have hle := maxPa_le_iff.mp (le_refl (maxPa e820).toNat) e he hram
  rw [stop_eq, npage_toNat]
  omega

/-! ## One call for each entry with a whole page -/

/-- The pages that lie in the addresses from `lo` to `hi`. -/
def wholePages (lo hi : ℕ) : Set ℕ := {p | lo ≤ p * PG_SIZE ∧ (p + 1) * PG_SIZE ≤ hi}

/-- `init_memmap` is called for the entry exactly when a whole page lies behind the descriptors;
and then for these pages, of which there are no more than `npage`. -/
structure Precise (e820 : List E820Entry) (kernelEnd : Word) (e : E820Entry) : Prop where
  called : (memmapArgs (validMem e820 kernelEnd) e).isSome ↔
    (wholePages (max e.addr.toNat (validMem e820 kernelEnd).toNat)
      (e.addr.toNat + e.size.toNat)).Nonempty
  args : ∀ m, memmapArgs (validMem e820 kernelEnd) e = some m →
    wholePages (max e.addr.toNat (validMem e820 kernelEnd).toNat)
      (e.addr.toNat + e.size.toNat) = Set.Ico m.1 (m.1 + m.2) ∧
    1 ≤ m.2 ∧ m.2 ≤ (npage e820).toNat

/-- A range that is not empty is not empty after rounding; and, where the memory reaches 16 TB, its
pages are not more than the low 32 bits of the number of all pages. -/
def RoundsWell (e820 : List E820Entry) (V : Word) (e : E820Entry) : Prop :=
  start V e < limit e → roundUp64 (start V e) < roundDown64 (limit e) ∧
    (2 ^ 44 ≤ (maxPa e820).toNat →
      (roundDown64 (limit e) - roundUp64 (start V e)).toNat ≤ (npage e820).toNat * PG_SIZE)

theorem wholePages_eq (lo hi : ℕ) :
    wholePages lo hi = Set.Ico ((lo + 4095) / 4096) (hi / 4096) := by
  ext p
  rw [Set.mem_Ico]
  show lo ≤ p * 4096 ∧ (p + 1) * 4096 ≤ hi ↔ _
  omega

section Entry
variable (hend : e.addr.toNat + e.size.toNat ≤ 2 ^ 32 - 4096)
include hend

theorem limit_of_end : (limit e).toNat = e.addr.toNat + e.size.toNat := by
  rw [limit, BitVec.toNat_add]
  omega

/-- Nothing is dropped by the casts to 32 bits. -/
theorem wholePages_entry (hlt : start V e < limit e) :
    wholePages (max e.addr.toNat V.toNat) (e.addr.toNat + e.size.toNat) =
      Set.Ico (first V e) (stop e) := by
  rw [BitVec.lt_def, start_toNat, limit_of_end hend] at hlt
  rw [wholePages_eq, first_eq, stop_eq, start_toNat, limit_of_end hend, max_comm,
    Nat.mod_eq_of_lt (by omega), Nat.mod_eq_of_lt (by omega)]

/-- Without addresses behind the descriptors there is no page. -/
theorem wholePages_unusable (hlt : ¬ start V e < limit e) :
    wholePages (max e.addr.toNat V.toNat) (e.addr.toNat + e.size.toNat) = ∅ := by
  rw [BitVec.lt_def, start_toNat, limit_of_end hend] at hlt
  rw [wholePages_eq]
  exact Set.Ico_eq_empty (by omega)

omit hend in
theorem rounded_length (hle : first V e ≤ stop e) :
    (roundDown64 (limit e) - roundUp64 (start V e)).toNat = (stop e - first V e) * 4096 := by
  have hbound := stop_lt e
  rw [BitVec.toNat_sub_of_le (roundUp64_le_iff.mpr hle), roundDown64_stop, roundUp64_first,
    Nat.sub_mul]

omit hend in
/-- The number of pages can only be more than `npage` where `npage` lost its upper bits. -/
theorem count_le_npage_iff (he : e ∈ e820) (hram : e.type = E820_RAM)
    (hle : first V e ≤ stop e) : count V e ≤ (npage e820).toNat ↔
    (2 ^ 44 ≤ (maxPa e820).toNat →
      (roundDown64 (limit e) - roundUp64 (start V e)).toNat ≤ (npage e820).toNat * PG_SIZE) := by
  rw [count_eq, if_pos hle, rounded_length hle, PG_SIZE]
  constructor
  · intro hbound _
    exact Nat.mul_le_mul_right 4096 hbound
  · intro hhigh
    by_cases hsmall : (maxPa e820).toNat < 2 ^ 44
    · have hstop := stop_le_npage he hram hsmall
      omega
    · have hrounded := hhigh (Nat.le_of_not_lt hsmall)
      omega

/-- The call for a RAM entry that ends below the last page of 4 GB is right if and only if its range
rounds well. -/
theorem precise_iff (he : e ∈ e820) (hram : e.type = E820_RAM) :
    Precise e820 kernelEnd e ↔ RoundsWell e820 (validMem e820 kernelEnd) e := by
  unfold RoundsWell
  generalize hV : validMem e820 kernelEnd = V
  by_cases hlt : start V e < limit e
  · have hargs : memmapArgs V e = some (first V e, count V e) :=
      memmapArgs_eq_some.mpr ⟨⟨hram, hlt⟩, rfl⟩
    have hpages := wholePages_entry hend hlt
    rw [imp_iff_right hlt, roundUp64_lt_iff]
    constructor
    · intro h
      have hcalled : (wholePages (max e.addr.toNat V.toNat)
          (e.addr.toNat + e.size.toNat)).Nonempty := by
        rw [← hV]
        exact h.called.mp (by rw [hV, hargs]; rfl)
      rw [hpages, Set.nonempty_Ico] at hcalled
      have hbound : count V e ≤ (npage e820).toNat := (h.args _ (by rw [hV]; exact hargs)).2.2
      exact ⟨hcalled, (count_le_npage_iff he hram hcalled.le).mp hbound⟩
    · rintro ⟨hfirst, hhigh⟩
      have hcount : count V e = stop e - first V e := by rw [count_eq, if_pos hfirst.le]
      have hbound := (count_le_npage_iff he hram hfirst.le).mpr hhigh
      constructor
      · rw [hV, hargs, hpages, Set.nonempty_Ico]
        exact iff_of_true rfl hfirst
      · intro m hm
        rw [hV] at hm ⊢
        obtain rfl := Option.some.inj (hargs.symm.trans hm)
        dsimp only
        rw [hpages, hcount, Nat.add_sub_cancel' hfirst.le]
        exact ⟨rfl, by omega, hcount ▸ hbound⟩
  · -- no call, and no page
    have hargs : memmapArgs V e = none := by
      rw [Option.eq_none_iff_forall_ne_some]
      exact fun m hm => hlt (memmapArgs_eq_some.mp hm).1.2
    refine iff_of_true ⟨?_, fun m hm => ?_⟩ fun hh => absurd hh hlt
    · rw [hV, hargs, wholePages_unusable hend hlt]
      exact iff_of_false (by simp) (by simp)
    · rw [hV, hargs] at hm
      exact absurd hm (by simp)

end Entry

/-- `init_memmap` is called for the 256 bytes inside a page. -/
theorem shardMap_not_precise :
    ¬ Precise shardMap 0xC0120000#32 ⟨0x1000100#64, 0x100#64, 1#32⟩ := by
  intro h
  have hargs : memmapArgs (validMem shardMap 0xC0120000#32) ⟨0x1000100#64, 0x100#64, 1#32⟩ =
      some (0x1001, 0xFFFFFFFF) := by decide +kernel
  have hbound := (h.args _ hargs).2.2
  exact absurd hbound (by decide +kernel)

theorem smallMap_precise : Precise smallMap 0xC0120000#32 ⟨0x100000#64, 0xF00000#64, 1#32⟩ ↔
    RoundsWell smallMap (validMem smallMap 0xC0120000#32) ⟨0x100000#64, 0xF00000#64, 1#32⟩ :=
  precise_iff (by decide) (by simp [smallMap]) rfl

end PageInit
end Zonix
