import Zonix.Mm.PageInit
import Mathlib.Data.List.Nodup
import Mathlib.Data.List.Pairwise

/-!
# Which frames `page_init` registers

For one entry of the map, `first` and `stop` are the frames that the rounded addresses come
to. Both are frames of the low 4 GB, whatever the entry is: the casts of `ROUND_UP` and
`ROUND_DOWN` drop the high half of an address. What is registered is right as long as
nothing is dropped and the rounded range is not inverted.
-/

namespace Zonix
namespace PageInit

variable {e820 : List E820Entry} {kernelEnd V : Word} {e f g : E820Entry} {p : ℕ}

/-! ## Rounding -/

theorem roundDown64_toNat (a : BitVec 64) :
    (roundDown64 a).toNat = a.toNat % 2 ^ 32 / 4096 * 4096 := by
  rw [roundDown64, BitVec.toNat_setWidth, roundDown_toNat, BitVec.toNat_setWidth]
  omega

theorem roundUp64_toNat (a : BitVec 64) :
    (roundUp64 a).toNat = (a.toNat + 4095) % 2 ^ 32 / 4096 * 4096 := by
  have hsize : (BitVec.ofNat 32 PG_SIZE).toNat = 4096 := rfl
  have hone : (1#32).toNat = 1 := rfl
  rw [roundUp64, roundUp, BitVec.toNat_setWidth, roundDown_toNat, BitVec.toNat_sub,
    BitVec.toNat_add, hsize, hone, BitVec.toNat_setWidth]
  omega

theorem start_toNat (V : Word) (e : E820Entry) :
    (start V e).toNat = max V.toNat e.addr.toNat := by
  have hV : (V.setWidth 64).toNat = V.toNat := by
    have hlt := V.isLt
    rw [BitVec.toNat_setWidth]
    omega
  rw [start]
  split_ifs with h
  · rw [BitVec.lt_def, hV] at h
    omega
  · rw [BitVec.lt_def, hV] at h
    omega

/-! ## The frames of one entry -/

/-- The entry is RAM, and reaches behind the descriptors. -/
def Usable (V : Word) (e : E820Entry) : Prop :=
  e.type = E820_RAM ∧ start V e < limit e

/-- The first frame that is registered for the entry. -/
def first (V : Word) (e : E820Entry) : ℕ := pagNum ((roundUp64 (start V e)).setWidth 32)

/-- The frame that the rounded end of the entry is the address of. -/
def stop (e : E820Entry) : ℕ := pagNum ((roundDown64 (limit e)).setWidth 32)

/-- How many frames are registered for the entry. -/
def count (V : Word) (e : E820Entry) : ℕ :=
  (((roundDown64 (limit e) - roundUp64 (start V e)) >>> PG_SHIFT).setWidth 32).toNat

theorem pagNum_setWidth {a : BitVec 64} {n : ℕ} (h : a.toNat = n % 2 ^ 32 / 4096 * 4096) :
    pagNum (a.setWidth 32) = n % 2 ^ 32 / 4096 := by
  rw [pagNum_eq, BitVec.toNat_setWidth, h]
  omega

theorem first_eq (V : Word) (e : E820Entry) :
    first V e = ((start V e).toNat + 4095) % 2 ^ 32 / 4096 :=
  pagNum_setWidth (roundUp64_toNat _)

theorem stop_eq (e : E820Entry) : stop e = (limit e).toNat % 2 ^ 32 / 4096 :=
  pagNum_setWidth (roundDown64_toNat _)

theorem roundUp64_first (V : Word) (e : E820Entry) :
    (roundUp64 (start V e)).toNat = first V e * 4096 := by
  rw [roundUp64_toNat, first_eq]

theorem roundDown64_stop (e : E820Entry) : (roundDown64 (limit e)).toNat = stop e * 4096 := by
  rw [roundDown64_toNat, stop_eq]

theorem first_lt (V : Word) (e : E820Entry) : first V e < 2 ^ 20 := by
  rw [first_eq]
  omega

theorem stop_lt (e : E820Entry) : stop e < 2 ^ 20 := by
  rw [stop_eq]
  omega

/-- The difference of the rounded addresses wraps around when the range is inverted. -/
theorem count_eq (V : Word) (e : E820Entry) : count V e =
    if first V e ≤ stop e then stop e - first V e else 2 ^ 32 - (first V e - stop e) := by
  have h₁ := first_lt V e
  have h₂ := stop_lt e
  rw [count, BitVec.toNat_setWidth, BitVec.toNat_ushiftRight, BitVec.toNat_sub,
    roundUp64_first, roundDown64_stop, Nat.shiftRight_eq_div_pow, PG_SHIFT]
  split_ifs <;> omega

theorem memmapArgs_eq_some {m : ℕ × ℕ} :
    memmapArgs V e = some m ↔ Usable V e ∧ m = (first V e, count V e) := by
  rw [memmapArgs]
  split_ifs with h
  · rw [Option.some_inj]
    exact ⟨fun hm => ⟨h, hm.symm⟩, fun hm => hm.2.symm⟩
  · exact iff_of_false (by simp) fun hm => h hm.1

instance (V : Word) (e : E820Entry) : Decidable (Usable V e) :=
  inferInstanceAs (Decidable (_ ∧ _))

/-- The pages that are registered for the entry. -/
def Registers (V : Word) (e : E820Entry) (p : ℕ) : Prop :=
  Usable V e ∧ first V e ≤ p ∧ p < first V e + count V e

theorem mem_registered : p ∈ registered e820 kernelEnd ↔
    ∃ e ∈ e820, Registers (validMem e820 kernelEnd) e p := by
  rw [registered, List.mem_flatMap]
  constructor
  · rintro ⟨m, hm, hp⟩
    obtain ⟨e, he, heq⟩ := List.mem_filterMap.mp hm
    obtain ⟨hu, rfl⟩ := memmapArgs_eq_some.mp heq
    exact ⟨e, he, hu, List.mem_range'_1.mp hp⟩
  · rintro ⟨e, he, hu, hp⟩
    exact ⟨_, List.mem_filterMap.mpr ⟨e, he, memmapArgs_eq_some.mpr ⟨hu, rfl⟩⟩,
      List.mem_range'_1.mpr hp⟩

/-! ## Real, unused RAM -/

/-- The physical addresses of the entry. -/
def range (e : E820Entry) : Set ℕ := Set.Ico e.addr.toNat (e.addr.toNat + e.size.toNat)

/-- The entries do not overlap, and end within the 64-bit addresses. -/
structure MapOk (e820 : List E820Entry) : Prop where
  fits : ∀ e ∈ e820, e.addr.toNat + e.size.toNat ≤ 2 ^ 64
  disjoint : e820.Pairwise fun e f => Disjoint (range e) (range f)

/-- What is registered is RAM, behind the descriptors, and registered once. -/
structure UnusedRam (e820 : List E820Entry) (kernelEnd : Word) : Prop where
  ram : ∀ p ∈ registered e820 kernelEnd, ∃ e ∈ e820, e.type = E820_RAM ∧
    e.addr.toNat ≤ (page2pa p).toNat ∧
    (page2pa p).toNat + PG_SIZE ≤ e.addr.toNat + e.size.toNat
  unused : ∀ p ∈ registered e820 kernelEnd, validMem e820 kernelEnd ≤ page2pa p
  once : ((registered e820 kernelEnd).map page2pa).Nodup

/-- `ROUND_UP` comes out below the address that it rounds: it dropped the high half. -/
def Truncated (V : Word) (e : E820Entry) : Prop := roundUp64 (start V e) < start V e

/-- The frames of a truncated entry are RAM all the same: that of an entry which reaches over
the first 4 GB, and for which these frames are not registered. -/
structure Spared (e820 : List E820Entry) (V : Word) (e : E820Entry) : Prop where
  unused : V.setWidth 64 ≤ roundUp64 (start V e)
  ram : ∃ f ∈ e820, f.type = E820_RAM ∧ f.addr ≤ roundUp64 (start V e) ∧
    2 ^ 32 ≤ f.addr.toNat + f.size.toNat
  once : ∀ g ∈ e820, g ≠ e → Usable V g → roundUp64 (start V g) < roundDown64 (limit g) →
    roundDown64 (limit g) ≤ roundUp64 (start V e) ∨ roundDown64 (limit e) ≤ roundUp64 (start V g)

/-- No entry has its rounded range inverted, and none is truncated to frames that it should
not have. -/
def Sound (e820 : List E820Entry) (V : Word) : Prop :=
  ∀ e ∈ e820, Usable V e → roundUp64 (start V e) ≤ roundDown64 (limit e) ∧
    (roundUp64 (start V e) < roundDown64 (limit e) → Truncated V e → Spared e820 V e)

section Frames

theorem roundUp64_le_iff : roundUp64 (start V e) ≤ roundDown64 (limit f) ↔ first V e ≤ stop f := by
  rw [BitVec.le_def, roundUp64_first, roundDown64_stop]
  omega

theorem roundUp64_lt_iff : roundUp64 (start V e) < roundDown64 (limit f) ↔ first V e < stop f := by
  rw [BitVec.lt_def, roundUp64_first, roundDown64_stop]
  omega

theorem roundDown64_le_iff :
    roundDown64 (limit f) ≤ roundUp64 (start V e) ↔ stop f ≤ first V e := by
  rw [BitVec.le_def, roundUp64_first, roundDown64_stop]
  omega

theorem le_roundUp64_iff {a : BitVec 64} :
    a ≤ roundUp64 (start V e) ↔ a.toNat ≤ first V e * 4096 := by
  rw [BitVec.le_def, roundUp64_first]

theorem truncated_iff : Truncated V e ↔ first V e * 4096 < max V.toNat e.addr.toNat := by
  rw [Truncated, BitVec.lt_def, roundUp64_first, start_toNat]

/-- Only the end of the last entry can wrap around, and then nothing is registered for it. -/
theorem limit_toNat (hfits : e.addr.toNat + e.size.toNat ≤ 2 ^ 64) (hu : Usable V e) :
    (limit e).toNat = e.addr.toNat + e.size.toNat ∧ e.addr.toNat < e.addr.toNat + e.size.toNat ∧
      V.toNat < e.addr.toNat + e.size.toNat := by
  have hlt := hu.2
  rw [BitVec.lt_def, start_toNat, limit, BitVec.toNat_add] at hlt
  rw [limit, BitVec.toNat_add]
  omega

/-- The pages registered for an entry whose range is not inverted. -/
theorem registers_iff (hle : first V e ≤ stop e) :
    Registers V e p ↔ Usable V e ∧ first V e ≤ p ∧ p < stop e := by
  rw [Registers, count_eq, if_pos hle, Nat.add_sub_cancel' hle]

theorem Registers.page2pa_toNat (hle : first V e ≤ stop e) (hp : Registers V e p) :
    (page2pa p).toNat = p * 4096 := by
  have hlt := ((registers_iff hle).mp hp).2.2
  have hstop := stop_lt e
  exact Zonix.page2pa_toNat (by omega)

/-- Frames of an entry that was not truncated are its own RAM. -/
theorem Registers.own (hfits : e.addr.toNat + e.size.toNat ≤ 2 ^ 64) (hle : first V e ≤ stop e)
    (hno : ¬ Truncated V e) (hp : Registers V e p) :
    e.addr.toNat ≤ p * 4096 ∧ p * 4096 + 4096 ≤ e.addr.toNat + e.size.toNat ∧
      V.toNat ≤ p * 4096 := by
  obtain ⟨hu, hfirst, hstop⟩ := (registers_iff hle).mp hp
  rw [truncated_iff] at hno
  rw [stop_eq, (limit_toNat hfits hu).1] at hstop
  omega

/-- An entry that holds a frame of the low 4 GB, and ends there, registers it. -/
theorem registers_of_mem (hram : f.type = E820_RAM) (hlow : f.addr.toNat ≤ p * 4096)
    (hhigh : p * 4096 + 4096 ≤ f.addr.toNat + f.size.toNat)
    (hV : V.toNat ≤ p * 4096) (hend : f.addr.toNat + f.size.toNat < 2 ^ 32) :
    first V f ≤ stop f ∧ Registers V f p := by
  have hlim : (limit f).toNat = f.addr.toNat + f.size.toNat := by
    rw [limit, BitVec.toNat_add]
    omega
  have hu : Usable V f := by
    refine ⟨hram, ?_⟩
    rw [BitVec.lt_def, start_toNat, hlim]
    omega
  have hfirst : first V f ≤ p := by
    rw [first_eq, start_toNat]
    omega
  have hstop : p < stop f := by
    rw [stop_eq, hlim]
    omega
  have hle : first V f ≤ stop f := by omega
  exact ⟨hle, (registers_iff hle).mpr ⟨hu, hfirst, hstop⟩⟩

/-- No page is registered for two entries of the map. -/
theorem registered_nodup_iff : (registered e820 kernelEnd).Nodup ↔
    e820.Pairwise fun e g => ∀ p, Registers (validMem e820 kernelEnd) e p →
      ¬ Registers (validMem e820 kernelEnd) g p := by
  have hrange : ∀ m ∈ memmaps e820 kernelEnd, (List.range' m.1 m.2).Nodup :=
    fun m _ => List.nodup_range'
  rw [registered, List.nodup_flatMap, and_iff_right hrange, memmaps, List.pairwise_filterMap]
  refine List.Pairwise.iff fun e g => ?_
  constructor
  · intro h p hep hgp
    exact h _ (memmapArgs_eq_some.mpr ⟨hep.1, rfl⟩) _ (memmapArgs_eq_some.mpr ⟨hgp.1, rfl⟩)
      (List.mem_range'_1.mpr hep.2) (List.mem_range'_1.mpr hgp.2)
  · intro h m hm n hn p hpm hpn
    obtain ⟨he, rfl⟩ := memmapArgs_eq_some.mp hm
    obtain ⟨hg, rfl⟩ := memmapArgs_eq_some.mp hn
    exact h p ⟨he, List.mem_range'_1.mp hpm⟩ ⟨hg, List.mem_range'_1.mp hpn⟩

end Frames

/-! ## When everything registered is unused RAM -/

section UnusedRam
variable (h : UnusedRam e820 kernelEnd)
include h

theorem UnusedRam.registers_unique {e g : E820Entry} (he : e ∈ e820) (hg : g ∈ e820)
    (hne : e ≠ g) (hep : Registers (validMem e820 kernelEnd) e p) :
    ¬ Registers (validMem e820 kernelEnd) g p := by
  have hpair := registered_nodup_iff.mp h.once.of_map
  exact @List.Pairwise.forall _ _ _ ⟨fun _ _ hab q hb ha => hab q ha hb⟩ hpair e he g hg hne p hep

/-- An inverted range would have a page and the one 4 GB behind it, at the same address. -/
theorem UnusedRam.first_le_stop (he : e ∈ e820) (hu : Usable (validMem e820 kernelEnd) e) :
    first (validMem e820 kernelEnd) e ≤ stop e := by
  by_contra hlt
  have hfirst := first_lt (validMem e820 kernelEnd) e
  have hcount := count_eq (validMem e820 kernelEnd) e
  rw [if_neg hlt] at hcount
  have hlow : first (validMem e820 kernelEnd) e ∈ registered e820 kernelEnd :=
    mem_registered.mpr ⟨e, he, hu, by omega, by omega⟩
  have hhigh : first (validMem e820 kernelEnd) e + 2 ^ 20 ∈ registered e820 kernelEnd :=
    mem_registered.mpr ⟨e, he, hu, by omega, by omega⟩
  have haddr : page2pa (first (validMem e820 kernelEnd) e) =
      page2pa (first (validMem e820 kernelEnd) e + 2 ^ 20) := by
    apply BitVec.eq_of_toNat_eq
    simp only [page2pa, PG_SHIFT, BitVec.toNat_shiftLeft, BitVec.toNat_ofNat, Nat.shiftLeft_eq]
    omega
  have hsame := List.inj_on_of_nodup_map h.once hlow hhigh haddr
  omega

theorem UnusedRam.spared (he : e ∈ e820) (hu : Usable (validMem e820 kernelEnd) e)
    (hlt : first (validMem e820 kernelEnd) e < stop e)
    (ht : Truncated (validMem e820 kernelEnd) e) : Spared e820 (validMem e820 kernelEnd) e := by
  have hreg : Registers (validMem e820 kernelEnd) e (first (validMem e820 kernelEnd) e) :=
    (registers_iff hlt.le).mpr ⟨hu, le_rfl, hlt⟩
  have hpa := hreg.page2pa_toNat hlt.le
  have hV := h.unused _ (mem_registered.mpr ⟨e, he, hreg⟩)
  rw [BitVec.le_def, hpa] at hV
  constructor
  · rw [le_roundUp64_iff, BitVec.toNat_setWidth]
    omega
  · obtain ⟨f, hf, hram, hlow, hhigh⟩ := h.ram _ (mem_registered.mpr ⟨e, he, hreg⟩)
    rw [hpa] at hlow hhigh
    refine ⟨f, hf, hram, le_roundUp64_iff.mpr hlow, ?_⟩
    -- an `f` that ends below 4 GB registers the frame itself
    by_contra hend
    have hfp := (registers_of_mem hram hlow hhigh hV (by omega)).2
    by_cases hef : e = f
    · rw [truncated_iff, hef] at ht
      rw [hef] at hlow hV
      omega
    · exact h.registers_unique he hf hef hreg hfp
  · intro g hg hne hgu hglt
    rw [roundUp64_lt_iff] at hglt
    rw [roundDown64_le_iff, roundDown64_le_iff]
    by_contra hover
    rw [not_or] at hover
    -- the larger of the two first frames is in both ranges
    apply h.registers_unique he hg hne.symm
      (p := max (first (validMem e820 kernelEnd) e) (first (validMem e820 kernelEnd) g))
    · exact (registers_iff hlt.le).mpr ⟨hu, by omega, by omega⟩
    · exact (registers_iff hglt.le).mpr ⟨hgu, by omega, by omega⟩

end UnusedRam

section Sound
variable (h : Sound e820 (validMem e820 kernelEnd)) (hmap : MapOk e820)
include h

theorem Sound.first_le_stop (he : e ∈ e820) (hu : Usable (validMem e820 kernelEnd) e) :
    first (validMem e820 kernelEnd) e ≤ stop e := roundUp64_le_iff.mp (h e he hu).1

theorem Sound.registers (he : e ∈ e820) (hp : Registers (validMem e820 kernelEnd) e p) :
    first (validMem e820 kernelEnd) e ≤ p ∧ p < stop e ∧ (page2pa p).toNat = p * 4096 ∧
      (Truncated (validMem e820 kernelEnd) e → Spared e820 (validMem e820 kernelEnd) e) := by
  have hle := h.first_le_stop he hp.1
  obtain ⟨hu, hfirst, hstop⟩ := (registers_iff hle).mp hp
  exact ⟨hfirst, hstop, hp.page2pa_toNat hle,
    (h e he hu).2 (roundUp64_lt_iff.mpr (by omega))⟩

include hmap in
theorem Sound.ram (hp : p ∈ registered e820 kernelEnd) :
    ∃ f ∈ e820, f.type = E820_RAM ∧ f.addr.toNat ≤ (page2pa p).toNat ∧
      (page2pa p).toNat + PG_SIZE ≤ f.addr.toNat + f.size.toNat := by
  obtain ⟨e, he, hreg⟩ := mem_registered.mp hp
  obtain ⟨hfirst, hstop, hpa, hspared⟩ := h.registers he hreg
  have hlt := stop_lt e
  rw [hpa, PG_SIZE]
  by_cases ht : Truncated (validMem e820 kernelEnd) e
  · obtain ⟨f, hf, hram, hlow, hend⟩ := (hspared ht).ram
    rw [le_roundUp64_iff] at hlow
    have hlow' : f.addr.toNat ≤ p * 4096 := hlow.trans (Nat.mul_le_mul_right 4096 hfirst)
    exact ⟨f, hf, hram, hlow', by omega⟩
  · obtain ⟨hlow, hhigh, -⟩ := hreg.own (hmap.fits e he) (h.first_le_stop he hreg.1) ht
    exact ⟨e, he, hreg.1.1, hlow, hhigh⟩

include hmap in
theorem Sound.unused (hp : p ∈ registered e820 kernelEnd) :
    validMem e820 kernelEnd ≤ page2pa p := by
  obtain ⟨e, he, hreg⟩ := mem_registered.mp hp
  obtain ⟨hfirst, hstop, hpa, hspared⟩ := h.registers he hreg
  rw [BitVec.le_def, hpa]
  by_cases ht : Truncated (validMem e820 kernelEnd) e
  · have hV := (hspared ht).unused
    rw [le_roundUp64_iff, BitVec.toNat_setWidth] at hV
    have hlt := (validMem e820 kernelEnd).isLt
    omega
  · exact (hreg.own (hmap.fits e he) (h.first_le_stop he hreg.1) ht).2.2

/-- `once` of a truncated entry keeps it apart from every other one. -/
theorem Sound.registers_truncated {e g : E820Entry} (he : e ∈ e820) (hg : g ∈ e820)
    (hne : g ≠ e) (ht : Truncated (validMem e820 kernelEnd) e)
    (hep : Registers (validMem e820 kernelEnd) e p) :
    ¬ Registers (validMem e820 kernelEnd) g p := by
  intro hgp
  obtain ⟨hfirst, hstop, -, hspared⟩ := h.registers he hep
  obtain ⟨hfirst', hstop', -, -⟩ := h.registers hg hgp
  have honce := (hspared ht).once g hg hne hgp.1 (roundUp64_lt_iff.mpr (by omega))
  rw [roundDown64_le_iff, roundDown64_le_iff] at honce
  omega

include hmap in
theorem Sound.registered_nodup : (registered e820 kernelEnd).Nodup := by
  rw [registered_nodup_iff]
  refine hmap.disjoint.imp_of_mem fun {e g} he hg hdisj p hep hgp => ?_
  obtain ⟨hwe, hwe', -⟩ := limit_toNat (hmap.fits e he) hep.1
  have hne : g ≠ e := by
    rintro rfl
    exact Set.disjoint_left.mp hdisj ⟨le_rfl, hwe'⟩ ⟨le_rfl, hwe'⟩
  by_cases ht : Truncated (validMem e820 kernelEnd) e
  · exact h.registers_truncated he hg hne ht hep hgp
  by_cases ht' : Truncated (validMem e820 kernelEnd) g
  · exact h.registers_truncated hg he hne.symm ht' hgp hep
  · obtain ⟨hlow, hhigh, -⟩ := hep.own (hmap.fits e he) (h.first_le_stop he hep.1) ht
    obtain ⟨hlow', hhigh', -⟩ := hgp.own (hmap.fits g hg) (h.first_le_stop hg hgp.1) ht'
    have hp : p * 4096 ∈ range e := ⟨hlow, by omega⟩
    exact Set.disjoint_left.mp hdisj hp ⟨hlow', by omega⟩

include hmap in
theorem Sound.unusedRam : UnusedRam e820 kernelEnd := by
  refine ⟨fun p hp => h.ram hmap hp, fun p hp => h.unused hmap hp, ?_⟩
  refine List.Nodup.map_on (fun p hp q hq heq => ?_) (h.registered_nodup hmap)
  obtain ⟨e, he, hreg⟩ := mem_registered.mp hp
  obtain ⟨g, hg, hreg'⟩ := mem_registered.mp hq
  have hpa := (h.registers he hreg).2.2.1
  have hpa' := (h.registers hg hreg').2.2.1
  rw [heq] at hpa
  omega

end Sound

/-- `page_init` hands out only unused RAM, each page once, when and only when no rounded range
is inverted and no address loses its high half to frames that are not spared. -/
theorem unusedRam_iff (hmap : MapOk e820) :
    UnusedRam e820 kernelEnd ↔ Sound e820 (validMem e820 kernelEnd) := by
  constructor
  · intro h e he hu
    have hle := h.first_le_stop he hu
    refine ⟨roundUp64_le_iff.mpr hle, fun hlt ht => ?_⟩
    exact h.spared he hu (roundUp64_lt_iff.mp hlt) ht
  · intro h
    exact h.unusedRam hmap

/-! ## Maps of machines -/

theorem MapOk.of_apart (hfits : ∀ e ∈ e820, e.addr.toNat + e.size.toNat ≤ 2 ^ 64)
    (hapart : e820.Pairwise fun e f => e.addr.toNat + e.size.toNat ≤ f.addr.toNat ∨
      f.addr.toNat + f.size.toNat ≤ e.addr.toNat) : MapOk e820 := by
  refine ⟨hfits, hapart.imp fun {e f} h => ?_⟩
  rw [Set.disjoint_left]
  rintro x ⟨hle, hlt⟩ ⟨hle', hlt'⟩
  omega

theorem Sound.of_not_truncated (h : ∀ e ∈ e820, Usable V e →
    roundUp64 (start V e) ≤ roundDown64 (limit e) ∧ start V e ≤ roundUp64 (start V e)) :
    Sound e820 V :=
  fun e he hu => ⟨(h e he hu).1, fun _ ht => absurd ht (BitVec.not_lt.mpr (h e he hu).2)⟩

/-- 16 MB of memory. -/
def smallMap : List E820Entry :=
  [⟨0x0#64, 0x9FC00#64, 1#32⟩, ⟨0x9FC00#64, 0x400#64, 2#32⟩, ⟨0xF0000#64, 0x10000#64, 2#32⟩,
    ⟨0x100000#64, 0xF00000#64, 1#32⟩]

/-- 4 GB of memory, one of them behind the first 4 GB. -/
def highMap : List E820Entry :=
  [⟨0x0#64, 0x9FC00#64, 1#32⟩, ⟨0x100000#64, 0xBFF00000#64, 1#32⟩,
    ⟨0x100000000#64, 0x40000000#64, 1#32⟩]

/-- 16 MB of memory, and 256 bytes inside a page. -/
def shardMap : List E820Entry := [⟨0x100000#64, 0xF00000#64, 1#32⟩, ⟨0x1000100#64, 0x100#64, 1#32⟩]

theorem unusedRam_smallMap : UnusedRam smallMap 0xC0120000#32 :=
  (unusedRam_iff (MapOk.of_apart (by decide) (by decide))).mpr
    (Sound.of_not_truncated (by decide))

/-- Page 0 and those behind it are registered for the memory above 4 GB; for the 256 bytes, it
is 2^32 - 1 pages. -/
theorem pageInit_registers_used :
    (MapOk highMap ∧ ¬ UnusedRam highMap 0xC0120000#32) ∧
    (MapOk shardMap ∧ ¬ UnusedRam shardMap 0xC0120000#32) := by
  refine ⟨⟨MapOk.of_apart (by decide) (by decide), fun h => ?_⟩,
    ⟨MapOk.of_apart (by decide) (by decide), fun h => ?_⟩⟩
  · have hzero : 0 ∈ registered highMap 0xC0120000#32 :=
      mem_registered.mpr ⟨⟨0x100000000#64, 0x40000000#64, 1#32⟩, by simp [highMap],
        by decide, by decide, by decide⟩
    exact absurd (h.unused 0 hzero) (by decide)
  · have hle := h.first_le_stop (e := ⟨0x1000100#64, 0x100#64, 1#32⟩) (by simp [shardMap])
      (by decide)
    exact absurd hle (by decide)

/-! ## The direct map -/

/-- The page is in the window that `pgdir_init` maps, and its address there leads back. -/
structure InWindow (p : ℕ) : Prop where
  pa_lt : page2pa p < KERNEL_MEM_SIZE
  base_le : KERNEL_BASE ≤ page2kva p
  kva_lt : page2kva p < KERNEL_BASE + KERNEL_MEM_SIZE
  kva2page : kva2page (page2kva p) = p

theorem kva2page_page2kva (p : ℕ) : kva2page (page2kva p) = pagNum (page2pa p) := by
  rw [kva2page, page2kva, pa2page, BitVec.add_comm, BitVec.add_sub_cancel]

/-- The window is the first `0x38000` frames. -/
theorem inWindow_iff : InWindow p ↔ p < 0x38000 := by
  have hbase : KERNEL_BASE.toNat = 0xC0000000 := by decide
  have hsize : KERNEL_MEM_SIZE.toNat = 0x38000000 := by decide
  have hend : (KERNEL_BASE + KERNEL_MEM_SIZE).toNat = 0xF8000000 := by decide
  constructor
  · intro h
    have hlow : p < 2 ^ 20 := by
      have hback := h.kva2page
      have hlt := (page2pa p).isLt
      rw [kva2page_page2kva, pagNum_eq] at hback
      omega
    have hpa := h.pa_lt
    rw [BitVec.lt_def, page2pa_toNat hlow, hsize] at hpa
    omega
  · intro hp
    have hlow : p < 2 ^ 20 := by omega
    have hkva : (page2kva p).toNat = 0xC0000000 + p * 2 ^ 12 := by
      rw [page2kva, BitVec.toNat_add, hbase, page2pa_toNat hlow]
      omega
    constructor
    · rw [BitVec.lt_def, page2pa_toNat hlow, hsize]
      omega
    · rw [BitVec.le_def, hbase, hkva]
      omega
    · rw [BitVec.lt_def, hend, hkva]
      omega
    · rw [kva2page_page2kva, pagNum_page2pa hlow]

theorem roundDown64_le_memSize_iff :
    roundDown64 (limit e) ≤ KERNEL_MEM_SIZE.setWidth 64 ↔ stop e ≤ 0x38000 := by
  have hsize : (KERNEL_MEM_SIZE.setWidth 64).toNat = 0x38000 * 4096 := by decide
  rw [BitVec.le_def, roundDown64_stop, hsize]
  omega

/-- An entry's pages are in the window when its rounded range is not inverted and ends there. -/
theorem registers_inWindow_iff (hu : Usable V e) : (∀ p, Registers V e p → InWindow p) ↔
    first V e ≤ stop e ∧ (first V e < stop e → stop e ≤ 0x38000) := by
  constructor
  · intro h
    have hfirst := first_lt V e
    have hcount := count_eq V e
    have hle : first V e ≤ stop e := by
      by_contra hlt
      rw [if_neg hlt] at hcount
      have hfar := inWindow_iff.mp (h (2 ^ 20) ⟨hu, by omega, by omega⟩)
      omega
    refine ⟨hle, fun hlt => ?_⟩
    have hlast := inWindow_iff.mp (h (stop e - 1) ((registers_iff hle).mpr
      ⟨hu, by omega, by omega⟩))
    omega
  · rintro ⟨hle, hstop⟩ p hp
    obtain ⟨-, hfirst, hlt⟩ := (registers_iff hle).mp hp
    have hend := hstop (by omega)
    exact inWindow_iff.mpr (by omega)

/-- The allocator is given nothing outside the direct map when and only when each rounded
range is not inverted, and ends within `KERNEL_MEM_SIZE` if it is not empty. -/
theorem registered_inWindow_iff (e820 : List E820Entry) (kernelEnd : Word) :
    (∀ p ∈ registered e820 kernelEnd, InWindow p) ↔
    ∀ e ∈ e820, Usable (validMem e820 kernelEnd) e →
      roundUp64 (start (validMem e820 kernelEnd) e) ≤ roundDown64 (limit e) ∧
      (roundUp64 (start (validMem e820 kernelEnd) e) < roundDown64 (limit e) →
        roundDown64 (limit e) ≤ KERNEL_MEM_SIZE.setWidth 64) := by
  simp only [roundUp64_le_iff, roundUp64_lt_iff, roundDown64_le_memSize_iff]
  constructor
  · intro h e he hu
    rw [← registers_inWindow_iff hu]
    intro p hp
    exact h p (mem_registered.mpr ⟨e, he, hp⟩)
  · intro h p hp
    obtain ⟨e, he, hreg⟩ := mem_registered.mp hp
    exact (registers_inWindow_iff hreg.1).mpr (h e he hreg.1) p hreg

/-- 1 GB of memory. -/
def gigabyteMap : List E820Entry :=
  [⟨0x0#64, 0x9FC00#64, 1#32⟩, ⟨0x100000#64, 0x3FF00000#64, 1#32⟩]

/-- The frame behind the window is registered; its address in the kernel is the end of the
window. -/
theorem pageInit_registers_unmapped :
    (∀ e ∈ gigabyteMap, e.type = E820_RAM → e.addr.toNat + e.size.toNat ≤ 2 ^ 32) ∧
    0x38000 ∈ registered gigabyteMap 0xC0120000#32 ∧
    page2pa 0x38000 = KERNEL_MEM_SIZE ∧
    page2kva 0x38000 = KERNEL_BASE + KERNEL_MEM_SIZE ∧
    ¬ InWindow 0x38000 := by
  refine ⟨by decide, ?_, by decide, by decide, fun h => absurd h.pa_lt (by decide)⟩
  exact mem_registered.mpr ⟨⟨0x100000#64, 0x3FF00000#64, 1#32⟩, by simp [gigabyteMap],
    by decide, by decide, by decide⟩

end PageInit
end Zonix
