import Zonix.Lib.Gates
import Zonix.Arch.Mmu

/-!
# The interrupt descriptor table: `kern/arch/x86/idt.c`

`idt_init` writes the 256 descriptors field by field; a descriptor is what the bit-fields of
`gate_desc` are in memory. `idtInit_gates` says what the processor reads back.
-/

namespace Zonix
open Lib X86

/-! ## `arch/x86/segments.h` -/

/-- `gate_desc`, in the order of its bit-fields -/
structure GateDesc where
  gdOff15_0 : BitVec 16
  gdSs : BitVec 16
  gdArgs : BitVec 5
  gdRsv1 : BitVec 3
  gdType : BitVec 4
  gdS : BitVec 1
  gdDpl : BitVec 2
  gdP : BitVec 1
  gdOff31_16 : BitVec 16

def SIZEOF_GATE_DESC : ℕ := 8

/-- The descriptor as it lies in memory. -/
def GateDesc.words (gate : GateDesc) : List Word :=
  [gate.gdSs ++ gate.gdOff15_0,
    gate.gdOff31_16 ++ (gate.gdP ++ gate.gdDpl ++ gate.gdS ++ gate.gdType ++ gate.gdRsv1 ++
      gate.gdArgs)]

/-- `STS_TG32` -/
def STS_TG32 : BitVec 4 := 0xF#4

def DPL_KERNEL : BitVec 2 := 0#2
def DPL_USER : BitVec 2 := 3#2

/-- `(SEG_KTEXT) << 3` -/
def GD_KTEXT : BitVec 16 := 8#16

/-- `SET_GATE(gate, type, sel, dpl, addr)`, the value that it gives to the descriptor -/
def SET_GATE (type : BitVec 4) (sel : BitVec 16) (dpl : BitVec 2) (addr : Word) : GateDesc where
  gdOff15_0 := (addr &&& 0xFFFF#32).setWidth 16
  gdSs := sel
  gdArgs := 0#5
  gdRsv1 := 0#3
  gdType := type
  gdS := 0#1
  gdDpl := dpl
  gdP := 1#1
  gdOff31_16 := (addr >>> 16).setWidth 16

/-- `SET_TRAP_GATE(gate, addr)`, for the descriptor at `gate` -/
def SET_TRAP_GATE (m : Memory) (gate addr : Word) : Memory :=
  storeWords m gate (SET_GATE STS_TG32 GD_KTEXT DPL_KERNEL addr).words

/-- `SET_SYS_GATE(gate, addr)` -/
def SET_SYS_GATE (m : Memory) (gate addr : Word) : Memory :=
  storeWords m gate (SET_GATE STS_TG32 GD_KTEXT DPL_USER addr).words

/-! ## `idt.c` -/

def T_SYSCALL : ℕ := 0x80

/-- `&__idt[i]` -/
def idtEntry (idt : Word) (i : ℕ) : Word := idt + BitVec.ofNat 32 (SIZEOF_GATE_DESC * i)

/-- The loop of `idt_init`, over the first `n` vectors. -/
def idtInitLoop (idt : Word) (vectors : ℕ → Word) (m : Memory) (n : ℕ) : Memory :=
  (List.range n).foldl (fun m i => SET_TRAP_GATE m (idtEntry idt i) (vectors i)) m

/-- `idt_init()`; `vectors i` is `__vectors[i]`. -/
def idtInit (m : Memory) (idt : Word) (vectors : ℕ → Word) : Memory :=
  SET_SYS_GATE (idtInitLoop idt vectors m 256) (idtEntry idt T_SYSCALL) (vectors T_SYSCALL)

/-! ## What the processor reads -/

section Gates
variable {m : Memory} {idt : Word} {vectors : ℕ → Word} {i j n : ℕ}

/-- The halves of an address in a descriptor. -/
theorem setGate_offset (addr : Word) :
    ((addr >>> 16).setWidth 16 ++ (addr &&& 0xFFFF#32).setWidth 16 : Word) = addr := by
  have hlow : (addr &&& 0xFFFF#32).setWidth 16 = addr.extractLsb' 0 16 := by
    apply BitVec.eq_of_toNat_eq
    rw [BitVec.toNat_setWidth, BitVec.toNat_and, BitVec.extractLsb'_toNat, Nat.shiftRight_zero,
      show (0xFFFF#32).toNat = 2 ^ 16 - 1 from rfl, Nat.and_two_pow_sub_one_eq_mod, Nat.mod_mod]
  have hhigh : (addr >>> 16).setWidth 16 = addr.extractLsb' 16 16 := by
    apply BitVec.eq_of_toNat_eq
    rw [BitVec.toNat_setWidth, BitVec.toNat_ushiftRight, BitVec.extractLsb'_toNat]
  rw [hlow, hhigh, halves]

/-- The fields of a descriptor are where the processor looks for them. -/
theorem readGate_of_holds {a addr : Word} {type : BitVec 4} {sel : BitVec 16} {dpl : BitVec 2}
    (h : Holds m a (SET_GATE type sel dpl addr).words) :
    readGate m a = ⟨addr, sel, type, false, dpl, true⟩ := by
  obtain ⟨hlow, hhigh, -⟩ := h
  simp only [readGate, hlow, hhigh, SET_GATE, Gate.mk.injEq]
  refine ⟨?_, ?_, ?_, ?_, ?_, ?_⟩
  · rw [BitVec.extractLsb'_append_eq_of_le (by omega), BitVec.extractLsb'_append_eq_of_add_le
      (by omega), BitVec.extractLsb'_eq_self]
    exact (congrArg _ BitVec.extractLsb'_eq_self).trans (setGate_offset addr)
  · rw [BitVec.extractLsb'_append_eq_of_le (by omega)]
    exact BitVec.extractLsb'_eq_self
  · rw [BitVec.extractLsb'_append_eq_of_add_le (by omega), BitVec.extractLsb'_append_eq_of_le
      (by omega), BitVec.extractLsb'_append_eq_of_le (by omega),
      BitVec.extractLsb'_append_eq_of_add_le (by omega)]
    exact BitVec.extractLsb'_eq_self
  · rw [BitVec.getLsbD_append, if_pos (by omega), BitVec.getLsbD_append, if_neg (by omega),
      BitVec.getLsbD_append, if_neg (by omega), BitVec.getLsbD_append, if_neg (by omega),
      BitVec.getLsbD_append, if_pos (by omega)]
    rfl
  · rw [BitVec.extractLsb'_append_eq_of_add_le (by omega), BitVec.extractLsb'_append_eq_of_le
      (by omega), BitVec.extractLsb'_append_eq_of_le (by omega),
      BitVec.extractLsb'_append_eq_of_le (by omega), BitVec.extractLsb'_append_eq_of_le (by omega),
      BitVec.extractLsb'_append_eq_of_add_le (by omega)]
    exact BitVec.extractLsb'_eq_self
  · rw [BitVec.getLsbD_append, if_pos (by omega), BitVec.getLsbD_append, if_neg (by omega),
      BitVec.getLsbD_append, if_neg (by omega), BitVec.getLsbD_append, if_neg (by omega),
      BitVec.getLsbD_append, if_neg (by omega), BitVec.getLsbD_append, if_neg (by omega)]
    rfl

/-! ## The whole table -/

/-- The bytes of the first `n` descriptors. -/
def idtBytes (idt : Word) (n : ℕ) : Set Word := bytes idt (SIZEOF_GATE_DESC * n)

theorem sizeof_gateDesc : SIZEOF_GATE_DESC = 8 := rfl

theorem idtEntry_subset (hi : i < n) (hn : n ≤ 256) :
    bytes (idtEntry idt i) SIZEOF_GATE_DESC ⊆ idtBytes idt n := by
  unfold idtEntry idtBytes
  rw [sizeof_gateDesc]
  apply bytes_subset
  · rw [BitVec.toNat_ofNat]
    omega
  · omega

/-- Two descriptors do not overlap. -/
theorem idtEntry_disjoint (hij : i < j) (hj : j < 256) :
    Disjoint (bytes (idtEntry idt i) SIZEOF_GATE_DESC)
      (bytes (idtEntry idt j) SIZEOF_GATE_DESC) := by
  have hbehind : idtEntry idt j = idtEntry idt i + BitVec.ofNat 32 (8 * (j - i)) := by
    unfold idtEntry
    rw [sizeof_gateDesc]
    bv_omega
  rw [hbehind, sizeof_gateDesc]
  apply bytes_disjoint
  · rw [BitVec.toNat_ofNat]
    omega
  · rw [BitVec.toNat_ofNat]
    omega

theorem GateDesc.words_length (gate : GateDesc) : 4 * gate.words.length = SIZEOF_GATE_DESC := rfl

theorem GateDesc.words_le (gate : GateDesc) : 4 * gate.words.length ≤ 2 ^ 32 := by
  rw [gate.words_length, sizeof_gateDesc]
  omega

theorem GateDesc.store_off {gate : GateDesc} {a x : Word} (hx : x ∉ bytes a SIZEOF_GATE_DESC) :
    storeWords m a gate.words x = m x := by
  rw [← gate.words_length] at hx
  exact storeWords_off hx gate.words_le

/-- Writing one descriptor leaves another one as it is. -/
theorem GateDesc.store_apart {gate gate' : GateDesc} {a b : Word} (h : Holds m a gate.words)
    (hapart : Disjoint (bytes a SIZEOF_GATE_DESC) (bytes b SIZEOF_GATE_DESC)) :
    Holds (storeWords m b gate'.words) a gate.words := by
  refine h.congr gate.words_le fun x hx => ?_
  rw [gate.words_length] at hx
  exact GateDesc.store_off (Set.disjoint_left.mp hapart hx)

/-- The descriptors that the loop has written, and what is behind them. -/
theorem idtInitLoop_spec (hn : n ≤ 256) :
    (∀ i < n, Holds (idtInitLoop idt vectors m n) (idtEntry idt i)
      (SET_GATE STS_TG32 GD_KTEXT DPL_KERNEL (vectors i)).words) ∧
    ∀ x, x ∉ idtBytes idt n → idtInitLoop idt vectors m n x = m x := by
  induction n with
  | zero => exact ⟨fun i hi => absurd hi (by omega), fun x _ => rfl⟩
  | succ n ih =>
    obtain ⟨hgates, hoff⟩ := ih (by omega)
    have hnext : idtInitLoop idt vectors m (n + 1) =
        SET_TRAP_GATE (idtInitLoop idt vectors m n) (idtEntry idt n) (vectors n) := by
      simp only [idtInitLoop, List.range_succ, List.foldl_append, List.foldl_cons, List.foldl_nil]
    rw [hnext]
    constructor
    · intro i hi
      by_cases hin : i = n
      · rw [hin]
        exact holds_storeWords (GateDesc.words_le _)
      · exact GateDesc.store_apart (hgates i (by omega)) (idtEntry_disjoint (by omega) (by omega))
    · intro x hx
      rw [idtBytes, sizeof_gateDesc, mem_bytes] at hx
      have hbefore : x ∉ idtBytes idt n := by
        rw [idtBytes, sizeof_gateDesc, mem_bytes]
        omega
      rw [← hoff x hbefore]
      apply GateDesc.store_off
      intro hx'
      have hmem := idtEntry_subset (Nat.lt_succ_self n) hn hx'
      rw [idtBytes, sizeof_gateDesc, mem_bytes] at hmem
      exact hx hmem

/-- `idt_init`, whatever the table held before: gate `i` is a trap gate of the kernel's code segment
to stub `i`, that user code may use if it is the one for system calls; nothing else is written. -/
theorem idtInit_gates (m : Memory) (idt : Word) (vectors : ℕ → Word) :
    (∀ i < 256, readGate (idtInit m idt vectors) (idtEntry idt i) =
      ⟨vectors i, GD_KTEXT, TRAP_GATE, false, if i = T_SYSCALL then DPL_USER else DPL_KERNEL,
        true⟩) ∧
    ∀ x, x ∉ idtBytes idt 256 → idtInit m idt vectors x = m x := by
  obtain ⟨hgates, hoff⟩ := @idtInitLoop_spec m idt vectors 256 le_rfl
  have hsys : T_SYSCALL < 256 := by decide
  constructor
  · intro i hi
    by_cases his : i = T_SYSCALL
    · rw [if_pos his, his]
      exact readGate_of_holds (holds_storeWords (GateDesc.words_le _))
    · rw [if_neg his]
      -- the descriptor for system calls is written last
      have hapart : Disjoint (bytes (idtEntry idt i) SIZEOF_GATE_DESC)
          (bytes (idtEntry idt T_SYSCALL) SIZEOF_GATE_DESC) := by
        rcases Nat.lt_or_gt_of_ne his with hlt | hgt
        · exact idtEntry_disjoint hlt hsys
        · exact (idtEntry_disjoint hgt hi).symm
      rw [idtInit, SET_SYS_GATE]
      generalize SET_GATE STS_TG32 GD_KTEXT DPL_USER (vectors T_SYSCALL) = gate
      exact readGate_of_holds (GateDesc.store_apart (hgates i hi) hapart)
  · intro x hx
    have hsub := @idtEntry_subset idt T_SYSCALL 256 hsys (le_refl 256)
    have hentry : x ∉ bytes (idtEntry idt T_SYSCALL) SIZEOF_GATE_DESC := fun hx' => hx (hsub hx')
    rw [idtInit, SET_SYS_GATE, GateDesc.store_off hentry, hoff x hx]

end Gates
end Zonix
