import Mathlib.Data.Set.Lattice
import Mathlib.Logic.Function.Basic
import Mathlib.Algebra.GroupWithZero.Nat
import Mathlib.Order.CompletePartialOrder

/-!
# A part of the 32-bit x86

Memory is bytes at 32-bit addresses, and double words lie in it with the low byte first. Addresses
wrap around, so the `n` bytes from an address on are those less than `n` behind it. `load` reads
what `store` wrote, and nothing that is disjoint from it changes.

The instructions are those that move double words between registers, memory and the stack. A
block of them without a jump is run from its first instruction to its last; `ret` says where
execution goes on behind it, and so does `iret`, which a `Machine` has besides.
-/

namespace Zonix.Lib.X86

abbrev Dword := BitVec 32

abbrev Memory := Dword → BitVec 8

/-! ## Memory -/

/-- The `n` bytes from `a` on. -/
def bytes (a : Dword) (n : ℕ) : Set Dword := {x | (x - a).toNat < n}

def load (m : Memory) (a : Dword) : Dword := m (a + 3#32) ++ m (a + 2#32) ++ m (a + 1#32) ++ m a

def store (m : Memory) (a v : Dword) : Memory := fun x =>
  if (x - a).toNat < 4 then v.extractLsb' (8 * (x - a).toNat) 8 else m x

/-- A quad word. -/
def load64 (m : Memory) (a : Dword) : BitVec 64 := load m (a + 4#32) ++ load m a

/-- A word, of two bytes. -/
def load16 (m : Memory) (a : Dword) : BitVec 16 := m (a + 1#32) ++ m a

def store16 (m : Memory) (a : Dword) (v : BitVec 16) : Memory := fun x =>
  if (x - a).toNat < 2 then v.extractLsb' (8 * (x - a).toNat) 8 else m x

/-- Double words one behind the other. -/
def storeWords (m : Memory) (a : Dword) : List Dword → Memory
  | [] => m
  | v :: vs => storeWords (store m a v) (a + 4#32) vs

/-- The double words from `a` on are `vs`. -/
def Holds (m : Memory) (a : Dword) : List Dword → Prop
  | [] => True
  | v :: vs => load m a = v ∧ Holds m (a + 4#32) vs

instance Holds.decidable (m : Memory) : ∀ (a : Dword) (vs : List Dword), Decidable (Holds m a vs)
  | _, [] => isTrue trivial
  | a, v :: vs =>
    have := Holds.decidable m (a + 4#32) vs
    inferInstanceAs (Decidable (load m a = v ∧ Holds m (a + 4#32) vs))

variable {m m' : Memory} {a b v x : Dword} {vs : List Dword} {n k : ℕ}

theorem mem_bytes : x ∈ bytes a n ↔ (x - a).toNat < n := Iff.rfl

/-- Where the addresses do not wrap around. -/
theorem mem_bytes_iff (h : a.toNat + n ≤ 2 ^ 32) :
    x ∈ bytes a n ↔ a.toNat ≤ x.toNat ∧ x.toNat < a.toNat + n := by
  rw [mem_bytes, BitVec.toNat_sub]
  have hxlt := x.isLt
  have halt := a.isLt
  omega

theorem bytes_subset {d : Dword} (h : d.toNat + n ≤ k) (hk : k ≤ 2 ^ 32) :
    bytes (a + d) n ⊆ bytes a k := by
  intro x hx
  rw [mem_bytes, BitVec.toNat_sub, BitVec.toNat_add] at hx
  rw [mem_bytes, BitVec.toNat_sub]
  have hxlt := x.isLt
  have halt := a.isLt
  have hd := h.trans hk
  omega

/-- Two pieces of the same bytes. -/
theorem bytes_disjoint {d : Dword} (hd : n ≤ d.toNat) (hk : d.toNat + k ≤ 2 ^ 32) :
    Disjoint (bytes a n) (bytes (a + d) k) := by
  rw [Set.disjoint_left]
  intro x hx hx'
  rw [mem_bytes, BitVec.toNat_sub] at hx
  rw [mem_bytes, BitVec.toNat_sub, BitVec.toNat_add] at hx'
  have hxlt := x.isLt
  have halt := a.isLt
  omega

theorem store_off (h : x ∉ bytes a 4) : store m a v x = m x := if_neg h

theorem store_at {i : ℕ} (hi : i < 4) :
    store m a v (a + BitVec.ofNat 32 i) = v.extractLsb' (8 * i) 8 := by
  have hsub : (a + BitVec.ofNat 32 i - a).toNat = i := by
    rw [BitVec.toNat_sub, BitVec.toNat_add, BitVec.toNat_ofNat]
    have halt := a.isLt
    omega
  unfold store
  rw [hsub, if_pos hi]

@[simp] theorem load_store : load (store m a v) a = v := by
  have hzero : store m a v a = v.extractLsb' 0 8 := by
    have h := store_at (m := m) (a := a) (v := v) (i := 0) (by omega)
    rwa [show a + BitVec.ofNat 32 0 = a by simp] at h
  have hone : store m a v (a + 1#32) = v.extractLsb' 8 8 := store_at (by omega)
  have htwo : store m a v (a + 2#32) = v.extractLsb' 16 8 := store_at (by omega)
  have hthree : store m a v (a + 3#32) = v.extractLsb' 24 8 := store_at (by omega)
  unfold load
  rw [hzero, hone, htwo, hthree, BitVec.extractLsb'_append_extractLsb'_eq_extractLsb' (by omega),
    BitVec.extractLsb'_append_extractLsb'_eq_extractLsb' (by omega),
    BitVec.extractLsb'_append_extractLsb'_eq_extractLsb' (by omega)]
  exact BitVec.extractLsb'_eq_self

theorem load_congr (h : ∀ x ∈ bytes a 4, m' x = m x) : load m' a = load m a := by
  have hbyte : ∀ i < 4, m' (a + BitVec.ofNat 32 i) = m (a + BitVec.ofNat 32 i) := by
    intro i hi
    apply h
    rw [mem_bytes, BitVec.toNat_sub, BitVec.toNat_add, BitVec.toNat_ofNat]
    have halt := a.isLt
    omega
  have hzero : m' a = m a := by
    have h0 := hbyte 0 (by omega)
    rwa [show a + BitVec.ofNat 32 0 = a by simp] at h0
  unfold load
  rw [hzero, hbyte 1 (by omega), hbyte 2 (by omega), hbyte 3 (by omega)]

theorem load_byte {i : ℕ} (hi : i < 4) :
    (load m a).extractLsb' (8 * i) 8 = m (a + BitVec.ofNat 32 i) := by
  apply BitVec.eq_of_getLsbD_eq
  intro j hj
  rw [BitVec.getLsbD_extractLsb', decide_eq_true hj, Bool.true_and, load]
  have hcases : i = 0 ∨ i = 1 ∨ i = 2 ∨ i = 3 := by omega
  rcases hcases with rfl | rfl | rfl | rfl
  · rw [BitVec.getLsbD_append, if_pos (by omega), show a + BitVec.ofNat 32 0 = a by simp,
      show 8 * 0 + j = j by omega]
  · rw [BitVec.getLsbD_append, if_neg (by omega), BitVec.getLsbD_append, if_pos (by omega),
      show 8 * 1 + j - 8 = j by omega]
  · rw [BitVec.getLsbD_append, if_neg (by omega), BitVec.getLsbD_append, if_neg (by omega),
      BitVec.getLsbD_append, if_pos (by omega), show 8 * 2 + j - 8 - 8 = j by omega]
  · rw [BitVec.getLsbD_append, if_neg (by omega), BitVec.getLsbD_append, if_neg (by omega),
      BitVec.getLsbD_append, if_neg (by omega), show 8 * 3 + j - 8 - 8 - 8 = j by omega]

/-- A word that is stored at a double word replaces its low half. -/
theorem load_store16 (w : BitVec 16) :
    load (store16 m a w) a = (load m a).extractLsb' 16 16 ++ w := by
  have hlow : store16 m a w a = w.extractLsb' 0 8 := by
    unfold store16
    rw [BitVec.sub_self, if_pos (by decide)]
    rfl
  have hoff : ∀ k : Dword, (a + k - a) = k := fun k => by
    rw [BitVec.add_comm, BitVec.add_sub_cancel]
  have hhigh : store16 m a w (a + 1#32) = w.extractLsb' 8 8 := by
    unfold store16
    rw [hoff, if_pos (by decide)]
    rfl
  have htwo : store16 m a w (a + 2#32) = m (a + 2#32) := by
    unfold store16
    rw [hoff, if_neg (by decide)]
  have hthree : store16 m a w (a + 3#32) = m (a + 3#32) := by
    unfold store16
    rw [hoff, if_neg (by decide)]
  have hb2 : (load m a).extractLsb' 16 8 = m (a + 2#32) := load_byte (i := 2) (by omega)
  have hb3 : (load m a).extractLsb' 24 8 = m (a + 3#32) := load_byte (i := 3) (by omega)
  have hhalf : (load m a).extractLsb' 16 16 = m (a + 3#32) ++ m (a + 2#32) := by
    rw [← hb2, ← hb3, BitVec.extractLsb'_append_extractLsb'_eq_extractLsb' (by omega)]
  have hw : w.extractLsb' 8 8 ++ w.extractLsb' 0 8 = w := by
    rw [BitVec.extractLsb'_append_extractLsb'_eq_extractLsb' (by omega)]
    exact BitVec.extractLsb'_eq_self
  rw [hhalf]
  unfold load
  rw [hlow, hhigh, htwo, hthree]
  conv_rhs => rw [← hw]
  exact BitVec.append_assoc

/-- A word that is stored in two memories makes them agree where it lies. -/
theorem store_eq (h : load m a = v) (hx : x ∈ bytes a 4) : store m' a v x = m x := by
  have hxa : x = a + BitVec.ofNat 32 (x - a).toNat := by
    rw [BitVec.ofNat_toNat, BitVec.setWidth_eq, BitVec.add_comm, BitVec.sub_add_cancel]
  rw [hxa, store_at hx, ← h, load_byte hx]

/-- The words behind the first one. -/
theorem bytes_tail (hn : 4 * (n + 1) ≤ 2 ^ 32) :
    bytes (a + 4#32) (4 * n) ⊆ bytes a (4 * (n + 1)) := by
  have hfour : (4#32 : Dword).toNat = 4 := rfl
  apply bytes_subset _ hn
  omega

theorem storeWords_off (h : x ∉ bytes a (4 * vs.length)) (hn : 4 * vs.length ≤ 2 ^ 32) :
    storeWords m a vs x = m x := by
  induction vs generalizing m a with
  | nil => rfl
  | cons v vs ih =>
    rw [List.length_cons] at h hn
    have htail := bytes_tail (a := a) hn
    have hhead : x ∉ bytes a 4 := fun hx => h (by rw [mem_bytes] at hx ⊢; omega)
    rw [storeWords, ih (fun hx => h (htail hx)) (by omega), store_off hhead]

/-- What was stored is there. -/
theorem holds_storeWords (hn : 4 * vs.length ≤ 2 ^ 32) : Holds (storeWords m a vs) a vs := by
  induction vs generalizing m a with
  | nil => trivial
  | cons v vs ih =>
    rw [List.length_cons] at hn
    refine ⟨?_, ih (by omega)⟩
    -- the rest lies behind the first word
    have hoff : ∀ x ∈ bytes a 4, storeWords (store m a v) (a + 4#32) vs x = store m a v x := by
      intro x hx
      refine storeWords_off (fun hx' => ?_) (by omega)
      have hdisjoint : Disjoint (bytes a 4) (bytes (a + 4#32) (4 * vs.length)) :=
        bytes_disjoint le_rfl (show 4 + 4 * vs.length ≤ 2 ^ 32 by omega)
      exact Set.disjoint_left.mp hdisjoint hx hx'
    rw [storeWords, load_congr hoff, load_store]

theorem Holds.congr (h : Holds m a vs) (hn : 4 * vs.length ≤ 2 ^ 32)
    (hsame : ∀ x ∈ bytes a (4 * vs.length), m' x = m x) : Holds m' a vs := by
  induction vs generalizing a with
  | nil => trivial
  | cons v vs ih =>
    rw [List.length_cons] at hsame hn
    have htail := bytes_tail (a := a) hn
    refine ⟨?_, ih h.2 (by omega) fun x hx => hsame x (htail hx)⟩
    rw [load_congr fun x hx => hsame x (by rw [mem_bytes] at hx ⊢; omega)]
    exact h.1

/-! ## Instructions -/

inductive Reg
  | eax | ecx | edx | ebx | esp | ebp | esi | edi
deriving DecidableEq

structure Cpu where
  reg : Reg → Dword
  eip : Dword
  mem : Memory

inductive Instr
  /-- `movl disp(%base), %dst` -/
  | load (disp : Dword) (base dst : Reg)
  /-- `movl %src, disp(%base)` -/
  | store (src : Reg) (disp : Dword) (base : Reg)
  /-- `popl disp(%base)`; the address is that of the stack pointer behind the pop -/
  | popl (disp : Dword) (base : Reg)
  /-- `pushl disp(%base)` -/
  | pushl (disp : Dword) (base : Reg)
  | ret

namespace Cpu

def setReg (c : Cpu) (r : Reg) (v : Dword) : Cpu := { c with reg := Function.update c.reg r v }

def setMem (c : Cpu) (m : Memory) : Cpu := { c with mem := m }

def exec (c : Cpu) : Instr → Cpu
  | .load disp base dst => c.setReg dst (X86.load c.mem (c.reg base + disp))
  | .store src disp base => c.setMem (X86.store c.mem (c.reg base + disp) (c.reg src))
  | .popl disp base =>
    let v := X86.load c.mem (c.reg .esp)
    let c := c.setReg .esp (c.reg .esp + 4#32)
    c.setMem (X86.store c.mem (c.reg base + disp) v)
  | .pushl disp base =>
    let v := X86.load c.mem (c.reg base + disp)
    let c := c.setReg .esp (c.reg .esp - 4#32)
    c.setMem (X86.store c.mem (c.reg .esp) v)
  | .ret => { c.setReg .esp (c.reg .esp + 4#32) with eip := X86.load c.mem (c.reg .esp) }

def run (c : Cpu) (code : List Instr) : Cpu := code.foldl exec c

theorem run_append (c : Cpu) (code code' : List Instr) :
    c.run (code ++ code') = (c.run code).run code' := List.foldl_append

/-- `popal`; the double word for `esp` is skipped. -/
def popal (c : Cpu) : Cpu :=
  let pop (k : Dword) := X86.load c.mem (c.reg .esp + k)
  { c with reg := fun
    | .edi => pop 0#32
    | .esi => pop 4#32
    | .ebp => pop 8#32
    | .ebx => pop 16#32
    | .edx => pop 20#32
    | .ecx => pop 24#32
    | .eax => pop 28#32
    | .esp => c.reg .esp + 32#32 }

/-- `addl $k, %esp` -/
def addEsp (c : Cpu) (k : Dword) : Cpu := c.setReg .esp (c.reg .esp + k)

end Cpu

/-! ## Returning from an interrupt -/

/-- The CPU with the segment registers and the flags that `iret` loads. -/
structure Machine where
  cpu : Cpu
  cs : BitVec 16
  ss : BitVec 16
  eflags : Dword

/-- The privilege level of a selector. -/
def rpl (selector : BitVec 16) : BitVec 2 := selector.extractLsb' 0 2

/-- `iret`, from protected mode to protected mode and not from a nested task: `esp` and `ss` are
popped only on the way to another privilege level. -/
def Machine.iret (m : Machine) : Machine :=
  let pop (k : Dword) := X86.load m.cpu.mem (m.cpu.reg .esp + k)
  let cs := (pop 4#32).setWidth 16
  let same := rpl cs = rpl m.cs
  let cpu := m.cpu.setReg .esp (if same then m.cpu.reg .esp + 12#32 else pop 12#32)
  { cpu := { cpu with eip := pop 0#32 }
    cs := cs
    ss := if same then m.ss else (pop 16#32).setWidth 16
    eflags := pop 8#32 }

end Zonix.Lib.X86
