import Zonix.Cons.Shell

/-!
# The keyboard: `kern/drivers/kdb.c`

The controller hands on one scan code at a time. `kdb_getc` looks at its status, reads the code and
looks it up; what reads a port is a function of its own, since an interrupt may come in between.
-/

namespace Zonix
open Lib.Format

/-! ## `arch/x86/drivers/i8042.h` -/

def KBD_OBF_FULL : BitVec 8 := 0x01#8

def NO : BitVec 8 := 0#8

def KEY_HOME : BitVec 8 := 0xE0#8
def KEY_END : BitVec 8 := 0xE1#8
def KEY_UP : BitVec 8 := 0xE2#8
def KEY_DN : BitVec 8 := 0xE3#8
def KEY_LF : BitVec 8 := 0xE4#8
def KEY_RT : BitVec 8 := 0xE5#8
def KEY_PGUP : BitVec 8 := 0xE6#8
def KEY_PGDN : BitVec 8 := 0xE7#8
def KEY_INS : BitVec 8 := 0xE8#8
def KEY_DEL : BitVec 8 := 0xE9#8

def KP_ENTER : BitVec 8 := NEWLINE
def KP_DIV : BitVec 8 := ascii '/'

/-! ## The controller -/

/-- The scan codes that the keyboard has sent and the controller has not taken yet, the oldest
first, and the registers of the controller. -/
structure I8042 where
  wire : List (BitVec 8)
  status : BitVec 8
  data : BitVec 8

namespace I8042

/-- Bit 0 of the status: the output buffer is full. -/
def full (k : I8042) : Bool := k.status.getLsbD 0

/-- What is in the output buffer. -/
def buffered (k : I8042) : List (BitVec 8) := if k.full then [k.data] else []

def send (k : I8042) (code : BitVec 8) : I8042 := { k with wire := k.wire ++ [code] }

/-- The controller takes the next scan code. -/
def load (k : I8042) : Option I8042 :=
  match k.wire with
  | [] => none
  | code :: wire => if k.full then none else some ⟨wire, k.status ||| KBD_OBF_FULL, code⟩

/-- `inb(KBD_DATA_REG)`; when the buffer is empty, the last byte is read again. -/
def inbData (k : I8042) : BitVec 8 × I8042 :=
  (k.data, { k with status := k.status &&& ~~~KBD_OBF_FULL })

end I8042

/-! ## `kdb.c` -/

/-- `normal_map`, up to the first entry with a designator -/
def normalMapKeys : List (BitVec 8) :=
  [NO, 0x1B#8] ++
    ['1', '2', '3', '4', '5', '6', '7', '8', '9', '0', '-', '='].map ascii ++
    [BACKSPACE, 0x09#8] ++
    ['q', 'w', 'e', 'r', 't', 'y', 'u', 'i', 'o', 'p', '[', ']'].map ascii ++
    [NEWLINE, NO] ++
    ['a', 's', 'd', 'f', 'g', 'h', 'j', 'k', 'l', ';'].map ascii ++
    -- an apostrophe, a grave accent, the left shift and a backslash
    [0x27#8, 0x60#8, NO, 0x5C#8] ++
    ['z', 'x', 'c', 'v', 'b', 'n', 'm', ',', '.', '/'].map ascii ++
    [NO, ascii '*', NO, ascii ' '] ++
    List.replicate 13 NO ++
    ['7', '8', '9', '-', '4', '5', '6', '+', '1', '2', '3', '0', '.'].map ascii ++
    List.replicate 4 NO

/-- The entries with a designator. -/
def normalMapExtended : List (BitVec 8 × BitVec 8) :=
  [(0xC7#8, KEY_HOME), (0x9C#8, KP_ENTER), (0xB5#8, KP_DIV), (0xC8#8, KEY_UP),
    (0xC9#8, KEY_PGUP), (0xCB#8, KEY_LF), (0xCD#8, KEY_RT), (0xCF#8, KEY_END),
    (0xD0#8, KEY_DN), (0xD1#8, KEY_PGDN), (0xD2#8, KEY_INS), (0xD3#8, KEY_DEL)]

/-- `normal_map[code]` -/
def normalMap (code : BitVec 8) : BitVec 8 :=
  match normalMapExtended.lookup code with
  | some c => c
  | none => normalMapKeys.getD code.toNat NO

/-- What `kdb_getc` returns for a scan code. -/
def kdbChar (data : BitVec 8) : BitVec 32 :=
  if data &&& 0x80#8 ≠ 0#8 then -1#32 else (normalMap data).setWidth 32

/-- The first read of `kdb_getc`: whether it goes on to the second. -/
def kdbStatus (k : I8042) : Bool := k.status &&& KBD_OBF_FULL ≠ 0#8

def kdbGetc (k : I8042) : BitVec 32 × I8042 :=
  if kdbStatus k then (kdbChar k.inbData.1, k.inbData.2) else (-1#32, k)

/-- `char c = kdb_getc()`, for a scan code -/
def keyOf (data : BitVec 8) : BitVec 8 := (kdbChar data).setWidth 8

/-- The entries with a designator are never returned: the test for a key that is released comes
before them. -/
theorem kdbChar_ascii (data : BitVec 8) : kdbChar data = -1#32 ∨ (kdbChar data).toNat < 128 := by
  revert data
  decide +kernel

namespace I8042
variable {k l : I8042}

theorem kdbStatus_eq (k : I8042) : kdbStatus k = k.full := by
  have hbit : ∀ v : BitVec 8, (v &&& KBD_OBF_FULL ≠ 0#8) = (v.getLsbD 0 = true) := by decide
  unfold kdbStatus full
  rw [Bool.eq_iff_iff, decide_eq_true_iff, hbit]

theorem inbData_full : k.inbData.2.full = false := by
  have hbit : ∀ v : BitVec 8, (v &&& ~~~KBD_OBF_FULL).getLsbD 0 = false := by decide
  exact hbit k.status

/-- Reading the data port empties the buffer. -/
theorem inbData_buffered (h : k.full = true) :
    [k.inbData.1] ++ (k.inbData.2.buffered ++ k.inbData.2.wire) = k.buffered ++ k.wire := by
  rw [buffered, buffered, inbData_full, h]
  rfl

theorem load_eq (h : k.load = some l) : k.full = false ∧ l.full = true ∧
    l.buffered ++ l.wire = k.buffered ++ k.wire := by
  have hbit : ∀ v : BitVec 8, (v ||| KBD_OBF_FULL).getLsbD 0 = true := by decide
  unfold load at h
  split at h
  · exact absurd h (by simp)
  · rename_i code wire hwire
    cases hfull : k.full with
    | true => simp [hfull] at h
    | false =>
      rw [hfull, if_neg (by decide)] at h
      obtain rfl := Option.some.inj h
      have hloaded : full ⟨wire, k.status ||| KBD_OBF_FULL, code⟩ = true := hbit k.status
      refine ⟨rfl, hloaded, ?_⟩
      rw [buffered, buffered, hloaded, hfull, hwire]
      rfl

end I8042
end Zonix
