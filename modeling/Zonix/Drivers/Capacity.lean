import Zonix.Cons.StdioTheorems
import Zonix.Drivers.DetectTheorems

/-!
# The capacity of a disk: `blk_list_devices`

The size that `hd_detect_device` records is a number of sectors, and `blk_list_devices` turns it
into bytes before it divides. The bytes are counted with 32 bits, and so the capacity is right for
disks below 4 GiB.
-/

namespace Zonix
open Lib.Format Cprintf

/-! ## `blk_list_devices` -/

/-- `"NAME   MAJ:MIN RM  SIZE RO TYPE MOUNTPOINTS\n"` -/
def listHeader : Text :=
  ['N', 'A', 'M', 'E', ' ', ' ', ' ', 'M', 'A', 'J', ':', 'M', 'I', 'N', ' ', 'R', 'M', ' ', ' ',
    'S', 'I', 'Z', 'E', ' ', 'R', 'O', ' ', 'T', 'Y', 'P', 'E', ' ', 'M', 'O', 'U', 'N', 'T', 'P',
    'O', 'I', 'N', 'T', 'S', '\n'].map ascii

/-- `"%-6s %3d:%-3d %-2d %2d.%dM %-2d %-4s %s\n"` -/
def listFormat : Text :=
  ['%', '-', '6', 's', ' ', '%', '3', 'd', ':', '%', '-', '3', 'd', ' ', '%', '-', '2', 'd', ' ',
    '%', '2', 'd', '.', '%', 'd', 'M', ' ', '%', '-', '2', 'd', ' ', '%', '-', '4', 's', ' ', '%',
    's', '\n'].map ascii

/-- `"disk"`, whatever the type is. -/
def typeStr : CString where
  chars := ['d', 'i', 's', 'k'].map ascii
  nonzero := by decide
  length_lt := by decide

def mountStr (type : ℕ) : CString where
  chars := if type = BLK_TYPE_SWAP then ['[', 'S', 'W', 'A', 'P', ']'].map ascii else []
  nonzero := by split_ifs <;> decide
  length_lt := by split_ifs <;> decide

/-- `size_mb` and `decimal` -/
def sizeInMb (size : Word) : Word × Word :=
  let sizeBytes := size * BLK_SIZE
  let sizeMb := sizeBytes / (1024#32 * 1024#32)
  let remainder := sizeBytes % (1024#32 * 1024#32)
  (sizeMb, remainder * 10#32 / (1024#32 * 1024#32))

/-- One turn of the loop of `blk_list_devices`. -/
def listDevice (fuel i : ℕ) (dev : BlkDevice) : Option Printed :=
  cprintf fuel listFormat [.str dev.name, .int 8#32, .int (BitVec.ofNat 32 i * 16#32), .int 0#32,
    .int (sizeInMb dev.size).1, .int (sizeInMb dev.size).2, .int 0#32, .str typeStr,
    .str (mountStr dev.type)]

/-- The loop of `blk_list_devices`, from `i` on. No pointer up to `num_devices` is null. -/
def listFrom (fuel : ℕ) : ℕ → List BlkDevice → Option Text
  | _, [] => some []
  | i, dev :: devs => do
    let line ← listDevice fuel i dev
    let rest ← listFrom fuel (i + 1) devs
    some (line.1 ++ rest)

/-- `blk_list_devices()` -/
def blkListDevices (fuel : ℕ) (blockDevices : List BlkDevice) : Option Text := do
  let header ← cprintf fuel listHeader []
  let lines ← listFrom fuel 0 blockDevices
  some (header.1 ++ lines)

/-! ## What it should print -/

/-- The capacity of so many sectors, in MiB with one decimal, as `%2d.%dM` has it. -/
def capacity (sectors : ℕ) : Text :=
  field false false 2 [] (numeral 10 (sectors * 512 / 2 ^ 20)) ++ [ascii '.'] ++
    numeral 10 (sectors * 512 * 10 / 2 ^ 20 % 10) ++ [ascii 'M']

/-- The columns in front of the capacity. -/
def columnsBefore (i : ℕ) (dev : BlkDevice) : List Piece :=
  [.directive ⟨true, false, 6, false, .s⟩ (.str dev.name) rfl, .literal (ascii ' ') (by decide),
    .directive ⟨false, false, 3, false, .d⟩ (.int 8#32) ⟨by decide, rfl⟩,
    .literal (ascii ':') (by decide),
    .directive ⟨true, false, 3, false, .d⟩ (.int (BitVec.ofNat 32 i * 16#32)) ⟨by decide, rfl⟩,
    .literal (ascii ' ') (by decide),
    .directive ⟨true, false, 2, false, .d⟩ (.int 0#32) ⟨by decide, rfl⟩,
    .literal (ascii ' ') (by decide)]

/-- The columns behind it. -/
def columnsBehind (dev : BlkDevice) : List Piece :=
  [.literal (ascii ' ') (by decide),
    .directive ⟨true, false, 2, false, .d⟩ (.int 0#32) ⟨by decide, rfl⟩,
    .literal (ascii ' ') (by decide), .directive ⟨true, false, 4, false, .s⟩ (.str typeStr) rfl,
    .literal (ascii ' ') (by decide),
    .directive ⟨false, false, 0, false, .s⟩ (.str (mountStr dev.type)) rfl,
    .literal (ascii '\n') (by decide)]

/-- The line of the `i`-th device, with `size` for its capacity. -/
def lineOf (i : ℕ) (dev : BlkDevice) (size : Text) : Text :=
  (columnsBefore i dev).flatMap Piece.render ++ size ++ (columnsBehind dev).flatMap Piece.render

/-- Wherever a device of that size stands among the devices, its line has the right capacity, and
the others are as without it. -/
def Listed (size : Word) : Prop :=
  ∀ fuel > 64, ∀ (before behind : List BlkDevice) (dev : BlkDevice), dev.size = size →
    ∃ out rest, blkListDevices fuel before = some out ∧
      listFrom fuel (before.length + 1) behind = some rest ∧
      blkListDevices fuel (before ++ dev :: behind) =
        some (out ++ lineOf before.length dev (capacity size.toNat) ++ rest)

/-- The sectors that the drive counts in the words 60 and 61. -/
def lbaSectors (buf : ℕ → BitVec 16) : ℕ := (buf 61).toNat * 2 ^ 16 + (buf 60).toNat

/-- The sectors that its geometry has. -/
def chsSectors (buf : ℕ → BitVec 16) : ℕ := (buf 1).toNat * (buf 3).toNat * (buf 6).toNat

/-- The count of the drive, or else the product, if that fits. -/
def SizeOf (buf : ℕ → BitVec 16) (size : Word) : Prop :=
  (lbaSectors buf ≠ 0 → size.toNat = lbaSectors buf) ∧
    (lbaSectors buf = 0 → chsSectors buf < 2 ^ 32 → size.toNat = chsSectors buf)

/-! ## The recorded size -/

section
variable {buf : ℕ → BitVec 16} {size : Word}

theorem identifiedSize_toNat (buf : ℕ → BitVec 16) : (identifiedSize buf).toNat =
    if lbaSectors buf = 0 then chsSectors buf % 2 ^ 32 else lbaSectors buf := by
  have hwords : (buf 61 ++ buf 60).toNat = lbaSectors buf := by
    rw [lbaSectors, append_toNat]
  have hword (w : BitVec 16) : (w.setWidth 32).toNat = w.toNat := by
    have hlt := w.isLt
    rw [BitVec.toNat_setWidth, Nat.mod_eq_of_lt (by omega)]
  have hzero : buf 61 ++ buf 60 = 0#32 ↔ lbaSectors buf = 0 := by
    rw [← hwords]
    exact BitVec.toNat_inj.symm
  unfold identifiedSize
  simp only [hzero]
  split_ifs
  · rw [BitVec.toNat_mul, BitVec.toNat_mul, hword, hword, hword, chsSectors, Nat.mod_mul_mod]
  · exact hwords

theorem identifiedSize_sizeOf (buf : ℕ → BitVec 16) : SizeOf buf (identifiedSize buf) := by
  have hsize := identifiedSize_toNat buf
  refine ⟨fun hlba => ?_, fun hlba hfits => ?_⟩
  · rw [hsize, if_neg hlba]
  · rw [hsize, if_pos hlba, Nat.mod_eq_of_lt hfits]

end

/-! ## The arithmetic -/

/-- The first decimal comes from the sectors behind the last whole MiB. -/
theorem decimal_eq (n : ℕ) :
    n * 512 % 2 ^ 32 % 2 ^ 20 * 10 % 2 ^ 32 / 2 ^ 20 = n * 512 * 10 / 2 ^ 20 % 10 := by
  have hrem : n * 512 % 2 ^ 32 % 2 ^ 20 = n % 2048 * 512 := by omega
  have hten : n % 2048 * 512 * 10 % 2 ^ 32 = n % 2048 * 5120 := by omega
  have hwhole : n * 512 * 10 / 2 ^ 20 = 10 * (n / 2048) + n % 2048 * 5120 / 2 ^ 20 := by omega
  have hlt : n % 2048 * 5120 / 2 ^ 20 < 10 := by omega
  rw [hrem, hten, hwhole, Nat.mul_add_mod, Nat.mod_eq_of_lt hlt]

/-- The byte count wraps around; the rest is exact. -/
theorem sizeInMb_toNat (size : Word) :
    (sizeInMb size).1.toNat = size.toNat * 512 % 2 ^ 32 / 2 ^ 20 ∧
      (sizeInMb size).2.toNat = size.toNat * 512 * 10 / 2 ^ 20 % 10 := by
  have hbytes : (size * BLK_SIZE).toNat = size.toNat * 512 % 2 ^ 32 := BitVec.toNat_mul ..
  have hmb : (1024#32 * 1024#32).toNat = 2 ^ 20 := rfl
  refine ⟨?_, ?_⟩
  · rw [sizeInMb, BitVec.toNat_udiv, hbytes, hmb]
  · have hten : (10#32).toNat = 10 := rfl
    rw [sizeInMb, BitVec.toNat_udiv, BitVec.toNat_mul, BitVec.toNat_umod, hbytes, hmb, hten,
      decimal_eq]

/-- The whole MiB are right below 4 GiB only; the decimal always is. -/
theorem sizeInMb_exact_iff (size : Word) :
    (sizeInMb size).1.toNat = size.toNat * 512 / 2 ^ 20 ↔ size.toNat < 2 ^ 23 := by
  rw [(sizeInMb_toNat size).1]
  omega

/-! ## The text -/

/-- Two numbers as `%2d.%dM` writes them. -/
def capacityText (mb decimal : ℕ) : Text :=
  field false false 2 [] (numeral 10 mb) ++ [ascii '.'] ++ numeral 10 decimal ++ [ascii 'M']

/-- Before the point, different numbers have different texts. -/
theorem capacityText_inj {mb mb' decimal : ℕ}
    (h : capacityText mb decimal = capacityText mb' decimal) : mb = mb' := by
  unfold capacityText at h
  have hfield := List.append_cancel_right (List.append_cancel_right (List.append_cancel_right h))
  rw [← parse_field (b := 10) (by omega) (by omega) 2 mb, hfield,
    parse_field (by omega) (by omega)]

def sizePieces (mb : Word × Word) : List Piece :=
  [.directive ⟨false, false, 2, false, .d⟩ (.int mb.1) ⟨by decide, rfl⟩,
    .literal (ascii '.') (by decide),
    .directive ⟨false, false, 0, false, .d⟩ (.int mb.2) ⟨by decide, rfl⟩,
    .literal (ascii 'M') (by decide)]

/-- A width that is read right for every argument. -/
def Plain : Piece → Prop
  | .literal _ _ => True
  | .directive g _ _ => 0 ∉ Nat.digits 10 g.width ∧ g.width < 2 ^ 31

theorem print_eq_render {q : Piece} (hq : Plain q) : q.print = q.render := by
  cases q with
  | literal c h => rfl
  | directive g a h =>
    refine (printed_eq_iff g a).mpr (Or.inr ⟨hq.1, ?_⟩)
    have hlt := hq.2
    split_ifs <;> omega

section
variable {fuel : ℕ}

theorem listDevice_eq (hfuel : 64 < fuel) (i : ℕ) (dev : BlkDevice) :
    listDevice fuel i dev =
      some (lineOf i dev ((sizePieces (sizeInMb dev.size)).flatMap Piece.render), []) := by
  have hplain : ∀ q ∈ columnsBefore i dev ++ sizePieces (sizeInMb dev.size) ++ columnsBehind dev,
      Plain q := by
    simp only [columnsBefore, sizePieces, columnsBehind, List.forall_mem_append,
      List.forall_mem_cons, List.not_mem_nil, false_implies, implies_true, and_true, true_and,
      Plain]
    decide
  have hline : (columnsBefore i dev ++ sizePieces (sizeInMb dev.size) ++
      columnsBehind dev).flatMap Piece.print =
      lineOf i dev ((sizePieces (sizeInMb dev.size)).flatMap Piece.render) := by
    rw [List.flatMap_congr fun q hq => print_eq_render (hplain q hq), List.flatMap_append,
      List.flatMap_append]
    rfl
  rw [← hline]
  exact cprintf_pieces hfuel
    (columnsBefore i dev ++ sizePieces (sizeInMb dev.size) ++ columnsBehind dev) []

/-- What `%d` makes of a number that an `int` can hold. -/
theorem render_d {v : Word} (hv : v.toNat < 2 ^ 31) (width : ℕ) :
    (⟨false, false, width, false, .d⟩ : Directive).render (.int v.toInt) =
      field false false width [] (numeral 10 v.toNat) := by
  have hint : v.toInt = v.toNat := BitVec.toInt_eq_toNat_of_lt (by omega)
  rw [hint, Directive.render, Value.sign_natCast]
  rfl

theorem sizePieces_render (size : Word) : (sizePieces (sizeInMb size)).flatMap Piece.render =
    capacityText (sizeInMb size).1.toNat (sizeInMb size).2.toNat := by
  obtain ⟨hmb, hdecimal⟩ := sizeInMb_toNat size
  have hwhole := render_d (v := (sizeInMb size).1) (by omega) 2
  have htenth := render_d (v := (sizeInMb size).2) (by omega) 0
  have hnarrow : field false false 0 [] (numeral 10 (sizeInMb size).2.toNat) =
      numeral 10 (sizeInMb size).2.toNat := by
    rw [field, Nat.zero_sub, pad_none, List.nil_append]
  rw [hnarrow] at htenth
  rw [capacityText, ← hwhole, ← htenth]
  simp [sizePieces, Piece.render, value]

/-! ## The listing -/

/-- What is printed for the devices, the first of them at `i`. -/
def lines : ℕ → List BlkDevice → Text
  | _, [] => []
  | i, dev :: devs =>
    lineOf i dev (capacityText (sizeInMb dev.size).1.toNat (sizeInMb dev.size).2.toNat) ++
      lines (i + 1) devs

theorem lines_append (i : ℕ) (devs devs' : List BlkDevice) :
    lines i (devs ++ devs') = lines i devs ++ lines (i + devs.length) devs' := by
  induction devs generalizing i with
  | nil => rfl
  | cons dev devs ih =>
    rw [List.cons_append, lines, lines, ih, List.append_assoc, List.length_cons,
      Nat.add_comm devs.length 1, Nat.add_assoc]

theorem listFrom_eq (hfuel : 64 < fuel) (i : ℕ) (devs : List BlkDevice) :
    listFrom fuel i devs = some (lines i devs) := by
  induction devs generalizing i with
  | nil => rfl
  | cons dev devs ih =>
    rw [listFrom, listDevice_eq hfuel, sizePieces_render, ih]
    rfl

theorem blkListDevices_eq (hfuel : 64 < fuel) (devs : List BlkDevice) :
    blkListDevices fuel devs = some (listHeader ++ lines 0 devs) := by
  have hliteral : ∀ c ∈ listHeader, c ≠ ascii '%' := by decide
  rw [blkListDevices, cprintf_literals hliteral, listFrom_eq hfuel]
  rfl

theorem listed_iff (size : Word) : Listed size ↔ size.toNat < 2 ^ 23 := by
  rw [← sizeInMb_exact_iff]
  have hdecimal := (sizeInMb_toNat size).2
  constructor
  · intro h
    -- the only device
    obtain ⟨out, rest, hout, hrest, hall⟩ :=
      h 65 (by omega) [] [] ⟨⟨BLK_TYPE_DISK, size, 0⟩, typeStr⟩ rfl
    rw [blkListDevices_eq (by omega)] at hout hall
    obtain rfl := Option.some.inj hout
    obtain rfl := Option.some.inj hrest
    have hline := Option.some.inj hall
    simp only [lines, List.nil_append, List.append_nil, List.length_nil, lineOf,
      List.append_assoc, List.append_cancel_left_eq, List.append_cancel_right_eq] at hline
    rw [hdecimal] at hline
    exact capacityText_inj hline
  · intro hexact fuel hfuel before behind dev hdev
    refine ⟨_, _, blkListDevices_eq hfuel before, listFrom_eq hfuel _ behind, ?_⟩
    have hcapacity : capacity size.toNat =
        capacityText (sizeInMb dev.size).1.toNat (sizeInMb dev.size).2.toNat := by
      rw [hdev, hexact, hdecimal]
      rfl
    rw [blkListDevices_eq hfuel, lines_append, lines, Nat.zero_add, hcapacity, List.append_assoc,
      List.append_assoc]

end

/-! ## Detected disks -/

namespace Hd
variable {s : Hd} {devId : Fin MAX_IDE_DEVICES}

/-- The size that `hd_detect_device` records. -/
def detectedSize (s : Hd) (devId : Fin MAX_IDE_DEVICES) : Word :=
  ((s.hdDetectDevice devId).2.devices devId).size

theorem detectedSize_eq (hfound : (s.hdDetectDevice devId).1 = 0) :
    s.detectedSize devId = identifiedSize (s.answer devId) := by
  unfold detectedSize
  rcases hdDetectDevice_cases s devId with ⟨t, heq, -⟩ | ⟨t, heq, -⟩
  · rw [heq] at hfound
    exact absurd hfound (show ¬ (-1 : ℤ) = 0 by decide)
  · rw [heq]
    show ((t.fill devId (s.answer devId)).devices devId).size = _
    rw [fill_devices, if_pos rfl]

/-- For every answer to IDENTIFY: the size that is recorded, and the capacity that is listed for a
device of that size, are right if and only if the size is below 4 GiB. -/
theorem capacity_iff (hfound : (s.hdDetectDevice devId).1 = 0) :
    SizeOf (s.answer devId) (s.detectedSize devId) ∧ Listed (s.detectedSize devId) ↔
    (lbaSectors (s.answer devId) ≠ 0 → lbaSectors (s.answer devId) < 2 ^ 23) ∧
      (lbaSectors (s.answer devId) = 0 → chsSectors (s.answer devId) % 2 ^ 32 < 2 ^ 23) := by
  rw [detectedSize_eq hfound, and_iff_right (identifiedSize_sizeOf _), listed_iff,
    identifiedSize_toNat]
  by_cases hlba : lbaSectors (s.answer devId) = 0
  · rw [if_pos hlba]
    exact ⟨fun h => ⟨absurd hlba, fun _ => h⟩, fun h => h.2 hlba⟩
  · rw [if_neg hlba]
    exact ⟨fun h => ⟨fun _ => h, fun hzero => absurd hzero hlba⟩, fun h => h.1 hlba⟩

/-- Only the master of the primary channel answers. -/
def onlyHda (words : ℕ → BitVec 16) : Hd :=
  { onlyHdc with
    status := fun base n => if base = IDE0_BASE ∧ n < 6 then IDE_DRDY ||| IDE_DRQ else 0#8
    identify := fun _ _ => words }

/-- A disk of `words61 * 2 ^ 16` sectors. -/
def disk (words61 : BitVec 16) : Hd := onlyHda fun n => if n = 61 then words61 else 0#16

def hda : Fin MAX_IDE_DEVICES := ⟨0, by decide⟩

/-- One of 96 MiB. -/
theorem capacity_iff_small :
    SizeOf ((disk 3#16).answer hda) ((disk 3#16).detectedSize hda) ∧
      Listed ((disk 3#16).detectedSize hda) :=
  (@capacity_iff (disk 3#16) hda (by decide +kernel)).mpr (by decide)

/-- One of 4 GiB is listed with no capacity at all. -/
theorem blkListDevices_wraps : ((disk 0x80#16).hdDetectDevice hda).1 = 0 ∧
    ((disk 0x80#16).detectedSize hda).toNat = 2 ^ 23 ∧
    blkListDevices 65 (blkInit (disk 0x80#16)).1 = some (listHeader ++
      ['h', 'd', 'a', ' ', ' ', ' ', ' ', ' ', ' ', '8', ':', '0', ' ', ' ', ' ', '0', ' ', ' ',
        ' ', '0', '.', '0', 'M', ' ', '0', ' ', ' ', 'd', 'i', 's', 'k', ' ', '\n'].map ascii) ∧
    capacity (2 ^ 23) = ['4', '0', '9', '6', '.', '0', 'M'].map ascii ∧
    ¬ (SizeOf ((disk 0x80#16).answer hda) ((disk 0x80#16).detectedSize hda) ∧
      Listed ((disk 0x80#16).detectedSize hda)) := by
  have hsize : ((disk 0x80#16).detectedSize hda).toNat = 2 ^ 23 := by
    decide +kernel
  have hlines : lines 0 (blkInit (disk 0x80#16)).1 = ['h', 'd', 'a', ' ', ' ', ' ', ' ', ' ', ' ',
      '8', ':', '0', ' ', ' ', ' ', '0', ' ', ' ', ' ', '0', '.', '0', 'M', ' ', '0', ' ', ' ',
      'd', 'i', 's', 'k', ' ', '\n'].map ascii := by
    decide +kernel
  refine ⟨by decide +kernel, hsize, ?_, by decide, fun h => ?_⟩
  · rw [blkListDevices_eq (by decide), hlines]
  · have hsmall := (listed_iff _).mp h.2
    omega

end Hd
end Zonix
