import Zonix.Drivers.Hd
import Zonix.Lib.Machine

/-!
# The screen: `kern/drivers/cga.c`

`crt_buf` is the memory from the start of the video buffer on, whatever lies behind the screen
included. The stores to it are recorded. Starting from a cursor on the screen, the only character
that takes it off the screen is one that is written to the last cell: scrolling is left to the
next newline, and until then the text goes to the memory behind the screen.
-/

namespace Zonix
open Lib

def CRT_ROWS : ℕ := 25
def CRT_COLS : ℕ := 80

def CRTC_CURSOR_HIGH : Byte := 0x0E#8
def CRTC_CURSOR_LOW : Byte := 0x0F#8

def CRT_ERASE_CHAR : BitVec 16 := 0x0720#16

structure Cga where
  crtBuf : ℕ → BitVec 16
  crtPos : BitVec 16
  /-- The registers of the CRTC. -/
  crtc : Byte → Byte
  /-- The indices of the stores to `crt_buf`, the newest first. -/
  stores : List ℕ

namespace Cga

def setPos (s : Cga) (pos : BitVec 16) : Cga := { s with crtPos := pos }

/-- `crt_buf[i] = v` -/
def store (s : Cga) (i : ℕ) (v : BitVec 16) : Cga :=
  { s with crtBuf := Function.update s.crtBuf i v, stores := i :: s.stores }

/-- `outb(CGA_IDX_REG, reg); outb(CGA_DATA_REG, v);` -/
def outbReg (s : Cga) (reg v : Byte) : Cga := { s with crtc := Function.update s.crtc reg v }

def curUpdate (s : Cga) : Cga :=
  let s := s.outbReg CRTC_CURSOR_HIGH ((s.crtPos >>> 8).setWidth 8)
  s.outbReg CRTC_CURSOR_LOW (s.crtPos.setWidth 8)

def cgaScrup (s : Cga) : Cga :=
  let s := (List.range ((CRT_ROWS - 1) * CRT_COLS)).foldl
    (fun s i => s.store i (s.crtBuf (CRT_COLS + i))) s
  let s := (List.range CRT_COLS).foldl
    (fun s i => s.store (CRT_COLS * (CRT_ROWS - 1) + i) CRT_ERASE_CHAR) s
  s.setPos (s.crtPos - BitVec.ofNat 16 CRT_COLS)

/-- `crt_pos -= (crt_pos % CRT_COLS)` -/
def carriageReturn (s : Cga) : Cga := s.setPos (s.crtPos - s.crtPos % BitVec.ofNat 16 CRT_COLS)

def cgaPutc (s : Cga) (c : Word) : Cga :=
  let c := c ||| 0x0700#32
  let s :=
    if c &&& 0xFF#32 = 0x08#32 then
      if 0#16 < s.crtPos then
        let s := s.setPos (s.crtPos - 1#16)
        s.store s.crtPos.toNat (((c &&& ~~~0xFF#32) ||| 0x20#32).setWidth 16)
      else s
    else if c &&& 0xFF#32 = 0x0A#32 then
      let s := s.setPos (s.crtPos + BitVec.ofNat 16 CRT_COLS)
      let s := if CRT_ROWS ≤ s.crtPos.toNat / CRT_COLS then s.cgaScrup else s
      -- falls through
      s.carriageReturn
    else if c &&& 0xFF#32 = 0x0D#32 then s.carriageReturn
    else (s.store s.crtPos.toNat (c.setWidth 16)).setPos (s.crtPos + 1#16)
  s.curUpdate

/-! ## The screen -/

/-- The cursor is on the screen, and nothing was stored outside it. -/
structure OnScreen (s : Cga) : Prop where
  crtPos : s.crtPos.toNat < CRT_ROWS * CRT_COLS
  stores : ∀ i ∈ s.stores, i < CRT_ROWS * CRT_COLS

/-- The character is written to a cell: it is no backspace, newline or carriage return. -/
def Written (c : Word) : Prop := c &&& 0xFF#32 ≠ 0x08#32 ∧ c &&& 0xFF#32 ≠ 0x0A#32 ∧
  c &&& 0xFF#32 ≠ 0x0D#32

section Steps
variable {s : Cga} {c : Word}

/-- The attribute is in the bits above the character. -/
theorem or_attribute (c : Word) : (c ||| 0x0700#32) &&& 0xFF#32 = c &&& 0xFF#32 := by
  rw [BitVec.and_comm, BitVec.and_or_distrib_left]
  simp [BitVec.and_comm]

theorem foldl_store_crtPos (v : Cga → ℕ → BitVec 16) (index : ℕ → ℕ) (l : List ℕ) (s : Cga) :
    (l.foldl (fun s i => s.store (index i) (v s i)) s).crtPos = s.crtPos := by
  induction l generalizing s with
  | nil => rfl
  | cons i l ih => exact ih _

theorem mem_foldl_store_stores (v : Cga → ℕ → BitVec 16) (index : ℕ → ℕ) {l : List ℕ} {s : Cga}
    {j : ℕ} : j ∈ (l.foldl (fun s i => s.store (index i) (v s i)) s).stores ↔
      j ∈ l.map index ∨ j ∈ s.stores := by
  induction l generalizing s with
  | nil => simp
  | cons i l ih =>
    rw [List.foldl_cons, ih]
    simp only [store, List.mem_cons, List.map_cons]
    tauto

theorem cgaScrup_crtPos (s : Cga) :
    s.cgaScrup.crtPos = s.crtPos - BitVec.ofNat 16 CRT_COLS := by
  rw [cgaScrup]
  show BitVec.sub _ _ = _
  rw [foldl_store_crtPos, foldl_store_crtPos]
  rfl

theorem cgaScrup_stores (h : ∀ i ∈ s.stores, i < CRT_ROWS * CRT_COLS) :
    ∀ i ∈ s.cgaScrup.stores, i < CRT_ROWS * CRT_COLS := by
  intro i hi
  rw [cgaScrup] at hi
  simp only [setPos, mem_foldl_store_stores, List.mem_map, List.mem_range] at hi
  unfold CRT_ROWS CRT_COLS at *
  rcases hi with ⟨j, hj, rfl⟩ | ⟨j, hj, rfl⟩ | hi
  · omega
  · omega
  · exact h i hi

theorem curUpdate_onScreen : s.curUpdate.OnScreen ↔ s.OnScreen :=
  ⟨fun h => ⟨h.crtPos, h.stores⟩, fun h => ⟨h.crtPos, h.stores⟩⟩

/-- In the line of the cursor, or at the start of a line below. -/
theorem carriageReturn_crtPos (s : Cga) :
    s.carriageReturn.crtPos.toNat = s.crtPos.toNat - s.crtPos.toNat % CRT_COLS := by
  have hle := Nat.mod_le s.crtPos.toNat CRT_COLS
  show (s.crtPos - s.crtPos % BitVec.ofNat 16 CRT_COLS).toNat = _
  have hmod : (s.crtPos % BitVec.ofNat 16 CRT_COLS).toNat = s.crtPos.toNat % CRT_COLS := rfl
  rw [BitVec.toNat_sub_of_le (BitVec.le_def.mpr (hmod ▸ hle)), hmod]

theorem OnScreen.carriageReturn (h : s.OnScreen) : s.carriageReturn.OnScreen := by
  refine ⟨?_, h.stores⟩
  rw [carriageReturn_crtPos]
  exact lt_of_le_of_lt (Nat.sub_le _ _) h.crtPos

theorem OnScreen.backspace (h : s.OnScreen) (hpos : 0#16 < s.crtPos) (v : BitVec 16) :
    ((s.setPos (s.crtPos - 1#16)).store (s.crtPos - 1#16).toNat v).OnScreen := by
  have hlt : (s.crtPos - 1#16).toNat < CRT_ROWS * CRT_COLS := by
    have hone : 1#16 ≤ s.crtPos := BitVec.le_def.mpr (BitVec.lt_def.mp hpos)
    rw [BitVec.toNat_sub_of_le hone]
    exact lt_of_le_of_lt (Nat.sub_le _ _) h.crtPos
  refine ⟨hlt, fun i hi => ?_⟩
  rcases List.mem_cons.mp hi with rfl | hi
  · exact hlt
  · exact h.stores i hi

/-- One line down, where the last line scrolls. -/
theorem OnScreen.newline (h : s.OnScreen) :
    (if CRT_ROWS ≤ (s.setPos (s.crtPos + BitVec.ofNat 16 CRT_COLS)).crtPos.toNat / CRT_COLS then
      (s.setPos (s.crtPos + BitVec.ofNat 16 CRT_COLS)).cgaScrup
    else s.setPos (s.crtPos + BitVec.ofNat 16 CRT_COLS)).OnScreen := by
  have hcur := h.crtPos
  have hadd : (s.crtPos + BitVec.ofNat 16 CRT_COLS).toNat = s.crtPos.toNat + CRT_COLS := by
    unfold CRT_ROWS CRT_COLS at *
    rw [BitVec.toNat_add, BitVec.toNat_ofNat]
    omega
  split_ifs with hlast
  · -- scrolling takes back what was added
    refine ⟨?_, cgaScrup_stores h.stores⟩
    rw [cgaScrup_crtPos]
    show (s.crtPos + BitVec.ofNat 16 CRT_COLS - BitVec.ofNat 16 CRT_COLS).toNat < _
    rw [BitVec.add_sub_cancel]
    exact hcur
  · refine ⟨?_, h.stores⟩
    show (s.crtPos + BitVec.ofNat 16 CRT_COLS).toNat < _
    have hrow : (s.crtPos + BitVec.ofNat 16 CRT_COLS).toNat / CRT_COLS < CRT_ROWS :=
      not_le.mp hlast
    exact (Nat.div_lt_iff_lt_mul (by decide)).mp hrow

/-- A character that is written moves the cursor to the next cell, if there is one. -/
theorem OnScreen.write (h : s.OnScreen) (v : BitVec 16) :
    ((s.store s.crtPos.toNat v).setPos (s.crtPos + 1#16)).OnScreen ↔
      s.crtPos.toNat ≠ CRT_ROWS * CRT_COLS - 1 := by
  have hcur := h.crtPos
  have hadd : (s.crtPos + 1#16).toNat = s.crtPos.toNat + 1 := by
    unfold CRT_ROWS CRT_COLS at hcur
    rw [BitVec.toNat_add, show (1#16).toNat = 1 from rfl]
    omega
  constructor
  · intro hnext
    have hlt : (s.crtPos + 1#16).toNat < CRT_ROWS * CRT_COLS := hnext.crtPos
    omega
  · intro hne
    refine ⟨?_, fun i hi => ?_⟩
    · show (s.crtPos + 1#16).toNat < _
      omega
    · rcases List.mem_cons.mp hi with rfl | hi
      · exact hcur
      · exact h.stores i hi

/-- One call. -/
theorem cgaPutc_onScreen_iff (h : s.OnScreen) (c : Word) : (s.cgaPutc c).OnScreen ↔
    (Written c → s.crtPos.toNat ≠ CRT_ROWS * CRT_COLS - 1) := by
  simp only [cgaPutc, curUpdate_onScreen, or_attribute]
  by_cases hb : c &&& 0xFF#32 = 0x08#32
  · rw [if_pos hb]
    refine iff_of_true ?_ fun hw => absurd hb hw.1
    split_ifs with hpos
    · exact h.backspace hpos _
    · exact h
  rw [if_neg hb]
  by_cases hn : c &&& 0xFF#32 = 0x0A#32
  · rw [if_pos hn]
    exact iff_of_true h.newline.carriageReturn fun hw => absurd hn hw.2.1
  rw [if_neg hn]
  by_cases hr : c &&& 0xFF#32 = 0x0D#32
  · rw [if_pos hr]
    exact iff_of_true h.carriageReturn fun hw => absurd hr hw.2.2
  · rw [if_neg hr, h.write]
    exact ⟨fun hne _ => hne, fun hne => hne ⟨hb, hn, hr⟩⟩

end Steps

/-! ## Sequences of characters -/

/-- The console stays on the screen if and only if no character is written to the last cell: a
newline has to come before. -/
theorem onScreen_iff {s : Cga} (h : s.OnScreen) (cs : List Word) :
    (∀ pre, pre <+: cs → (pre.foldl cgaPutc s).OnScreen) ↔
      ∀ pre c, pre ++ [c] <+: cs → Written c →
        (pre.foldl cgaPutc s).crtPos.toNat ≠ CRT_ROWS * CRT_COLS - 1 :=
  foldl_invariant_iff (f := cgaPutc) (I := OnScreen)
    (C := fun (s : Cga) c => Written c → s.crtPos.toNat ≠ CRT_ROWS * CRT_COLS - 1)
    (fun _ c hs => cgaPutc_onScreen_iff hs c) h cs

/-- The cursor in the last line, and nothing stored yet. -/
def lastLine (column : ℕ) : Cga :=
  ⟨fun _ => 0#16, BitVec.ofNat 16 ((CRT_ROWS - 1) * CRT_COLS + column), fun _ => 0#8, []⟩

theorem lastLine_onScreen {column : ℕ} (h : column < CRT_COLS) : (lastLine column).OnScreen := by
  refine ⟨?_, by simp [lastLine]⟩
  unfold lastLine CRT_ROWS CRT_COLS at *
  rw [BitVec.toNat_ofNat]
  omega

theorem onScreen_iff_lastLine :
    (∀ pre, pre <+: [0x41#32, 0x0A#32] → (pre.foldl cgaPutc (lastLine 78)).OnScreen) ↔
      ∀ pre c, pre ++ [c] <+: [0x41#32, 0x0A#32] → Written c →
        (pre.foldl cgaPutc (lastLine 78)).crtPos.toNat ≠ CRT_ROWS * CRT_COLS - 1 :=
  onScreen_iff (lastLine_onScreen (by decide)) _

/-- Characters at the end of the last line, the first of them to its last cell. -/
theorem cgaPutc_leaves_screen : (lastLine 79).OnScreen ∧
    ((lastLine 79).cgaPutc 0x41#32).crtPos.toNat = CRT_ROWS * CRT_COLS ∧
    CRT_ROWS * CRT_COLS ∈ (([0x41#32, 0x42#32] : List Word).foldl cgaPutc (lastLine 79)).stores ∧
    ¬ ∀ pre, pre <+: ([0x41#32, 0x42#32] : List Word) →
      (pre.foldl cgaPutc (lastLine 79)).OnScreen := by
  refine ⟨lastLine_onScreen (by decide), by decide, by decide, fun hall => ?_⟩
  have hpos := (hall [0x41#32] (by decide)).crtPos
  exact absurd hpos (by decide)

end Cga
end Zonix
