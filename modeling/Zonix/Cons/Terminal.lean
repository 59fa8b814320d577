import Zonix.Drivers.Cga
import Zonix.Lib.Roll

/-!
# The console as a terminal: `kern/cons/cons.c` over `kern/drivers/cga.c`

The screen is the window of a roll: after any text that leaves the last cell of the screen
free, every cell of the screen is that of the roll, the cursor of the CRTC is where the roll is
printed next, and port 0xe9 was given the text. `cga_init` finds the cursor where the text
before it ended.
-/

namespace Zonix
open Lib

/-- The console: the screen, and what was sent to the debug port of Bochs, the newest first. -/
structure Console where
  cga : Cga
  debug : List Byte

namespace Cga

/-- `inb(CGA_DATA_REG)` after `outb(CGA_IDX_REG, reg)` -/
def inbReg (s : Cga) (reg : Byte) : Byte := s.crtc reg

/-- `cga_init()` -/
def cgaInit (s : Cga) : Cga :=
  let s := s.setPos ((s.inbReg CRTC_CURSOR_HIGH).setWidth 16 <<< 8)
  s.setPos (s.crtPos ||| (s.inbReg CRTC_CURSOR_LOW).setWidth 16)

/-- The cell that a character is written to. -/
def cell (c : Word) : BitVec 16 := (c ||| 0x0700#32).setWidth 16

/-- What a character is to the terminal. -/
def key (c : Word) : Key (BitVec 16) :=
  if c &&& 0xFF#32 = 0x08#32 then
    .back ((((c ||| 0x0700#32) &&& ~~~0xFF#32) ||| 0x20#32).setWidth 16)
  else if c &&& 0xFF#32 = 0x0A#32 then .newline
  else if c &&& 0xFF#32 = 0x0D#32 then .ret
  else .write (cell c)

/-- The screen is the window of the roll. -/
structure Shows (s : Cga) (r : Roll (BitVec 16)) : Prop where
  window : r.InWindow CRT_ROWS CRT_COLS
  cells : ∀ i < CRT_ROWS * CRT_COLS, s.crtBuf i = r.cells (r.top * CRT_COLS + i)
  pos : r.pos = r.top * CRT_COLS + s.crtPos.toNat

/-- The cursor of the CRTC is at `crt_pos`. -/
def Synced (s : Cga) : Prop :=
  s.crtc CRTC_CURSOR_HIGH = (s.crtPos >>> 8).setWidth 8 ∧
    s.crtc CRTC_CURSOR_LOW = s.crtPos.setWidth 8

end Cga

namespace Console

/-- `cons_putc(c)` -/
def consPutc (s : Console) (c : Word) : Console where
  cga := s.cga.cgaPutc c
  debug := c.setWidth 8 :: s.debug

end Console

namespace Cga

section Steps
variable {s : Cga} {r : Roll (BitVec 16)} {c : Word}

/-! ## `cga_scrup` -/

/-- The lines move up one by one: a cell is read before it is overwritten. -/
theorem shift_crtBuf (s : Cga) (n i : ℕ) :
    ((List.range n).foldl (fun s i => s.store i (s.crtBuf (CRT_COLS + i))) s).crtBuf i =
      if i < n then s.crtBuf (CRT_COLS + i) else s.crtBuf i := by
  induction n generalizing i with
  | zero => simp
  | succ n ih =>
    rw [List.range_succ, List.foldl_append, List.foldl_cons, List.foldl_nil]
    show Function.update _ n _ i = _
    rw [Function.update_apply, ih, ih, if_neg (show ¬ CRT_COLS + n < n by omega)]
    by_cases hi : i = n
    · rw [if_pos hi, if_pos (by omega), hi]
    · rw [if_neg hi]
      exact if_congr (by omega) rfl rfl

theorem clear_crtBuf (s : Cga) (base n i : ℕ) (v : BitVec 16) :
    ((List.range n).foldl (fun s i => s.store (base + i) v) s).crtBuf i =
      if base ≤ i ∧ i < base + n then v else s.crtBuf i := by
  induction n generalizing i with
  | zero => rw [List.range_zero, List.foldl_nil, if_neg (by omega)]
  | succ n ih =>
    rw [List.range_succ, List.foldl_append, List.foldl_cons, List.foldl_nil]
    show Function.update _ (base + n) _ i = _
    rw [Function.update_apply, ih]
    by_cases hi : i = base + n
    · rw [if_pos hi, if_pos (by omega)]
    · rw [if_neg hi]
      exact if_congr (by omega) rfl rfl

theorem cgaScrup_crtBuf (s : Cga) {i : ℕ} (hi : i < CRT_ROWS * CRT_COLS) :
    s.cgaScrup.crtBuf i =
      if i < (CRT_ROWS - 1) * CRT_COLS then s.crtBuf (CRT_COLS + i) else CRT_ERASE_CHAR := by
  rw [cgaScrup]
  simp only [setPos]
  rw [clear_crtBuf, shift_crtBuf]
  unfold CRT_ROWS CRT_COLS at *
  split_ifs <;> first | rfl | omega

/-! ## One character -/

theorem Shows.crtPos_lt (h : s.Shows r) : s.crtPos.toNat < CRT_ROWS * CRT_COLS := by
  have hhigh := h.window.high
  rw [h.pos, Nat.add_mul] at hhigh
  omega

/-- The cursor at the start of its line. -/
theorem Shows.carriageReturn (h : s.Shows r) : s.carriageReturn.Shows (r.ret CRT_COLS) := by
  refine ⟨h.window.ret, h.cells, ?_⟩
  have hcols : 0 < CRT_COLS := by decide
  show r.pos / CRT_COLS * CRT_COLS = r.top * CRT_COLS + s.carriageReturn.crtPos.toNat
  rw [carriageReturn_crtPos, h.pos, Nat.add_comm (r.top * CRT_COLS),
    Nat.add_mul_div_right _ _ hcols, Nat.add_mul, Nat.add_comm]
  congr 1
  have hdiv := Nat.div_add_mod' s.crtPos.toNat CRT_COLS
  omega

/-- The cursor one line down: in the last line the screen scrolls, as the window moves. -/
theorem Shows.feed (h : s.Shows r) :
    (if CRT_ROWS ≤ (s.setPos (s.crtPos + BitVec.ofNat 16 CRT_COLS)).crtPos.toNat / CRT_COLS then
      (s.setPos (s.crtPos + BitVec.ofNat 16 CRT_COLS)).cgaScrup
    else s.setPos (s.crtPos + BitVec.ofNat 16 CRT_COLS)).Shows
      (r.feed CRT_ROWS CRT_COLS CRT_ERASE_CHAR) := by
  have hcur := h.crtPos_lt
  have hpos := h.pos
  have hcols : 0 < CRT_COLS := by decide
  have hadd : (s.crtPos + BitVec.ofNat 16 CRT_COLS).toNat = s.crtPos.toNat + CRT_COLS := by
    unfold CRT_ROWS CRT_COLS at *
    rw [BitVec.toNat_add, BitVec.toNat_ofNat]
    omega
  have hiff : CRT_ROWS ≤ (s.setPos (s.crtPos + BitVec.ofNat 16 CRT_COLS)).crtPos.toNat / CRT_COLS ↔
      (r.top + CRT_ROWS) * CRT_COLS ≤ r.pos + CRT_COLS := by
    show CRT_ROWS ≤ (s.crtPos + BitVec.ofNat 16 CRT_COLS).toNat / CRT_COLS ↔ _
    rw [hadd, Nat.le_div_iff_mul_le hcols, hpos, Nat.add_mul]
    omega
  have hwindow : (r.feed CRT_ROWS CRT_COLS CRT_ERASE_CHAR).InWindow CRT_ROWS CRT_COLS :=
    h.window.feed
  rw [Roll.feed] at hwindow ⊢
  by_cases hlast : (r.top + CRT_ROWS) * CRT_COLS ≤ r.pos + CRT_COLS
  · rw [if_pos (hiff.mpr hlast)]
    rw [if_pos hlast] at hwindow ⊢
    refine ⟨hwindow, fun i hi => ?_, ?_⟩
    · -- the blank line of the roll is the one that `cga_scrup` clears
      have hdiv : ((r.top + 1) * CRT_COLS + i) / CRT_COLS = r.top + 1 + i / CRT_COLS := by
        rw [Nat.add_comm, Nat.add_mul_div_right _ _ hcols, Nat.add_comm]
      rw [cgaScrup_crtBuf _ hi]
      show _ = if ((r.top + 1) * CRT_COLS + i) / CRT_COLS = r.top + CRT_ROWS then CRT_ERASE_CHAR
        else r.cells ((r.top + 1) * CRT_COLS + i)
      rw [hdiv, Nat.add_mul, Nat.one_mul, Nat.add_assoc (r.top * CRT_COLS)]
      by_cases hrow : i < (CRT_ROWS - 1) * CRT_COLS
      · have hdiv' : i / CRT_COLS < CRT_ROWS - 1 := (Nat.div_lt_iff_lt_mul hcols).mpr hrow
        rw [if_pos hrow, if_neg (by unfold CRT_ROWS at *; omega)]
        exact h.cells (CRT_COLS + i) (by unfold CRT_ROWS CRT_COLS at *; omega)
      · have hdiv' : i / CRT_COLS < CRT_ROWS := (Nat.div_lt_iff_lt_mul hcols).mpr hi
        have hge : CRT_ROWS - 1 ≤ i / CRT_COLS :=
          (Nat.le_div_iff_mul_le hcols).mpr (not_lt.mp hrow)
        rw [if_neg hrow, if_pos (by unfold CRT_ROWS at *; omega)]
    · rw [cgaScrup_crtPos]
      show r.pos + CRT_COLS = (r.top + 1) * CRT_COLS +
        (s.crtPos + BitVec.ofNat 16 CRT_COLS - BitVec.ofNat 16 CRT_COLS).toNat
      rw [BitVec.add_sub_cancel, hpos, Nat.add_mul]
      omega
  · rw [if_neg fun hh => hlast (hiff.mp hh)]
    rw [if_neg hlast] at hwindow ⊢
    refine ⟨hwindow, h.cells, ?_⟩
    show r.pos + CRT_COLS = r.top * CRT_COLS + (s.crtPos + BitVec.ofNat 16 CRT_COLS).toNat
    rw [hadd, hpos, Nat.add_assoc]

/-- A cell of the screen is a cell of the window. -/
theorem Shows.store (h : s.Shows r) {i : ℕ} (v : BitVec 16) :
    ∀ j < CRT_ROWS * CRT_COLS, (s.store i v).crtBuf j =
      Function.update r.cells (r.top * CRT_COLS + i) v (r.top * CRT_COLS + j) := by
  intro j hj
  show Function.update s.crtBuf i v j = _
  rw [Function.update_apply, Function.update_apply, h.cells j hj]
  exact if_congr (by omega) rfl rfl

theorem Shows.back (h : s.Shows r) (v : BitVec 16) :
    (if 0#16 < s.crtPos then
      (s.setPos (s.crtPos - 1#16)).store (s.crtPos - 1#16).toNat v
    else s).Shows (r.step CRT_ROWS CRT_COLS CRT_ERASE_CHAR (.back v)) := by
  have hpos := h.pos
  have hiff : 0#16 < s.crtPos ↔ r.top * CRT_COLS < r.pos := by
    rw [BitVec.lt_def, hpos]
    show 0 < s.crtPos.toNat ↔ _
    omega
  have hwindow : (r.step CRT_ROWS CRT_COLS CRT_ERASE_CHAR (.back v)).InWindow CRT_ROWS CRT_COLS :=
    h.window.step fun hh => by simp [Roll.Overruns] at hh
  rw [Roll.step] at hwindow ⊢
  by_cases hlt : r.top * CRT_COLS < r.pos
  · rw [if_pos (hiff.mpr hlt)]
    rw [if_pos hlt] at hwindow ⊢
    have hsub : (s.crtPos - 1#16).toNat = s.crtPos.toNat - 1 := by
      have hone : 1#16 ≤ s.crtPos := BitVec.le_def.mpr (BitVec.lt_def.mp (hiff.mpr hlt))
      rw [BitVec.toNat_sub_of_le hone]
      rfl
    have hcell : r.pos - 1 = r.top * CRT_COLS + (s.crtPos - 1#16).toNat := by omega
    refine ⟨hwindow, fun j hj => ?_, hcell⟩
    show _ = Function.update r.cells (r.pos - 1) v (r.top * CRT_COLS + j)
    rw [hcell]
    exact h.store v j hj
  · rw [if_neg fun hh => hlt (hiff.mp hh), if_neg hlt]
    exact h

theorem Shows.write (h : s.Shows r) (v : BitVec 16)
    (hno : ¬ r.Overruns CRT_ROWS CRT_COLS (.write v)) :
    ((s.store s.crtPos.toNat v).setPos (s.crtPos + 1#16)).Shows
      (r.step CRT_ROWS CRT_COLS CRT_ERASE_CHAR (.write v)) := by
  have hpos := h.pos
  have hcur := h.crtPos_lt
  have hadd : (s.crtPos + 1#16).toNat = s.crtPos.toNat + 1 := by
    unfold CRT_ROWS CRT_COLS at hcur
    rw [BitVec.toNat_add, show (1#16).toNat = 1 from rfl]
    omega
  refine ⟨h.window.step hno, fun j hj => ?_, ?_⟩
  · show _ = Function.update r.cells r.pos v (r.top * CRT_COLS + j)
    rw [hpos]
    exact h.store v j hj
  · show r.pos + 1 = r.top * CRT_COLS + (s.crtPos + 1#16).toNat
    rw [hadd, hpos, Nat.add_assoc]

/-- `cur_update` changes no cell. -/
theorem Shows.curUpdate (h : s.Shows r) : s.curUpdate.Shows r := ⟨h.window, h.cells, h.pos⟩

theorem Shows.cgaPutc (h : s.Shows r) (c : Word)
    (hno : ¬ r.Overruns CRT_ROWS CRT_COLS (key c)) :
    (s.cgaPutc c).Shows (r.step CRT_ROWS CRT_COLS CRT_ERASE_CHAR (key c)) := by
  rw [Cga.cgaPutc]
  apply Shows.curUpdate
  simp only [or_attribute]
  rw [key] at hno ⊢
  by_cases hb : c &&& 0xFF#32 = 0x08#32
  · rw [if_pos hb, if_pos hb]
    exact h.back _
  rw [if_neg hb] at hno ⊢
  rw [if_neg hb]
  by_cases hn : c &&& 0xFF#32 = 0x0A#32
  · rw [if_pos hn, if_pos hn]
    exact h.feed.carriageReturn
  rw [if_neg hn] at hno ⊢
  rw [if_neg hn]
  by_cases hr : c &&& 0xFF#32 = 0x0D#32
  · rw [if_pos hr, if_pos hr]
    exact h.carriageReturn
  rw [if_neg hr] at hno ⊢
  rw [if_neg hr]
  exact h.write _ hno

/-! ## The cursor -/

theorem outbReg_crtc (s : Cga) (reg v reg' : Byte) :
    (s.outbReg reg v).crtc reg' = if reg' = reg then v else s.crtc reg' :=
  Function.update_apply ..

theorem curUpdate_synced (s : Cga) : s.curUpdate.Synced := by
  rw [Synced, curUpdate, outbReg_crtc, outbReg_crtc, outbReg_crtc, if_neg (by decide), if_pos rfl,
    if_pos rfl]
  exact ⟨rfl, rfl⟩

/-- `cga_init` reads the cursor back. -/
theorem Synced.cgaInit (h : s.Synced) : s.cgaInit = s := by
  have hpos : ((s.crtPos >>> 8).setWidth 8).setWidth 16 <<< 8 |||
      (s.crtPos.setWidth 8).setWidth 16 = s.crtPos := by
    apply BitVec.eq_of_getLsbD_eq
    intro i hi
    simp only [BitVec.getLsbD_or, BitVec.getLsbD_shiftLeft, BitVec.getLsbD_setWidth,
      BitVec.getLsbD_ushiftRight]
    by_cases hlow : i < 8
    · simp [hlow, hi]
    · have hlt : i - 8 < 8 := by omega
      have hlt' : i - 8 < 16 := by omega
      have hle : 8 + (i - 8) = i := by omega
      simp [hlow, hi, hlt, hlt', hle]
  show s.setPos (((s.crtc _).setWidth 16 <<< 8) ||| (s.crtc _).setWidth 16) = s
  rw [h.1, h.2, hpos]
  rfl

/-- A screen with the cursor on it, as the start of a roll. -/
theorem shows_roll (h : s.crtPos.toNat < CRT_ROWS * CRT_COLS) :
    s.Shows ⟨s.crtBuf, s.crtPos.toNat, 0⟩ := by
  refine ⟨⟨Nat.zero_le _, ?_⟩, fun i _ => ?_, ?_⟩
  · show s.crtPos.toNat < (0 + CRT_ROWS) * CRT_COLS
    rwa [Nat.zero_add]
  · show s.crtBuf i = s.crtBuf (0 * CRT_COLS + i)
    rw [Nat.zero_mul, Nat.zero_add]
  · show s.crtPos.toNat = 0 * CRT_COLS + s.crtPos.toNat
    rw [Nat.zero_mul, Nat.zero_add]

/-! ## Texts -/

theorem Shows.run {text : List Word} (h : s.Shows r)
    (hfits : Roll.Fits CRT_ROWS CRT_COLS CRT_ERASE_CHAR r (text.map key)) :
    (text.foldl Cga.cgaPutc s).Shows
      (r.run CRT_ROWS CRT_COLS CRT_ERASE_CHAR (text.map key)) := by
  induction text generalizing s r with
  | nil => exact h
  | cons c text ih => exact ih (h.cgaPutc c hfits.1) hfits.2

theorem Synced.run (h : s.Synced) (text : List Word) : (text.foldl Cga.cgaPutc s).Synced := by
  induction text generalizing s with
  | nil => exact h
  | cons c text ih => exact ih (curUpdate_synced _)

/-- A character that is written. -/
theorem key_of_written (h : Written c) : key c = .write (cell c) := by
  rw [key, if_neg h.1, if_neg h.2.1, if_neg h.2.2]

end Steps
end Cga

namespace Console

section Texts
variable {s : Console} {r : Roll (BitVec 16)}

theorem foldl_cga (s : Console) (text : List Word) :
    (text.foldl consPutc s).cga = text.foldl Cga.cgaPutc s.cga := by
  induction text generalizing s with
  | nil => rfl
  | cons c text ih => exact ih _

theorem foldl_debug (s : Console) (text : List Word) :
    (text.foldl consPutc s).debug = (text.map (BitVec.setWidth 8)).reverse ++ s.debug := by
  induction text generalizing s with
  | nil => rfl
  | cons c text ih =>
    rw [List.foldl_cons, ih, List.map_cons, List.reverse_cons, List.append_assoc]
    rfl

/-- After any text that writes nothing to the last cell of the screen, the screen is the window of
the roll that the text was printed on, `cga_init` would find the cursor, the debug port was given
the text, and the roll still has what has left the window. -/
theorem consPutc_shows_roll (h : s.cga.Shows r) (hsync : s.cga.Synced) {text : List Word}
    (hfits : Roll.Fits CRT_ROWS CRT_COLS CRT_ERASE_CHAR r (text.map Cga.key)) :
    (text.foldl consPutc s).cga.Shows
        (r.run CRT_ROWS CRT_COLS CRT_ERASE_CHAR (text.map Cga.key)) ∧
      (text.foldl consPutc s).cga.cgaInit = (text.foldl consPutc s).cga ∧
      (text.foldl consPutc s).debug = (text.map (BitVec.setWidth 8)).reverse ++ s.debug ∧
      ∀ i < r.top * CRT_COLS,
        (r.run CRT_ROWS CRT_COLS CRT_ERASE_CHAR (text.map Cga.key)).cells i = r.cells i := by
  rw [foldl_cga]
  exact ⟨h.run hfits, (hsync.run text).cgaInit, foldl_debug s text,
    fun i hi => Roll.run_above h.window hfits hi⟩

/-- A newline in the last line of the screen. -/
def scrolledText : List Word := [0x41#32, 0x0A#32, 0x42#32]

theorem consPutc_shows_roll_scrolled :
    (scrolledText.foldl consPutc ⟨(Cga.lastLine 0).curUpdate, []⟩).cga.Shows
        (Roll.run CRT_ROWS CRT_COLS CRT_ERASE_CHAR
          ⟨(Cga.lastLine 0).crtBuf, (Cga.lastLine 0).crtPos.toNat, 0⟩
          (scrolledText.map Cga.key)) ∧
      (scrolledText.foldl consPutc ⟨(Cga.lastLine 0).curUpdate, []⟩).debug =
        [0x42#8, 0x0A#8, 0x41#8] := by
  have hcur : (Cga.lastLine 0).crtPos.toNat < CRT_ROWS * CRT_COLS :=
    (Cga.lastLine_onScreen (by decide)).crtPos
  let s : Console := ⟨(Cga.lastLine 0).curUpdate, []⟩
  let r : Roll (BitVec 16) := ⟨(Cga.lastLine 0).crtBuf, (Cga.lastLine 0).crtPos.toNat, 0⟩
  have hshows : s.cga.Shows r := (Cga.shows_roll hcur).curUpdate
  have hsync : s.cga.Synced := Cga.curUpdate_synced _
  have hfits : Roll.Fits CRT_ROWS CRT_COLS CRT_ERASE_CHAR r (scrolledText.map Cga.key) :=
    ⟨fun hh => absurd hh.2 (by decide), fun hh => absurd hh.2 (by decide),
      fun hh => absurd hh.2 (by decide), trivial⟩
  obtain ⟨ht, -, hdebug, -⟩ := consPutc_shows_roll hshows hsync hfits
  exact ⟨ht, hdebug⟩

/-- The text of some lines, with their newlines. -/
def lineText (lines : List (List Word)) : List Word := lines.flatMap (· ++ [0x0A#32])

theorem map_lineText {lines : List (List Word)} (h : ∀ l ∈ lines, ∀ c ∈ l, Cga.Written c) :
    (lineText lines).map Cga.key = (lines.map (List.map Cga.cell)).flatMap Roll.line := by
  induction lines with
  | nil => rfl
  | cons l lines ih =>
    have hl : l.map Cga.key = (l.map Cga.cell).map Key.write := by
      rw [List.map_map]
      apply List.map_congr_left
      exact fun c hc => Cga.key_of_written (h l List.mem_cons_self c hc)
    have hrest := ih fun l' hl' => h l' (List.mem_cons_of_mem l hl')
    rw [lineText] at hrest ⊢
    rw [List.flatMap_cons, List.map_append, List.map_append, hl, hrest]
    rfl

/-- Lines of fewer than 80 characters are printed from the start of a line. Then every line but
those that are more than 24 lines up is on the screen, above the cursor and below the line before
it. -/
theorem consPutc_shows_lines (h : s.cga.crtPos.toNat < CRT_ROWS * CRT_COLS)
    (hcol : s.cga.crtPos.toNat % CRT_COLS = 0) {lines : List (List Word)}
    (hlines : ∀ l ∈ lines, l.length < CRT_COLS ∧ ∀ c ∈ l, Cga.Written c) {k : ℕ} {l : List Word}
    (hk : lines[k]? = some l) (hlast : lines.length < k + CRT_ROWS) :
    ((lineText lines).foldl consPutc s).cga.crtPos.toNat % CRT_COLS = 0 ∧
      ∃ row, row + (lines.length - k) =
          ((lineText lines).foldl consPutc s).cga.crtPos.toNat / CRT_COLS ∧
        ∀ i c, l[i]? = some c →
          ((lineText lines).foldl consPutc s).cga.crtBuf (row * CRT_COLS + i) = Cga.cell c := by
  have hcols : 0 < CRT_COLS := by decide
  have hshows := Cga.shows_roll h
  have hstart : s.cga.crtPos.toNat = s.cga.crtPos.toNat / CRT_COLS * CRT_COLS := by
    rw [← Nat.div_add_mod' s.cga.crtPos.toNat CRT_COLS, hcol, Nat.add_zero,
      Nat.mul_div_cancel _ hcols]
  have hshort : ∀ l ∈ lines.map (List.map Cga.cell), l.length < CRT_COLS := by
    intro l hl
    obtain ⟨l', hl', rfl⟩ := List.mem_map.mp hl
    rw [List.length_map]
    exact (hlines l' hl').1
  obtain ⟨hfits, hpos, htop, htext, -⟩ := Roll.run_lines hshows.window hstart hshort
  rw [← map_lineText fun l hl => (hlines l hl).2] at hfits hpos htop htext
  have hend := hshows.run hfits
  rw [foldl_cga]
  rw [List.length_map] at hpos htop
  have hpos' := hend.pos
  have hcur := hend.crtPos_lt
  have hcells := hend.cells
  generalize (lineText lines).foldl Cga.cgaPutc s.cga = t at *
  generalize Roll.run CRT_ROWS CRT_COLS CRT_ERASE_CHAR _ _ = r' at *
  generalize s.cga.crtPos.toNat / CRT_COLS = first at *
  have hkn := (List.getElem?_eq_some_iff.mp hk).1
  -- the window is not below line `k`
  have htop' : r'.top ≤ first + k := by
    have htop0 : r'.top ≤ max 0 (first + lines.length + 1 - CRT_ROWS) := htop
    omega
  obtain ⟨row, hrow⟩ : ∃ row, first + k = r'.top + row := Nat.exists_eq_add_of_le htop'
  have hlast' : t.crtPos.toNat = (row + (lines.length - k)) * CRT_COLS := by
    have hsum : first + lines.length = r'.top + (row + (lines.length - k)) := by omega
    rw [hpos, hsum, Nat.add_mul] at hpos'
    exact (Nat.add_left_cancel hpos').symm
  have hlow : row + (lines.length - k) < CRT_ROWS := by
    rw [hlast'] at hcur
    exact Nat.lt_of_mul_lt_mul_right hcur
  refine ⟨by rw [hlast', Nat.mul_mod_left], row, ?_, fun i c hi => ?_⟩
  · rw [hlast', Nat.mul_div_cancel _ hcols]
  · have hil : i < CRT_COLS :=
      (List.getElem?_eq_some_iff.mp hi).1.trans (hlines l (List.mem_of_getElem? hk)).1
    have hin : row * CRT_COLS + i < CRT_ROWS * CRT_COLS := by
      have hle := Nat.mul_le_mul_right CRT_COLS (show row + 1 ≤ CRT_ROWS by omega)
      rw [Nat.add_mul] at hle
      omega
    rw [hcells _ hin, ← Nat.add_assoc, ← Nat.add_mul, ← hrow]
    exact htext k (l.map Cga.cell) (by rw [List.getElem?_map, hk]; rfl) i _
      (by rw [List.getElem?_map, hi]; rfl)

/-- A line that is printed in the last line of the screen is above the cursor afterwards. -/
theorem consPutc_shows_lines_scrolled : ∃ row,
    row + 1 = ((lineText [[0x41#32]]).foldl consPutc ⟨Cga.lastLine 0, []⟩).cga.crtPos.toNat /
      CRT_COLS ∧
    ((lineText [[0x41#32]]).foldl consPutc ⟨Cga.lastLine 0, []⟩).cga.crtBuf (row * CRT_COLS) =
      0x0741#16 := by
  have hlines : ∀ l ∈ ([[0x41#32]] : List (List Word)),
      l.length < CRT_COLS ∧ ∀ c ∈ l, Cga.Written c := by
    simp [Cga.Written, CRT_COLS]
  have hk : ([[0x41#32]] : List (List Word))[0]? = some [0x41#32] := rfl
  have hcur : (⟨Cga.lastLine 0, []⟩ : Console).cga.crtPos.toNat < CRT_ROWS * CRT_COLS :=
    (Cga.lastLine_onScreen (by decide)).crtPos
  obtain ⟨-, row, hrow, hcells⟩ := consPutc_shows_lines hcur (by decide) hlines hk (by decide)
  exact ⟨row, hrow, hcells 0 0x41#32 rfl⟩

end Texts
end Console
end Zonix
