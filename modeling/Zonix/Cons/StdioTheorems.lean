import Zonix.Cons.Stdio
import Mathlib.Tactic.IntervalCases
import Mathlib.Tactic.Ring

/-!
# What `cprintf` prints

The two-step division of `do_div` is exact, and so the digits are those of the numeral. What differs
from the reference of `printf` is the width: a 0 among its digits is taken for the flag, and an
`int` cannot hold every width.
-/

namespace Zonix
open Lib.Format

/-! ## `do_div` -/

section
variable {n : BitVec 64} {base : Word}

/-- Long division, with digits of 32 bits. -/
theorem two_step (H L : ℕ) {b : ℕ} (hb : 0 < b) :
    (H * 2 ^ 32 + L) / b = H / b * 2 ^ 32 + (H % b * 2 ^ 32 + L) / b ∧
      (H * 2 ^ 32 + L) % b = (H % b * 2 ^ 32 + L) % b := by
  have hsplit : H * 2 ^ 32 + L = H % b * 2 ^ 32 + L + b * (H / b * 2 ^ 32) := by
    calc H * 2 ^ 32 + L = (H % b + b * (H / b)) * 2 ^ 32 + L := by rw [Nat.mod_add_div]
      _ = H % b * 2 ^ 32 + L + b * (H / b * 2 ^ 32) := by ring
  rw [hsplit, Nat.add_mul_div_left _ _ hb, Nat.add_mul_mod_self_left, Nat.add_comm]
  exact ⟨rfl, rfl⟩

theorem append_toNat {v w : ℕ} (x : BitVec v) (y : BitVec w) :
    (x ++ y).toNat = x.toNat * 2 ^ w + y.toNat := by
  rw [BitVec.toNat_append, ← Nat.shiftLeft_add_eq_or_of_lt y.isLt, Nat.shiftLeft_eq]

/-- The quotient fits when the upper half is less than the divisor. -/
theorem divl_eq {high base : Word} (low : Word) (h : high.toNat < base.toNat) :
    divl high low base =
      some (BitVec.ofNat 32 ((high.toNat * 2 ^ 32 + low.toNat) / base.toNat),
        BitVec.ofNat 32 ((high.toNat * 2 ^ 32 + low.toNat) % base.toNat)) ∧
      (high.toNat * 2 ^ 32 + low.toNat) / base.toNat < 2 ^ 32 := by
  have hfits : (high.toNat * 2 ^ 32 + low.toNat) / base.toNat < 2 ^ 32 := by
    have hlow := low.isLt
    apply Nat.div_lt_of_lt_mul
    calc high.toNat * 2 ^ 32 + low.toNat
        < (high.toNat + 1) * 2 ^ 32 := by omega
      _ ≤ base.toNat * 2 ^ 32 := Nat.mul_le_mul_right _ h
  have hbase : base ≠ 0#32 := by
    rintro rfl
    exact absurd h (Nat.not_lt_zero _)
  unfold divl
  rw [append_toNat, if_neg (by simp only [hbase, false_or, not_le]; exact hfits)]
  exact ⟨rfl, hfits⟩

/-- The upper half is reduced first; where it is 0 there is nothing to reduce. -/
theorem doDiv_high (high base : Word) :
    (if high ≠ 0#32 then high % base else high) = high % base ∧
      (if high ≠ 0#32 then high / base else high) = high / base := by
  split_ifs with hzero
  · exact ⟨rfl, rfl⟩
  · rw [not_not.mp hzero, BitVec.zero_umod, BitVec.zero_udiv]
    exact ⟨rfl, rfl⟩

theorem doDiv_eq (hb : 0 < base.toNat) :
    doDiv n base =
      some (BitVec.ofNat 64 (n.toNat / base.toNat), BitVec.ofNat 32 (n.toNat % base.toNat)) := by
  let low := n.extractLsb' 0 32
  let high := n.extractLsb' 32 32
  have hn : n.toNat = high.toNat * 2 ^ 32 + low.toNat := by
    show n.toNat = (n.extractLsb' 32 32).toNat * 2 ^ 32 + (n.extractLsb' 0 32).toNat
    have hlt := n.isLt
    rw [BitVec.extractLsb'_toNat, BitVec.extractLsb'_toNat, Nat.shiftRight_zero,
      Nat.shiftRight_eq_div_pow]
    omega
  obtain ⟨hupper, hquot⟩ := doDiv_high high base
  obtain ⟨hdiv, hmod⟩ := two_step high.toNat low.toNat hb
  have hreduced : (high % base).toNat < base.toNat := by
    rw [BitVec.toNat_umod]
    exact Nat.mod_lt _ hb
  obtain ⟨hdivl, hfits⟩ := divl_eq low hreduced
  rw [BitVec.toNat_umod, ← hmod, ← hn] at hdivl
  rw [BitVec.toNat_umod] at hfits
  have hjoin : high / base ++ BitVec.ofNat 32
      ((high.toNat % base.toNat * 2 ^ 32 + low.toNat) / base.toNat) =
      BitVec.ofNat 64 (n.toNat / base.toNat) := by
    apply BitVec.eq_of_toNat_eq
    rw [append_toNat, BitVec.toNat_udiv, BitVec.toNat_ofNat, BitVec.toNat_ofNat,
      Nat.mod_eq_of_lt hfits, ← hdiv, ← hn, Nat.mod_eq_of_lt]
    exact lt_of_le_of_lt (Nat.div_le_self _ _) n.isLt
  show (divl (if high ≠ 0#32 then high % base else high) low base).bind _ = _
  rw [hupper, hdivl, Option.bind_some]
  show some ((if high ≠ 0#32 then high / base else high) ++ _, _) = _
  rw [hquot, hjoin]

/-! ## Digits -/

theorem digitChar_eq {d : ℕ} (hd : d < 2 ^ 32) : digitChar (BitVec.ofNat 32 d) = digit d := by
  have hlt : BitVec.ofNat 32 d < 10#32 ↔ d < 10 := by
    rw [BitVec.lt_def, BitVec.toNat_ofNat, BitVec.toNat_ofNat]
    omega
  unfold digitChar digit
  simp only [hlt]
  split_ifs with hten
  · apply BitVec.eq_of_toNat_eq
    rw [BitVec.toNat_setWidth, BitVec.toNat_add, BitVec.toNat_ofNat, BitVec.toNat_ofNat,
      BitVec.toNat_ofNat]
    omega
  · apply BitVec.eq_of_toNat_eq
    rw [BitVec.toNat_setWidth, BitVec.toNat_sub, BitVec.toNat_add, BitVec.toNat_ofNat,
      BitVec.toNat_ofNat, BitVec.toNat_ofNat, BitVec.toNat_ofNat]
    omega

end

section
variable {base : Word} {num : BitVec 64} {fuel : ℕ}

/-- `num >= base` -/
theorem base_le_iff (hb : base.toNat < 2 ^ 31) :
    base.signExtend 64 ≤ num ↔ base.toNat ≤ num.toNat := by
  have hmsb : base.msb = false := by
    rw [BitVec.msb_eq_decide, decide_eq_false_iff_not]
    omega
  have hext : (base.signExtend 64).toNat = base.toNat := by
    rw [BitVec.signExtend_eq_setWidth_of_msb_false hmsb, BitVec.toNat_setWidth]
    omega
  rw [BitVec.le_def, hext]

/-- The quotient, as a number of 64 bits. -/
theorem quotient_toNat :
    (BitVec.ofNat 64 (num.toNat / base.toNat)).toNat = num.toNat / base.toNat := by
  rw [BitVec.toNat_ofNat, Nat.mod_eq_of_lt]
  exact lt_of_le_of_lt (Nat.div_le_self _ _) num.isLt

theorem numDigitsLoop_eq (hb : 1 < base.toNat) (digits : Word)
    (hfuel : (base.toNat.digits num.toNat).length < fuel) :
    numDigitsLoop base fuel num digits =
      some (digits + BitVec.ofNat 32 (base.toNat.digits num.toNat).length) := by
  induction fuel generalizing num digits with
  | zero => exact absurd hfuel (Nat.not_lt_zero _)
  | succ fuel ih =>
    unfold numDigitsLoop
    have hpos : 0#64 < num ↔ num.toNat ≠ 0 := by
      rw [BitVec.lt_def, BitVec.toNat_ofNat]
      omega
    by_cases hzero : num.toNat = 0
    · rw [if_neg (by rw [hpos]; exact not_not_intro hzero), hzero, Nat.digits_zero]
      simp
    · have hdigits := Nat.digits_eq_cons_digits_div hb hzero
      rw [hdigits, List.length_cons] at hfuel
      rw [if_pos (hpos.mpr hzero), doDiv_eq (by omega), hdigits, List.length_cons]
      show numDigitsLoop base fuel (BitVec.ofNat 64 (num.toNat / base.toNat)) (digits + 1#32) = _
      rw [ih _ (by rw [quotient_toNat]; omega), quotient_toNat, BitVec.add_assoc,
        ← BitVec.ofNat_add, Nat.add_comm 1]

theorem numeral_fits (hb : 1 < base.toNat) (num : BitVec 64) :
    (numeral base.toNat num.toNat).length ≤ 64 := by
  apply numeral_length_le hb (by omega)
  calc num.toNat < 2 ^ 64 := num.isLt
    _ ≤ base.toNat ^ 64 := Nat.pow_le_pow_left hb 64

theorem getNumDigits_eq (hb : 1 < base.toNat) (hfuel : 64 < fuel) :
    getNumDigits fuel num base = some (BitVec.ofNat 32 (numeral base.toNat num.toNat).length) := by
  have hfits := numeral_fits hb num
  unfold getNumDigits
  by_cases hzero : num = 0#64
  · rw [if_pos hzero, hzero]
    rfl
  · have hnat : num.toNat ≠ 0 := fun h => hzero (BitVec.eq_of_toNat_eq h)
    have hlength :
        (numeral base.toNat num.toNat).length = (base.toNat.digits num.toNat).length := by
      rw [numeral, if_neg hnat, List.length_map, List.length_reverse]
    rw [if_neg hzero, numDigitsLoop_eq hb _ (by omega), hlength, BitVec.zero_add]

/-- The digit of the remainder. -/
theorem digitChar_mod (hb : base.toNat < 2 ^ 31) (hpos : 0 < base.toNat) :
    digitChar (BitVec.ofNat 32 (num.toNat % base.toNat)) = digit (num.toNat % base.toNat) := by
  have hlt := Nat.mod_lt num.toNat hpos
  exact digitChar_eq (by omega)

theorem printDigitNoPad_eq (hb : 1 < base.toNat) (hb' : base.toNat < 2 ^ 31)
    (hfuel : (numeral base.toNat num.toNat).length ≤ fuel) :
    printDigitNoPad base fuel num = some (numeral base.toNat num.toNat) := by
  induction fuel generalizing num with
  | zero =>
    have hpos := numeral_length_pos base.toNat num.toNat
    omega
  | succ fuel ih =>
    unfold printDigitNoPad
    by_cases hle : base.toNat ≤ num.toNat
    · have hstep := numeral_of_le hb hle
      rw [hstep, List.length_append, List.length_singleton] at hfuel
      have hrest := @ih (BitVec.ofNat 64 (num.toNat / base.toNat))
        (by rw [quotient_toNat]; omega)
      rw [quotient_toNat] at hrest
      rw [if_pos ((base_le_iff hb').mpr hle), doDiv_eq (by omega), hstep]
      show (printDigitNoPad base fuel (BitVec.ofNat 64 (num.toNat / base.toNat))).bind _ = _
      rw [hrest, Option.bind_some, digitChar_mod hb' (by omega)]
    · have hlow : num.setWidth 32 = BitVec.ofNat 32 num.toNat := rfl
      rw [if_neg (fun h => hle ((base_le_iff hb').mp h)), numeral_of_lt (not_le.mp hle), hlow,
        digitChar_eq (by omega)]

/-- Each digit takes one from the width. -/
theorem printDigit_eq (padc : BitVec 8) (width : Word) (hb : 1 < base.toNat)
    (hb' : base.toNat < 2 ^ 31) (hfuel : (numeral base.toNat num.toNat).length ≤ fuel) :
    printDigit base padc fuel num width = some (padWhile padc
      (width - BitVec.ofNat 32 ((numeral base.toNat num.toNat).length - 1)) ++
        numeral base.toNat num.toNat) := by
  induction fuel generalizing num width with
  | zero =>
    have hpos := numeral_length_pos base.toNat num.toNat
    omega
  | succ fuel ih =>
    unfold printDigit
    by_cases hle : base.toNat ≤ num.toNat
    · have hstep := numeral_of_le hb hle
      have hpos := numeral_length_pos base.toNat (num.toNat / base.toNat)
      rw [hstep, List.length_append, List.length_singleton] at hfuel
      have hrest := @ih (BitVec.ofNat 64 (num.toNat / base.toNat)) (width - 1#32)
        (by rw [quotient_toNat]; omega)
      rw [quotient_toNat] at hrest
      have hwidth : width - 1#32 -
          BitVec.ofNat 32 ((numeral base.toNat (num.toNat / base.toNat)).length - 1) =
          width - BitVec.ofNat 32 (numeral base.toNat (num.toNat / base.toNat)).length := by
        apply BitVec.eq_of_toNat_eq
        rw [BitVec.toNat_sub, BitVec.toNat_sub, BitVec.toNat_sub, BitVec.toNat_ofNat,
          BitVec.toNat_ofNat, BitVec.toNat_ofNat]
        omega
      rw [if_pos ((base_le_iff hb').mpr hle), doDiv_eq (by omega), hstep, List.length_append,
        List.length_singleton, Nat.add_sub_cancel, ← hwidth]
      show (printDigit base padc fuel (BitVec.ofNat 64 (num.toNat / base.toNat))
        (width - 1#32)).bind _ = _
      rw [hrest, Option.bind_some, digitChar_mod hb' (by omega), List.append_assoc]
    · have hlow : num.setWidth 32 = BitVec.ofNat 32 num.toNat := rfl
      rw [if_neg (fun h => hle ((base_le_iff hb').mp h)), numeral_of_lt (not_le.mp hle), hlow,
        digitChar_eq (by omega), List.length_singleton, Nat.sub_self, BitVec.sub_zero]

end

/-! ## Padding -/

section
variable {padc : BitVec 8}

theorem padFor_eq (i width : Word) :
    padFor padc i width = List.replicate (width.toInt - i.toInt).toNat padc := by
  fun_induction padFor padc i width with
  | case1 i hlt ih =>
    rw [BitVec.slt_iff_toInt_lt] at hlt
    have hnext : (i + 1#32).toInt = i.toInt + 1 := by
      have hone : (1#32).toInt = 1 := rfl
      have hmax := BitVec.toInt_lt (x := width)
      have hmin := BitVec.le_toInt i
      rw [BitVec.toInt_add, hone, Int.bmod_eq_of_le] <;> omega
    have hcount : (width.toInt - i.toInt).toNat = (width.toInt - (i + 1#32).toInt).toNat + 1 := by
      omega
    rw [ih, hcount, List.replicate_succ]
  | case2 i hlt =>
    rw [BitVec.slt_iff_toInt_lt] at hlt
    have hcount : (width.toInt - i.toInt).toNat = 0 := by omega
    rw [hcount, List.replicate_zero]

theorem padWhile_eq (width : Word) :
    padWhile padc width = List.replicate (width - 1#32).toInt.toNat padc := by
  have hzero : (0#32).toInt = 0 := rfl
  fun_induction padWhile padc width with
  | case1 width hlt ih =>
    rw [BitVec.slt_iff_toInt_lt, hzero] at hlt
    have hnext : (width - 1#32 - 1#32).toInt = (width - 1#32).toInt - 1 := by
      have hone : (1#32).toInt = 1 := rfl
      have hmax := BitVec.toInt_lt (x := width - 1#32)
      rw [BitVec.toInt_sub, hone, Int.bmod_eq_of_le] <;> omega
    have hcount : (width - 1#32).toInt.toNat = (width - 1#32 - 1#32).toInt.toNat + 1 := by
      omega
    rw [ih, hcount, List.replicate_succ]
  | case2 width hlt =>
    rw [BitVec.slt_iff_toInt_lt, hzero] at hlt
    have hcount : (width - 1#32).toInt.toNat = 0 := by omega
    rw [hcount, List.replicate_zero]

end
/-! ## Fields -/

/-- The pad character. -/
def padChar (zero : Bool) : BitVec 8 := if zero then ascii '0' else ascii ' '

section
variable {base width : Word} {lflag zero left : Bool} {fuel : ℕ} {args args' : List Arg}

theorem len_toInt {len : ℕ} (h : len < 2 ^ 31) : (BitVec.ofNat 32 len).toInt = len := by
  rw [BitVec.toInt_eq_toNat_of_lt (by rw [BitVec.toNat_ofNat]; omega), BitVec.toNat_ofNat]
  omega

/-- The length of a text can be taken from a width that is not negative. -/
theorem width_sub_len {len : ℕ} (hwidth : 0 ≤ width.toInt) (hlen : len < 2 ^ 31) :
    (width - BitVec.ofNat 32 len).toInt = width.toInt - len := by
  have hmax := BitVec.toInt_lt (x := width)
  rw [BitVec.toInt_sub, len_toInt hlen, Int.bmod_eq_of_le] <;> omega

theorem pad_right (zero : Bool) (n : ℕ) (body : Text) :
    pad false zero n [] body = List.replicate n (padChar zero) ++ body := by
  cases zero <;> simp [pad, padChar]

theorem printNum_eq {num : BitVec 64} (hb : 1 < base.toNat) (hb' : base.toNat < 2 ^ 31)
    (hfuel : 64 < fuel) (harg : vaArgNum lflag args = some (num, args')) :
    printNum fuel args base lflag width (padChar zero) left =
      let body := numeral base.toNat num.toNat
      some (pad left zero (if left then (width.toInt - body.length).toNat
        else (width - BitVec.ofNat 32 body.length).toInt.toNat) [] body, args') := by
  have hfits := numeral_fits hb num
  have hpos := numeral_length_pos base.toNat num.toNat
  unfold printNum
  rw [harg]
  cases left with
  | true =>
    show (getNumDigits fuel num base).bind _ = _
    rw [getNumDigits_eq hb hfuel, Option.bind_some]
    show (printDigitNoPad base fuel num).bind _ = _
    rw [printDigitNoPad_eq hb hb' (by omega), Option.bind_some, padFor_eq, len_toInt (by omega)]
    rfl
  | false =>
    show (printDigit base (padChar zero) fuel num width).bind _ = _
    have hcount : width - BitVec.ofNat 32 ((numeral base.toNat num.toNat).length - 1) - 1#32 =
        width - BitVec.ofNat 32 (numeral base.toNat num.toNat).length := by
      apply BitVec.eq_of_toNat_eq
      rw [BitVec.toNat_sub, BitVec.toNat_sub, BitVec.toNat_sub, BitVec.toNat_ofNat,
        BitVec.toNat_ofNat, BitVec.toNat_ofNat]
      omega
    rw [printDigit_eq _ _ hb hb' (by omega), Option.bind_some, padWhile_eq, hcount]
    exact congrArg (fun t => some (t, args')) (pad_right zero _ _).symm

/-- The absolute value; for the least number too. -/
theorem absolute_toNat (v : BitVec 64) :
    (if v.slt 0#64 then -v else v).toNat = v.toInt.natAbs := by
  have hzero : (0#64).toInt = 0 := rfl
  have hlt := v.isLt
  by_cases hneg : v.slt 0#64
  · rw [if_pos hneg, BitVec.toNat_neg]
    rw [BitVec.slt_iff_toInt_lt, hzero, BitVec.toInt_eq_toNat_cond] at hneg
    rw [BitVec.toInt_eq_toNat_cond]
    split_ifs at hneg ⊢ <;> omega
  · rw [if_neg hneg]
    rw [BitVec.slt_iff_toInt_lt, hzero, BitVec.toInt_eq_toNat_cond] at hneg
    rw [BitVec.toInt_eq_toNat_cond]
    split_ifs at hneg ⊢ <;> omega

theorem printSignedNum_eq {num : BitVec 64} (hb : 1 < base.toNat) (hb' : base.toNat < 2 ^ 31)
    (hfuel : 64 < fuel) (harg : vaArgSigned lflag args = some (num, args')) :
    printSignedNum fuel args base lflag width (padChar zero) left =
      let sign := (Value.int num.toInt).sign
      let body := numeral base.toNat num.toInt.natAbs
      some (pad left zero (width.toInt - (sign.length + body.length : ℕ)).toNat sign body,
        args') := by
  have hzero : (0#64).toInt = 0 := rfl
  have hsign : (Value.int num.toInt).sign = if num.slt 0#64 then [ascii '-'] else [] := by
    unfold Value.sign
    simp only [BitVec.slt_iff_toInt_lt, hzero]
  have hfits := numeral_fits hb (if num.slt 0#64 then -num else num)
  rw [absolute_toNat] at hfits
  have htotal : (BitVec.ofNat 32 (numeral base.toNat num.toInt.natAbs).length +
      if num.slt 0#64 then 1#32 else 0#32).toInt =
      ((Value.int num.toInt).sign.length + (numeral base.toNat num.toInt.natAbs).length : ℕ) := by
    rw [hsign]
    split_ifs
    · rw [← BitVec.ofNat_add, len_toInt (by omega), List.length_singleton, Nat.add_comm]
    · rw [BitVec.add_zero, len_toInt (by omega), List.length_nil, Nat.zero_add]
  unfold printSignedNum
  rw [harg]
  show (getNumDigits fuel (if num.slt 0#64 then -num else num) base).bind _ = _
  rw [getNumDigits_eq hb hfuel, Option.bind_some]
  show (printDigitNoPad base fuel (if num.slt 0#64 then -num else num)).bind _ = _
  rw [printDigitNoPad_eq hb hb' (by rw [absolute_toNat]; omega), Option.bind_some, absolute_toNat]
  simp only [padFor_eq, htotal, ← hsign]
  generalize (width.toInt - _).toNat = n
  rw [hsign]
  have hchar : padChar zero = ascii '0' ↔ zero = true := by
    cases zero <;> decide
  simp only [hchar]
  unfold pad padChar
  cases left <;> cases zero <;> cases num.slt 0#64 <;> simp

theorem printStr_eq {t : CString} (harg : vaArgStr args = some (t, args')) :
    printStr args width left =
      some (pad left false (width.toInt - t.chars.length).toNat [] t.chars, args') := by
  have hlen := len_toInt t.length_lt
  have hzero : (0#32).toInt = 0 := rfl
  have hpad : (if (BitVec.ofNat 32 t.chars.length).slt width then
      padFor (ascii ' ') 0#32 (width - BitVec.ofNat 32 t.chars.length) else []) =
      List.replicate (width.toInt - t.chars.length).toNat (ascii ' ') := by
    simp only [BitVec.slt_iff_toInt_lt, hlen]
    split_ifs with hlt
    · rw [padFor_eq, width_sub_len (by omega) t.length_lt, hzero, Int.sub_zero]
    · rw [show (width.toInt - t.chars.length).toNat = 0 by omega, List.replicate_zero]
  unfold printStr
  rw [harg]
  simp only [Option.bind_eq_bind, Option.bind_some, hpad]
  unfold pad
  cases left <;> simp

end

/-! ## Directives -/

/-- A width without the zeros among its digits. -/
def squeeze (w : ℕ) : ℕ := Nat.ofDigits 10 ((Nat.digits 10 w).filter (· ≠ 0))

namespace Cprintf
variable (g : Directive)

/-- The type of the argument. -/
def Takes : Arg → Prop
  | .int _ => g.conv ≠ .s ∧ g.long = false
  | .long _ => g.conv ≠ .s ∧ g.long = true
  | .str _ => g.conv = .s

/-- `width`, when the conversion is reached; and whether the pad character is `0`. -/
def width : Word := BitVec.ofNat 32 (squeeze g.width)

def zero : Bool := g.zero || decide (0 ∈ Nat.digits 10 g.width)

/-- The variables of `cprintf`, when the conversion is reached. -/
def fmt : Fmt := ⟨.transfer, g.long, width g, g.left, padChar (zero g)⟩

/-- `print_digit` counts the width down. -/
def CountsDown : Prop := g.left = false ∧ (g.conv = .x ∨ g.conv = .p ∨ g.conv = .u)

instance : Decidable (CountsDown g) := instDecidableAnd

def padCount (len : ℕ) : ℕ :=
  if CountsDown g then (width g - BitVec.ofNat 32 len).toInt.toNat
  else ((width g).toInt - len).toNat

/-- What `cprintf` prints. -/
def printed (v : Value) : Text :=
  let body := v.body g.conv.base
  pad g.left (zero g && v.isInt) (padCount g (v.sign.length + body.length)) v.sign body

/-- The argument, as the reference reads it. -/
def value : Arg → Value
  | .int v => .int (if g.conv = .d then v.toInt else v.toNat)
  | .long v => .int (if g.conv = .d then v.toInt else v.toNat)
  | .str t => .text t.chars

variable {g} {fuel : ℕ} {a : Arg} {args : List Arg}

theorem padCount_other (h : g.conv = .d ∨ g.conv = .s) (len : ℕ) :
    padCount g len = ((width g).toInt - len).toNat := by
  have hno : ¬ CountsDown g := by
    intro hdown
    rcases h with hd | hs
    · simp [CountsDown, hd] at hdown
    · simp [CountsDown, hs] at hdown
  unfold padCount
  rw [if_neg hno]

theorem padCount_num (hs : g.conv ≠ .s) (hd : g.conv ≠ .d) (len : ℕ) :
    padCount g len = if g.left then ((width g).toInt - len).toNat
      else (width g - BitVec.ofNat 32 len).toInt.toNat := by
  have hconv : g.conv = .x ∨ g.conv = .p ∨ g.conv = .u := by
    revert hs hd
    cases g.conv <;> decide
  unfold padCount CountsDown
  by_cases hleft : g.left = true <;> simp [hleft, hconv]

/-- An argument of `x`, `p` or `u`. -/
theorem vaArgNum_value (args : List Arg) (ha : Takes g a) (hs : g.conv ≠ .s) (hd : g.conv ≠ .d) :
    ∃ num : BitVec 64, vaArgNum g.long (a :: args) = some (num, args) ∧
      value g a = .int num.toNat := by
  cases a with
  | int v =>
    have hlt := v.isLt
    refine ⟨v.setWidth 64, ?_, ?_⟩
    · rw [vaArgNum, ha.2]
      rfl
    · rw [value, if_neg hd, BitVec.toNat_setWidth, Nat.mod_eq_of_lt (by omega)]
  | long v =>
    refine ⟨v, ?_, ?_⟩
    · rw [vaArgNum, ha.2]
      rfl
    · rw [value, if_neg hd]
  | str t => exact absurd ha hs

theorem vaArgSigned_value (args : List Arg) (ha : Takes g a) (hd : g.conv = .d) :
    ∃ num : BitVec 64, vaArgSigned g.long (a :: args) = some (num, args) ∧
      value g a = .int num.toInt := by
  cases a with
  | int v =>
    refine ⟨v.signExtend 64, ?_, ?_⟩
    · rw [vaArgSigned, ha.2]
      rfl
    · rw [value, if_pos hd, BitVec.toInt_signExtend_of_le (by omega)]
  | long v =>
    refine ⟨v, ?_, ?_⟩
    · rw [vaArgSigned, ha.2]
      rfl
    · rw [value, if_pos hd]
  | str t => exact absurd (hd.symm.trans ha) (by decide)

theorem printNum_value (base : Word) (ha : Takes g a) (hs : g.conv ≠ .s) (hd : g.conv ≠ .d)
    (hbase : base.toNat = g.conv.base) (hfuel : 64 < fuel) :
    printNum fuel (a :: args) base g.long (width g) (padChar (zero g)) g.left =
      some (printed g (value g a), args) := by
  have hb : 1 < base.toNat ∧ base.toNat < 2 ^ 31 := by
    rw [hbase]
    cases g.conv <;> decide
  obtain ⟨num, harg, hvalue⟩ := vaArgNum_value args ha hs hd
  rw [printNum_eq hb.1 hb.2 hfuel harg, hvalue]
  unfold printed
  simp only [Value.sign_natCast, padCount_num hs hd, ← hbase, Value.body, Value.isInt,
    Int.natAbs_natCast, Bool.and_true, List.length_nil, Nat.zero_add]

theorem printSignedNum_value (ha : Takes g a) (hd : g.conv = .d) (hfuel : 64 < fuel) :
    printSignedNum fuel (a :: args) 10#32 g.long (width g) (padChar (zero g)) g.left =
      some (printed g (value g a), args) := by
  obtain ⟨num, harg, hvalue⟩ := vaArgSigned_value args ha hd
  rw [printSignedNum_eq (by decide) (by decide) hfuel harg, hvalue]
  unfold printed
  simp only [padCount_other (Or.inl hd), hd, Value.body, Value.isInt, Conv.base, Bool.and_true]
  rfl

theorem printStr_value (ha : Takes g a) (hs : g.conv = .s) :
    printStr (a :: args) (width g) g.left = some (printed g (value g a), args) := by
  cases a with
  | int v => exact absurd hs ha.1
  | long v => exact absurd hs ha.1
  | str t =>
    rw [printStr_eq rfl]
    unfold printed
    simp only [padCount_other (Or.inr hs), value, Value.body, Value.sign, Value.isInt,
      Bool.and_false, List.length_nil, Nat.zero_add]

/-- The conversion prints the argument. -/
theorem convert_letter (ha : Takes g a) (hfuel : 64 < fuel) :
    (fmt g).convert fuel g.conv.letter (a :: args) = some (some (printed g (value g a), args)) := by
  cases hconv : g.conv with
  | x =>
    exact congrArg some
      (printNum_value 16#32 ha (by simp [hconv]) (by simp [hconv]) (by rw [hconv]; rfl) hfuel)
  | p =>
    exact congrArg some
      (printNum_value 16#32 ha (by simp [hconv]) (by simp [hconv]) (by rw [hconv]; rfl) hfuel)
  | d => exact congrArg some (printSignedNum_value ha hconv hfuel)
  | u =>
    exact congrArg some
      (printNum_value 10#32 ha (by simp [hconv]) (by simp [hconv]) (by rw [hconv]; rfl) hfuel)
  | s => exact congrArg some (printStr_value ha hconv)

/-! ## The format -/

/-- The bytes of a directive between `%` and the conversion. -/
def FlagByte (c : BitVec 8) : Prop :=
  c ∉ [ascii 'x', ascii 'p', ascii 'd', ascii 'u', ascii 's', ascii 'c']

theorem convert_flag {s : Fmt} {c : BitVec 8} (hc : FlagByte c) : s.convert fuel c args = none := by
  unfold FlagByte at hc
  simp only [List.mem_cons, List.not_mem_nil, or_false, not_or] at hc
  obtain ⟨hx, hp, hd, hu, hs, hc⟩ := hc
  unfold Fmt.convert
  rw [if_neg (not_or.mpr ⟨hx, hp⟩), if_neg hd, if_neg hu, if_neg hs, if_neg hc]

theorem flag_status (s : Fmt) (c : BitVec 8) : (s.flag c).status = s.status := by
  unfold Fmt.flag
  split_ifs <;> rfl

theorem cprintfFrom_flags {cs t : Text} {s : Fmt} (hs : s.status = .transfer)
    (hcs : ∀ c ∈ cs, FlagByte c) :
    cprintfFrom fuel (cs ++ t) s args = cprintfFrom fuel t (cs.foldl Fmt.flag s) args := by
  induction cs generalizing s with
  | nil => rfl
  | cons c cs ih =>
    have hnext := ih ((flag_status s c).trans hs) fun b hb => hcs b (List.mem_cons_of_mem c hb)
    rw [List.cons_append, cprintfFrom, hs, List.foldl_cons, ← hnext]
    simp only [convert_flag (hcs c List.mem_cons_self)]

theorem flag_digit (s : Fmt) {d : ℕ} (hd : d < 10) :
    s.flag (digit d) = if d = 0 then { s with padc := ascii '0' }
      else { s with width := s.width * 10#32 + BitVec.ofNat 32 d } := by
  interval_cases d <;> rfl

theorem flagByte_digit {d : ℕ} (hd : d < 10) : FlagByte (digit d) := by
  unfold FlagByte
  interval_cases d <;> decide

/-- What is left of a numeral, when its last digit comes off. -/
theorem squeeze_step {w : ℕ} (hw : w ≠ 0) :
    squeeze w = if w % 10 = 0 then squeeze (w / 10) else squeeze (w / 10) * 10 + w % 10 := by
  unfold squeeze
  rw [Nat.digits_eq_cons_digits_div (by omega) hw, List.filter_cons]
  by_cases hzero : w % 10 = 0
  · simp [hzero]
  · simp [hzero, Nat.ofDigits_cons]
    ring

/-- The digits of the width are read from the left, a 0 as the flag. -/
theorem foldl_numeral {w : ℕ} (hw : w ≠ 0) {s : Fmt} (hs : s.width = 0#32) :
    (numeral 10 w).foldl Fmt.flag s = { s with
      width := BitVec.ofNat 32 (squeeze w)
      padc := if 0 ∈ Nat.digits 10 w then ascii '0' else s.padc } := by
  induction w using Nat.strongRecOn with
  | _ w ih =>
    have hstep := squeeze_step hw
    have hdigits := Nat.digits_eq_cons_digits_div (b := 10) (by omega) hw
    by_cases hlt : w < 10
    · have hdiv : w / 10 = 0 := by omega
      rw [hdiv] at hstep hdigits
      rw [numeral_of_lt hlt, List.foldl_cons, List.foldl_nil, flag_digit s hlt, if_neg hw, hdigits,
        hstep, if_neg (by omega), hs]
      have hmod : w % 10 = w := Nat.mod_eq_of_lt hlt
      simp [squeeze, hmod, Ne.symm hw]
    · have hdiv : w / 10 ≠ 0 := by omega
      have hmod : w % 10 < 10 := Nat.mod_lt _ (by omega)
      rw [numeral_of_le (by omega) (not_lt.mp hlt), List.foldl_append, List.foldl_cons,
        List.foldl_nil, ih (w / 10) (by omega) hdiv, flag_digit _ hmod, hstep, hdigits]
      by_cases hzero : w % 10 = 0
      · simp [hzero]
      · rw [if_neg hzero, if_neg hzero]
        simp [Ne.symm hzero, BitVec.ofNat_add, BitVec.ofNat_mul]

theorem foldl_flags :
    g.flags.foldl Fmt.flag ⟨.transfer, false, 0#32, false, ascii ' '⟩ = fmt g := by
  have hleft : (if g.left then [ascii '-'] else []).foldl Fmt.flag
      ⟨.transfer, false, 0#32, false, ascii ' '⟩ =
      ⟨.transfer, false, 0#32, g.left, ascii ' '⟩ := by
    cases g.left <;> rfl
  have hzero : (if g.zero then [ascii '0'] else []).foldl Fmt.flag
      ⟨.transfer, false, 0#32, g.left, ascii ' '⟩ =
      ⟨.transfer, false, 0#32, g.left, padChar g.zero⟩ := by
    cases g.zero <;> rfl
  have hwidth : g.widthText.foldl Fmt.flag ⟨.transfer, false, 0#32, g.left, padChar g.zero⟩ =
      ⟨.transfer, false, width g, g.left, padChar (zero g)⟩ := by
    unfold Directive.widthText width zero
    by_cases hw : g.width = 0
    · rw [if_pos hw, hw]
      simp [squeeze]
    · rw [if_neg hw, foldl_numeral hw rfl]
      by_cases hmem : 0 ∈ Nat.digits 10 g.width <;> simp [hmem, padChar]
  have hlong : (if g.long then [ascii 'l'] else []).foldl Fmt.flag
      ⟨.transfer, false, width g, g.left, padChar (zero g)⟩ = fmt g := by
    unfold fmt
    cases g.long <;> rfl
  unfold Directive.flags
  rw [List.foldl_append, List.foldl_append, List.foldl_append, hleft, hzero, hwidth, hlong]

theorem flagByte_if {b : Bool} {c d : BitVec 8} (hd : FlagByte d)
    (hc : c ∈ if b then [d] else []) : FlagByte c := by
  split_ifs at hc
  · rw [List.mem_singleton.mp hc]
    exact hd
  · exact absurd hc List.not_mem_nil

theorem flagByte_flags : ∀ c ∈ g.flags, FlagByte c := by
  intro c hc
  unfold Directive.flags at hc
  simp only [List.mem_append] at hc
  rcases hc with ((hleft | hzero) | hwidth) | hlong
  · exact flagByte_if (by unfold FlagByte; decide) hleft
  · exact flagByte_if (by unfold FlagByte; decide) hzero
  · unfold Directive.widthText at hwidth
    split_ifs at hwidth
    · exact absurd hwidth List.not_mem_nil
    · obtain ⟨d, hd, rfl⟩ := exists_of_mem_numeral (by omega) hwidth
      exact flagByte_digit hd
  · exact flagByte_if (by unfold FlagByte; decide) hlong

/-- The variables before the first byte. -/
def start : Fmt := ⟨.none, false, 0#32, false, 0#8⟩

/-- In front of `%` and of literal text, only the status counts. -/
theorem cprintfFrom_none {s : Fmt} (hs : s.status = .none) (t : Text) :
    cprintfFrom fuel t s args = cprintfFrom fuel t start args := by
  cases t with
  | nil => rfl
  | cons c t => rw [cprintfFrom, hs, cprintfFrom, start]

theorem cprintfFrom_literal {c : BitVec 8} (hc : c ≠ ascii '%') (t : Text) :
    cprintfFrom fuel (c :: t) start args =
      (cprintfFrom fuel t start args).map fun (rest, args) => (c :: rest, args) := by
  rw [cprintfFrom, start]
  simp only [if_neg hc]
  rw [cprintfFrom_none rfl]
  rfl

theorem cprintfFrom_directive (ha : Takes g a) (hfuel : 64 < fuel) (t : Text) :
    cprintfFrom fuel (g.spell ++ t) start (a :: args) =
      (cprintfFrom fuel t start args).map fun (rest, args) =>
        (printed g (value g a) ++ rest, args) := by
  have hletter : cprintfFrom fuel (g.conv.letter :: t) (fmt g) (a :: args) =
      (cprintfFrom fuel t start args).map fun (rest, args) =>
        (printed g (value g a) ++ rest, args) := by
    rw [cprintfFrom, show (fmt g).status = .transfer from rfl]
    simp only [convert_letter ha hfuel]
    show (cprintfFrom fuel t { fmt g with status := .none } args).bind _ = _
    rw [cprintfFrom_none rfl, Option.map_eq_bind]
    rfl
  unfold Directive.spell
  rw [List.cons_append, List.append_assoc, List.singleton_append, cprintfFrom, start]
  simp only [if_pos]
  rw [cprintfFrom_flags rfl flagByte_flags, foldl_flags, hletter, Option.map_map]
  rfl

theorem cprintfFrom_char (v : Word) (t : Text) :
    cprintfFrom fuel (ascii '%' :: ascii 'c' :: t) start (.int v :: args) =
      (cprintfFrom fuel t start args).map fun (rest, args) => (v.setWidth 8 :: rest, args) := by
  have hletter : cprintfFrom fuel (ascii 'c' :: t) ⟨.transfer, false, 0#32, false, ascii ' '⟩
      (.int v :: args) =
      (cprintfFrom fuel t start args).map fun (rest, args) => (v.setWidth 8 :: rest, args) := by
    show (cprintfFrom fuel t ⟨.none, false, 0#32, false, ascii ' '⟩ args).bind _ = _
    rw [cprintfFrom_none rfl, Option.map_eq_bind]
    rfl
  rw [cprintfFrom, start]
  simp only [if_pos]
  rw [hletter, Option.map_map]
  rfl

/-- A format in pieces, each directive with the argument it takes. A literal 0 would end it. -/
inductive Piece
  | literal (c : BitVec 8) (h : c ≠ ascii '%' ∧ c ≠ 0#8)
  | directive (g : Directive) (a : Arg) (h : Takes g a)

namespace Piece

def spell : Piece → Text
  | literal c _ => [c]
  | directive g _ _ => g.spell

def arg : Piece → List Arg
  | literal _ _ => []
  | directive _ a _ => [a]

/-- What the reference of `printf` makes of it. -/
def render : Piece → Text
  | literal c _ => [c]
  | directive g a _ => g.render (value g a)

/-- What `cprintf` makes of it. -/
def print : Piece → Text
  | literal c _ => [c]
  | directive g a _ => printed g (value g a)

end Piece

/-- Every argument is printed by its directive, and no other is touched. -/
theorem cprintf_pieces (hfuel : 64 < fuel) (ps : List Piece) (rest : List Arg) :
    cprintf fuel (ps.flatMap Piece.spell) (ps.flatMap Piece.arg ++ rest) =
      some (ps.flatMap Piece.print, rest) := by
  show cprintfFrom fuel (ps.flatMap Piece.spell) start (ps.flatMap Piece.arg ++ rest) = _
  induction ps with
  | nil => rfl
  | cons q ps ih =>
    rw [List.flatMap_cons, List.flatMap_cons, List.flatMap_cons, List.append_assoc]
    cases q with
    | literal c h =>
      show cprintfFrom fuel (c :: ps.flatMap Piece.spell) start _ = _
      rw [cprintfFrom_literal h.1]
      exact congrArg (Option.map _) ih
    | directive g a h =>
      show cprintfFrom fuel (g.spell ++ ps.flatMap Piece.spell) start
        (a :: (ps.flatMap Piece.arg ++ rest)) = _
      rw [cprintfFrom_directive h hfuel]
      exact congrArg (Option.map _) ih

/-- A text without directives is printed as it is. -/
theorem cprintf_literals {t : Text} (ht : ∀ c ∈ t, c ≠ ascii '%') (args : List Arg) :
    cprintf fuel t args = some (t, args) := by
  show cprintfFrom fuel t start args = _
  induction t with
  | nil => rfl
  | cons c t ih =>
    rw [cprintfFrom_literal (ht c List.mem_cons_self),
      ih fun b hb => ht b (List.mem_cons_of_mem c hb)]
    rfl

/-! ## Where `cprintf` agrees with the reference -/

theorem squeeze_le_and (w : ℕ) : squeeze w ≤ w ∧ (squeeze w = w ↔ 0 ∉ Nat.digits 10 w) := by
  induction w using Nat.strongRecOn with
  | _ w ih =>
    by_cases hw : w = 0
    · subst hw
      simp [squeeze]
    · obtain ⟨hle, hiff⟩ := ih (w / 10) (by omega)
      rw [squeeze_step hw, Nat.digits_eq_cons_digits_div (by omega) hw, List.mem_cons]
      split_ifs with hzero
      · refine ⟨by omega, iff_of_false (by omega) (not_not_intro (Or.inl hzero.symm))⟩
      · rw [not_or, ← hiff]
        omega

/-- A width that `cprintf` takes as it is written: without a 0 among its digits, and small enough
for an `int`; counted down from there for a number on the right. -/
def Readable (g : Directive) (len : ℕ) : Prop :=
  0 ∉ Nat.digits 10 g.width ∧
    if CountsDown g then g.width < 2 ^ 31 + len else g.width < 2 ^ 31

/-- Never too much padding, and the right amount when none is due or the width is read right. -/
theorem padCount_le_and {len : ℕ} (hlen : len < 2 ^ 31) :
    padCount g len ≤ g.width - len ∧
      (padCount g len = g.width - len ↔ g.width ≤ len ∨ Readable g len) := by
  obtain ⟨hle, hiff⟩ := squeeze_le_and g.width
  have hwidth : (width g).toNat = squeeze g.width % 2 ^ 32 := BitVec.toNat_ofNat ..
  unfold padCount Readable
  rw [← hiff]
  split_ifs
  · have hsub : (width g - BitVec.ofNat 32 len).toNat =
        (2 ^ 32 - len + squeeze g.width % 2 ^ 32) % 2 ^ 32 := by
      rw [BitVec.toNat_sub, hwidth, BitVec.toNat_ofNat]
      omega
    rw [BitVec.toInt_eq_toNat_cond, hsub]
    split_ifs <;> omega
  · rw [BitVec.toInt_eq_toNat_cond, hwidth]
    split_ifs <;> omega

/-- The length of the argument's text. -/
def textLength (g : Directive) (a : Arg) : ℕ :=
  (value g a).sign.length + ((value g a).body g.conv.base).length

theorem textLength_lt (g : Directive) (a : Arg) : textLength g a < 2 ^ 31 := by
  have hbase : 1 < g.conv.base := by cases g.conv <;> decide
  have hint : ∀ z : ℤ, z.natAbs < 2 ^ 64 →
      (Value.int z).sign.length + (numeral g.conv.base z.natAbs).length < 2 ^ 31 := by
    intro z hz
    have hdigits : (numeral g.conv.base z.natAbs).length ≤ 64 :=
      numeral_length_le hbase (by omega) (hz.trans_le (Nat.pow_le_pow_left hbase 64))
    have hsign : (Value.int z).sign.length ≤ 1 := by
      unfold Value.sign
      dsimp only
      split_ifs <;> decide
    omega
  cases a with
  | int v =>
    have hmin := BitVec.le_toInt v
    have hmax := BitVec.toInt_lt (x := v)
    have hlt := v.isLt
    apply hint
    split_ifs <;> omega
  | long v =>
    have hmin := BitVec.le_toInt v
    have hmax := BitVec.toInt_lt (x := v)
    have hlt := v.isLt
    apply hint
    split_ifs <;> omega
  | str t =>
    show 0 + t.chars.length < 2 ^ 31
    have hlt := t.length_lt
    omega

/-- The width is no more than the text needs, or it is read right. -/
def Exact (g : Directive) (a : Arg) : Prop :=
  g.width ≤ textLength g a ∨ Readable g (textLength g a)

theorem printed_length_le (g : Directive) (a : Arg) :
    (printed g (value g a)).length ≤ (g.render (value g a)).length := by
  have hle := (padCount_le_and (g := g) (textLength_lt g a)).1
  unfold printed Directive.render field
  rw [pad_length, pad_length]
  exact Nat.add_le_add_right hle _

theorem printed_eq_iff (g : Directive) (a : Arg) :
    printed g (value g a) = g.render (value g a) ↔ Exact g a := by
  have hiff := (padCount_le_and (g := g) (textLength_lt g a)).2
  constructor
  · intro heq
    have hlength := congrArg List.length heq
    unfold printed Directive.render field at hlength
    rw [pad_length, pad_length] at hlength
    exact hiff.mp (Nat.add_right_cancel hlength)
  · intro hexact
    have hcount := hiff.mpr hexact
    unfold textLength at hcount
    unfold printed Directive.render field
    simp only [hcount]
    rcases hexact with hle | ⟨hzero, -⟩
    · unfold textLength at hle
      rw [Nat.sub_eq_zero_of_le hle, pad_none, pad_none]
    · rw [zero, decide_eq_false hzero, Bool.or_false]

/-- `cprintf` prints what the reference does, and takes one argument for each directive, exactly
when every width is no more than the text needs or is read right. -/
theorem cprintf_reference_iff (hfuel : 64 < fuel) (ps : List Piece) (rest : List Arg) :
    cprintf fuel (ps.flatMap Piece.spell) (ps.flatMap Piece.arg ++ rest) =
      some (ps.flatMap Piece.render, rest) ↔
    ∀ g a h, Piece.directive g a h ∈ ps → Exact g a := by
  have hle : ∀ q ∈ ps, q.print.length ≤ q.render.length := by
    intro q _
    cases q with
    | literal c h => exact Nat.le_refl _
    | directive g a h => exact printed_length_le g a
  rw [cprintf_pieces hfuel, Option.some.injEq, Prod.mk.injEq, and_iff_left rfl, flatMap_eq_iff hle]
  constructor
  · intro hall g a h hmem
    exact (printed_eq_iff g a).mp (hall _ hmem)
  · intro hall q hmem
    cases q with
    | literal c h => rfl
    | directive g a h => exact (printed_eq_iff g a).mpr (hall g a h hmem)

/-- `cprintf("%3d!", -7)` -/
theorem cprintf_reference_three :
    cprintf 65 [ascii '%', ascii '3', ascii 'd', ascii '!'] [.int (-7#32)] =
      some ([ascii ' ', ascii '-', ascii '7', ascii '!'], []) := by
  refine (cprintf_reference_iff (by decide : 64 < 65)
    [.directive ⟨false, false, 3, false, .d⟩ (.int (-7#32)) ⟨by decide, rfl⟩,
      .literal (ascii '!') (by decide)] []).mpr ?_
  intro g a h hmem
  simp only [List.mem_cons, List.not_mem_nil, or_false, reduceCtorEq] at hmem
  obtain ⟨rfl, rfl⟩ := Piece.directive.inj hmem
  right
  unfold Readable
  decide

/-- `cprintf("%10d", 7)`: the 0 of the width is taken for the flag, and the width is 1. -/
theorem cprintf_drops_zero :
    cprintf 65 [ascii '%', ascii '1', ascii '0', ascii 'd'] [.int 7#32] = some ([ascii '7'], []) ∧
      (⟨false, false, 10, false, .d⟩ : Directive).render (value ⟨false, false, 10, false, .d⟩
        (.int 7#32)) = List.replicate 9 (ascii ' ') ++ [ascii '7'] := by
  constructor
  · exact cprintf_pieces (by decide : 64 < 65)
      [.directive ⟨false, false, 10, false, .d⟩ (.int 7#32) ⟨by decide, rfl⟩] []
  · decide

end Cprintf
end Zonix
