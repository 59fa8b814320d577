import Zonix.Cons.StdioTheorems
import Zonix.Lib.Loop

/-!
# Numbers: `do_div`, and the fields of `print_num` and `print_signed_num`

`do_div` hands the remainder of the upper half to `divl`, and so the quotient of `divl` fits. The
loops on digits return because the number halves.

`print_digit` counts the width down with the digits, and the other loops count up from the length.
For a width that is not negative they come to the same padding.
-/

namespace Zonix
open Lib.Format Lib.Loop

/-! ## `do_div` and the loops on digits -/

section
variable {base : Word} {num : BitVec 64} {k : ℕ}

/-- `int base` is extended with its sign, and is not less than the divisor then. -/
theorem base_le_num (hle : base.signExtend 64 ≤ num) : base.toNat ≤ num.toNat := by
  have hlt := base.isLt
  rw [BitVec.le_def, BitVec.toNat_signExtend, BitVec.toNat_setWidth] at hle
  omega

/-- A digit takes at least one bit from the number. -/
theorem exists_quotient_lt (hb : 2 ≤ base.toNat) (hle : base.signExtend 64 ≤ num)
    (hk : num.toNat < 2 ^ k) :
    ∃ j, k = j + 1 ∧ (BitVec.ofNat 64 (num.toNat / base.toNat)).toNat < 2 ^ j := by
  have hnum := base_le_num hle
  cases k with
  | zero => omega
  | succ j =>
    refine ⟨j, rfl, ?_⟩
    rw [quotient_toNat]
    calc num.toNat / base.toNat ≤ num.toNat / 2 := Nat.div_le_div_left hb (by omega)
      _ < 2 ^ j := by omega

theorem printDigit_answers (hb : 2 ≤ base.toNat) (padc : BitVec 8) (width : Word)
    (hk : num.toNat < 2 ^ k) :
    ∃ out, ∀ fuel, k < fuel → printDigit base padc fuel num width = some out := by
  refine @calls_answer _ _ (fun fuel s => printDigit base padc fuel s.1 s.2)
    (fun k s => s.1.toNat < 2 ^ k) (fun k s hs => ?_) k (num, width) hk
  by_cases hle : base.signExtend 64 ≤ s.1
  · obtain ⟨j, rfl, hj⟩ := exists_quotient_lt hb hle hs
    refine Or.inr ⟨j, (_, s.2 - 1#32),
      (· ++ [digitChar (BitVec.ofNat 32 (s.1.toNat % base.toNat))]), rfl, hj, fun fuel => ?_⟩
    rw [printDigit, if_pos hle, doDiv_eq (by omega)]
    exact Option.map_eq_bind.symm
  · exact Or.inl ⟨_, fun fuel => by rw [printDigit, if_neg hle]⟩

theorem printDigitNoPad_answers (hb : 2 ≤ base.toNat) (hk : num.toNat < 2 ^ k) :
    ∃ out, ∀ fuel, k < fuel → printDigitNoPad base fuel num = some out := by
  refine @calls_answer _ _ (printDigitNoPad base) (fun k n => n.toNat < 2 ^ k) (fun k n hn => ?_) k
    num hk
  by_cases hle : base.signExtend 64 ≤ n
  · obtain ⟨j, rfl, hj⟩ := exists_quotient_lt hb hle hn
    refine Or.inr ⟨j, _, (· ++ [digitChar (BitVec.ofNat 32 (n.toNat % base.toNat))]), rfl, hj,
      fun fuel => ?_⟩
    rw [printDigitNoPad, if_pos hle, doDiv_eq (by omega)]
    exact Option.map_eq_bind.symm
  · exact Or.inl ⟨_, fun fuel => by rw [printDigitNoPad, if_neg hle]⟩

/-- `do_div` is exact for every pair of operands, and the quotient of its `divl` fits. So the loops
on digits return. -/
theorem doDiv_exact :
    (∀ (n : BitVec 64) (base : Word), base ≠ 0#32 →
      (n.extractLsb' 32 32 % base ++ n.extractLsb' 0 32).toNat / base.toNat < 2 ^ 32 ∧
      ∃ q r, doDiv n base = some (q, r) ∧
        q.toNat = n.toNat / base.toNat ∧ r.toNat = n.toNat % base.toNat) ∧
    ∀ (num : BitVec 64) (base : Word), 2 ≤ base.toNat →
      (∃ digits, ∀ fuel, 64 < fuel → getNumDigits fuel num base = some digits) ∧
      (∀ padc width, ∃ out, ∀ fuel, 64 < fuel →
        printDigit base padc fuel num width = some out) ∧
      ∃ out, ∀ fuel, 64 < fuel → printDigitNoPad base fuel num = some out := by
  refine ⟨fun n base hbase => ?_, fun num base hb => ?_⟩
  · have hpos : 0 < base.toNat :=
      Nat.pos_of_ne_zero fun h => hbase (BitVec.eq_of_toNat_eq h)
    have hmod : n.toNat % base.toNat < base.toNat := Nat.mod_lt _ hpos
    have hlt := base.isLt
    have hupper : (n.extractLsb' 32 32 % base).toNat < base.toNat := by
      rw [BitVec.toNat_umod]
      exact Nat.mod_lt _ hpos
    refine ⟨?_, _, _, doDiv_eq hpos, quotient_toNat, ?_⟩
    · rw [append_toNat]
      exact (divl_eq (n.extractLsb' 0 32) hupper).2
    · rw [BitVec.toNat_ofNat, Nat.mod_eq_of_lt (by omega)]
  · exact ⟨⟨_, fun fuel hfuel => getNumDigits_eq hb hfuel⟩,
      fun padc width => printDigit_answers hb padc width num.isLt,
      printDigitNoPad_answers hb num.isLt⟩

/-- The greatest number: divided by ten, and printed in base 2. -/
theorem doDiv_exact_max :
    (∃ q r, doDiv (-1#64) 10#32 = some (q, r) ∧ q.toNat = (2 ^ 64 - 1) / 10 ∧
      r.toNat = (2 ^ 64 - 1) % 10) ∧
    ∃ out, ∀ fuel, 64 < fuel → printDigitNoPad 2#32 fuel (-1#64) = some out :=
  ⟨(doDiv_exact.1 (-1#64) 10#32 (by decide)).2,
    (doDiv_exact.2 (-1#64) 2#32 (by decide)).2.2⟩

end

/-! ## Fields -/

/-- The numeral of `v`, with its sign, in a field of at least `width` bytes. -/
def Rendered (b : ℕ) (left zero : Bool) (width : ℕ) (v : ℤ) (out : Text) : Prop :=
  ∃ body, Canonical b v.natAbs body ∧
    out = field left zero width (if v < 0 then [ascii '-'] else []) body

section
variable {base width : Word} {lflag zero left : Bool} {fuel : ℕ} {args args' : List Arg}

theorem printNum_rendered {num : BitVec 64} (hb : 1 < base.toNat) (hb' : base.toNat ≤ 36)
    (hwidth : 0 ≤ width.toInt) (hfuel : 64 < fuel)
    (harg : vaArgNum lflag args = some (num, args')) :
    ∃ out, printNum fuel args base lflag width (padChar zero) left = some (out, args') ∧
      Rendered base.toNat left zero width.toInt.toNat num.toNat out := by
  have hfits := numeral_fits hb num
  refine ⟨_, printNum_eq hb (by omega) hfuel harg, _, numeral_canonical hb hb' num.toNat, ?_⟩
  have hcount : (if left then (width.toInt - (numeral base.toNat num.toNat).length).toNat
      else (width - BitVec.ofNat 32 (numeral base.toNat num.toNat).length).toInt.toNat) =
      width.toInt.toNat - (0 + (numeral base.toNat num.toNat).length) := by
    rw [width_sub_len hwidth (by omega), ite_self]
    omega
  have hsign : (if (num.toNat : ℤ) < 0 then [ascii '-'] else []) = [] :=
    Value.sign_natCast num.toNat
  rw [hcount, hsign]
  rfl

theorem printSignedNum_rendered {num : BitVec 64} (hb : 1 < base.toNat) (hb' : base.toNat ≤ 36)
    (hwidth : 0 ≤ width.toInt) (hfuel : 64 < fuel)
    (harg : vaArgSigned lflag args = some (num, args')) :
    ∃ out, printSignedNum fuel args base lflag width (padChar zero) left = some (out, args') ∧
      Rendered base.toNat left zero width.toInt.toNat num.toInt out := by
  refine ⟨_, printSignedNum_eq hb (by omega) hfuel harg, _,
    numeral_canonical hb hb' num.toInt.natAbs, ?_⟩
  have hcount (n : ℕ) : (width.toInt - n).toNat = width.toInt.toNat - n := by omega
  rw [hcount]
  rfl

/-- Both functions print every number exactly. Negating the least number of 64 bits overflows, and
it is left out. -/
theorem numbers_rendered (hbase : base = 10#32 ∨ base = 16#32) (hwidth : 0 ≤ width.toInt)
    (hfuel : 64 < fuel) (zero left : Bool) (args : List Arg) :
    (∀ v : Word, ∃ out,
      printNum fuel (.int v :: args) base false width (padChar zero) left = some (out, args) ∧
        Rendered base.toNat left zero width.toInt.toNat v.toNat out) ∧
    (∀ v : BitVec 64, ∃ out,
      printNum fuel (.long v :: args) base true width (padChar zero) left = some (out, args) ∧
        Rendered base.toNat left zero width.toInt.toNat v.toNat out) ∧
    (∀ v : Word, ∃ out,
      printSignedNum fuel (.int v :: args) base false width (padChar zero) left =
        some (out, args) ∧
        Rendered base.toNat left zero width.toInt.toNat v.toInt out) ∧
    (∀ v : BitVec 64, v ≠ BitVec.intMin 64 → ∃ out,
      printSignedNum fuel (.long v :: args) base true width (padChar zero) left =
        some (out, args) ∧
        Rendered base.toNat left zero width.toInt.toNat v.toInt out) := by
  have hb : 1 < base.toNat ∧ base.toNat ≤ 36 := by
    rcases hbase with rfl | rfl <;> decide
  refine ⟨fun v => ?_, fun v => ?_, fun v => ?_, fun v _ => ?_⟩
  · have hv : (v.setWidth 64).toNat = v.toNat := by
      have hlt := v.isLt
      rw [BitVec.toNat_setWidth, Nat.mod_eq_of_lt (by omega)]
    rw [← hv]
    exact printNum_rendered hb.1 hb.2 hwidth hfuel rfl
  · exact printNum_rendered hb.1 hb.2 hwidth hfuel rfl
  · rw [← BitVec.toInt_signExtend_of_le (x := v) (by omega : 32 ≤ 64)]
    exact printSignedNum_rendered hb.1 hb.2 hwidth hfuel rfl
  · exact printSignedNum_rendered hb.1 hb.2 hwidth hfuel rfl

end

/-- `-255` in base 16, in a field of five bytes that zeros fill. -/
theorem numbers_rendered_hex :
    ∃ out, printSignedNum 65 [.int (-255#32)] 16#32 false 5#32 (padChar true) false =
        some (out, []) ∧
      Rendered 16 false true 5 (-255) out :=
  (@numbers_rendered 16#32 5#32 65 (Or.inr rfl) (by decide) (by decide) true false []).2.2.1
    (-255#32)

end Zonix
