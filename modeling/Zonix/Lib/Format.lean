import Mathlib.Data.Nat.Digits.Lemmas

/-!
# Formatted output

Numerals, fields and directives as the reference of `printf` has them. A field is a text with an
optional sign in front, padded to a width; a directive says how its argument becomes a field. Texts
are lists of bytes.
-/

namespace Zonix.Lib.Format

abbrev Text := List (BitVec 8)

def ascii (c : Char) : BitVec 8 := BitVec.ofNat 8 c.toNat

/-! ## Numerals -/

/-- The digits behind 9 are upper case letters. -/
def digit (d : ℕ) : BitVec 8 := if d < 10 then BitVec.ofNat 8 (48 + d) else BitVec.ofNat 8 (55 + d)

def numeral (b n : ℕ) : Text := if n = 0 then [digit 0] else (b.digits n).reverse.map digit

section
variable {b n k : ℕ}

theorem numeral_of_lt (hn : n < b) : numeral b n = [digit n] := by
  unfold numeral
  split_ifs with hzero
  · rw [hzero]
  · rw [Nat.digits_of_lt b n hzero hn]
    rfl

/-- The last digit comes off the end. -/
theorem numeral_of_le (hb : 1 < b) (hn : b ≤ n) :
    numeral b n = numeral b (n / b) ++ [digit (n % b)] := by
  have hdiv : n / b ≠ 0 := by
    have hpos := Nat.div_pos hn (by omega)
    omega
  unfold numeral
  rw [if_neg (by omega), if_neg hdiv, Nat.digits_eq_cons_digits_div hb (by omega),
    List.reverse_cons, List.map_append]
  rfl

theorem exists_of_mem_numeral (hb : 1 < b) {c : BitVec 8} (hc : c ∈ numeral b n) :
    ∃ d < b, c = digit d := by
  unfold numeral at hc
  split_ifs at hc
  · exact ⟨0, by omega, List.mem_singleton.mp hc⟩
  · obtain ⟨d, hd, hdc⟩ := List.mem_map.mp hc
    exact ⟨d, Nat.digits_lt_base hb (List.mem_reverse.mp hd), hdc.symm⟩

theorem numeral_length_pos (b n : ℕ) : 0 < (numeral b n).length := by
  unfold numeral
  split_ifs with hzero
  · exact Nat.one_pos
  · rw [List.length_map, List.length_reverse]
    exact List.length_pos_of_ne_nil (Nat.digits_ne_nil_iff_ne_zero.mpr hzero)

theorem numeral_length_le (hb : 1 < b) (hk : 0 < k) (hn : n < b ^ k) :
    (numeral b n).length ≤ k := by
  unfold numeral
  split_ifs
  · exact hk
  · rw [List.length_map, List.length_reverse]
    exact (Nat.digits_length_le_iff hb n).mpr hn

/-- The digit that a byte stands for. -/
def digitValue (c : BitVec 8) : ℕ := if c.toNat < 58 then c.toNat - 48 else c.toNat - 55

/-- The number that digits stand for. -/
def parse (b : ℕ) (t : Text) : ℕ := t.foldl (fun n c => n * b + digitValue c) 0

theorem digit_toNat {d : ℕ} (hd : d < 36) :
    (digit d).toNat = if d < 10 then 48 + d else 55 + d := by
  unfold digit
  split_ifs <;> rw [BitVec.toNat_ofNat] <;> omega

theorem digitValue_digit {d : ℕ} (hd : d < 36) : digitValue (digit d) = d := by
  unfold digitValue
  rw [digit_toNat hd]
  split_ifs <;> omega

theorem parse_concat (t : Text) (c : BitVec 8) :
    parse b (t ++ [c]) = parse b t * b + digitValue c := by
  unfold parse
  rw [List.foldl_append]
  rfl

theorem parse_numeral (hb : 1 < b) (hb' : b ≤ 36) (n : ℕ) : parse b (numeral b n) = n := by
  induction n using Nat.strong_induction_on with
  | _ n ih =>
    by_cases hn : n < b
    · rw [numeral_of_lt hn]
      show 0 * b + digitValue (digit n) = n
      rw [digitValue_digit (by omega), Nat.zero_mul, Nat.zero_add]
    · have hdiv : n / b < n := Nat.div_lt_self (by omega) hb
      have hmod := Nat.mod_lt n (show 0 < b by omega)
      rw [numeral_of_le hb (by omega), parse_concat, ih _ hdiv, digitValue_digit (by omega)]
      exact Nat.div_add_mod' n b

/-- A number is written with a leading zero only if it is 0. -/
theorem numeral_head (hb : 1 < b) (hb' : b ≤ 36) (h : (numeral b n).head? = some (ascii '0')) :
    n = 0 := by
  induction n using Nat.strong_induction_on with
  | _ n ih =>
    by_cases hn : n < b
    · rw [numeral_of_lt hn] at h
      have hdigit : digit n = ascii '0' := Option.some.inj h
      rw [← digitValue_digit (show n < 36 by omega), hdigit]
      rfl
    · have hdiv : n / b < n := Nat.div_lt_self (by omega) hb
      have hpos : 0 < n / b := Nat.div_pos (by omega) (by omega)
      rw [numeral_of_le hb (by omega),
        List.head?_append_of_ne_nil _ (List.ne_nil_of_length_pos (numeral_length_pos b _))] at h
      have hzero := ih _ hdiv h
      omega

/-- The digits of `n`, most significant first: upper case, and without leading zeros. -/
structure Canonical (b n : ℕ) (t : Text) : Prop where
  digits : ∀ c ∈ t, ∃ d < b, c = digit d
  nonempty : t ≠ []
  noLeadingZero : t.head? = some (ascii '0') → t = [ascii '0']
  parse : parse b t = n

theorem numeral_canonical (hb : 1 < b) (hb' : b ≤ 36) (n : ℕ) : Canonical b n (numeral b n) := by
  refine ⟨fun c hc => exists_of_mem_numeral hb hc,
    List.ne_nil_of_length_pos (numeral_length_pos b n), fun h => ?_, parse_numeral hb hb' n⟩
  rw [numeral_head hb hb' h]
  rfl

end

/-! ## Fields -/

/-- A text with `n` bytes of padding: under `-` blanks behind it, else blanks in front of the sign,
or zeros behind the sign. -/
def pad (left zero : Bool) (n : ℕ) (sign body : Text) : Text :=
  if left then sign ++ body ++ List.replicate n (ascii ' ')
  else if zero then sign ++ List.replicate n (ascii '0') ++ body
  else List.replicate n (ascii ' ') ++ sign ++ body

def field (left zero : Bool) (width : ℕ) (sign body : Text) : Text :=
  pad left zero (width - (sign.length + body.length)) sign body

theorem pad_length (left zero : Bool) (n : ℕ) (sign body : Text) :
    (pad left zero n sign body).length = n + (sign.length + body.length) := by
  unfold pad
  split_ifs <;> simp only [List.length_append, List.length_replicate] <;> omega

theorem pad_none (left zero : Bool) (sign body : Text) :
    pad left zero 0 sign body = sign ++ body := by
  unfold pad
  split_ifs <;> simp

/-- Blanks in front of digits count for nothing. -/
theorem parse_blanks (b n : ℕ) (t : Text) :
    parse b (List.replicate n (ascii ' ') ++ t) = parse b t := by
  induction n with
  | zero => rfl
  | succ n ih =>
    have hblank : 0 * b + digitValue (ascii ' ') = 0 := by
      rw [Nat.zero_mul]
      rfl
    unfold parse at ih ⊢
    rw [List.replicate_succ, List.cons_append, List.foldl_cons, hblank, ih]

/-- A number can be read from its field. -/
theorem parse_field {b : ℕ} (hb : 1 < b) (hb' : b ≤ 36) (width n : ℕ) :
    parse b (field false false width [] (numeral b n)) = n := by
  show parse b (List.replicate _ (ascii ' ') ++ [] ++ numeral b n) = n
  rw [List.append_nil, parse_blanks, parse_numeral hb hb']

/-! ## Directives -/

inductive Conv
  | x | p | d | u | s
deriving DecidableEq

namespace Conv

def letter : Conv → BitVec 8
  | x => ascii 'x'
  | p => ascii 'p'
  | d => ascii 'd'
  | u => ascii 'u'
  | s => ascii 's'

def base : Conv → ℕ
  | x | p => 16
  | d | u | s => 10

end Conv

/-- `%[-][0][width][l]c`; the width is 0 when there is none. -/
structure Directive where
  left : Bool
  zero : Bool
  width : ℕ
  long : Bool
  conv : Conv

inductive Value
  | int (z : ℤ)
  | text (t : Text)

namespace Value

def sign : Value → Text
  | int z => if z < 0 then [ascii '-'] else []
  | text _ => []

theorem sign_natCast (n : ℕ) : (int n).sign = [] := by
  have hpos : ¬ (n : ℤ) < 0 := by omega
  rw [sign, if_neg hpos]

def body (b : ℕ) : Value → Text
  | int z => numeral b z.natAbs
  | text t => t

/-- Zeros only go in front of digits. -/
def isInt : Value → Bool
  | int _ => true
  | text _ => false

end Value

namespace Directive

def widthText (g : Directive) : Text := if g.width = 0 then [] else numeral 10 g.width

/-- What is between `%` and the conversion. -/
def flags (g : Directive) : Text :=
  (if g.left then [ascii '-'] else []) ++ (if g.zero then [ascii '0'] else []) ++ g.widthText ++
    (if g.long then [ascii 'l'] else [])

def spell (g : Directive) : Text := ascii '%' :: (g.flags ++ [g.conv.letter])

def render (g : Directive) (v : Value) : Text :=
  field g.left (g.zero && v.isInt) g.width v.sign (v.body g.conv.base)

end Directive

/-! ## Texts that are put together -/

/-- When none of the pieces is longer than it should be, the whole is right only if every piece
is. -/
theorem flatMap_eq_iff {α : Type*} {f g : α → Text} {l : List α}
    (h : ∀ a ∈ l, (f a).length ≤ (g a).length) :
    l.flatMap f = l.flatMap g ↔ ∀ a ∈ l, f a = g a := by
  have hlength : ∀ l : List α, (∀ a ∈ l, (f a).length ≤ (g a).length) →
      (l.flatMap f).length ≤ (l.flatMap g).length := by
    intro l h
    induction l with
    | nil => exact Nat.le_refl 0
    | cons a l ih =>
      have hhead := h a List.mem_cons_self
      have htail := ih fun b hb => h b (List.mem_cons_of_mem a hb)
      rw [List.flatMap_cons, List.flatMap_cons, List.length_append, List.length_append]
      omega
  induction l with
  | nil => simp
  | cons a l ih =>
    have hhead := h a List.mem_cons_self
    have hrest : ∀ b ∈ l, (f b).length ≤ (g b).length := fun b hb =>
      h b (List.mem_cons_of_mem a hb)
    rw [List.flatMap_cons, List.flatMap_cons]
    constructor
    · intro heq
      -- the lengths add up to the same, and so each is the same
      have hsum := congrArg List.length heq
      rw [List.length_append, List.length_append] at hsum
      have htail := hlength l hrest
      obtain ⟨ha, hl⟩ := List.append_inj heq (by omega)
      exact List.forall_mem_cons.mpr ⟨ha, (ih hrest).mp hl⟩
    · intro hall
      obtain ⟨ha, hl⟩ := List.forall_mem_cons.mp hall
      rw [ha, (ih hrest).mpr hl]

end Zonix.Lib.Format
