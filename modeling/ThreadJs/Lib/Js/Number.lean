import Mathlib.Data.Int.Log
import Mathlib.Data.List.DropRight
import Mathlib.Data.Rat.Floor

/-!
Numbers of ECMAScript and the conversion of strings to them.

A number is a double, here by its value. `toNumber` is `StringToNumber`: white space
around the literal, prefixes of a radix, decimal literals with an exponent, and
rounding to the nearest double. The decimal numeral of a natural number below `2^53`
is converted to that number (`toNumber_toString`).
-/

namespace Js

/-- A number value. The two zeros compare alike and are one here. -/
inductive Number where
  | nan
  | infinity (negative : Bool)
  | finite (value : ℚ)

/-- `<`. -/
def Number.lt : Number → Number → Bool
  | .finite p, .finite q => p < q
  | .infinity negative, .finite _ => negative
  | .finite _, .infinity negative => !negative
  | .infinity negative, .infinity negative' => negative && !negative'
  | _, _ => false

/-- `>=`. -/
def Number.ge : Number → Number → Bool
  | .nan, _ | _, .nan => false
  | p, q => !p.lt q

/-! ### Rounding -/

/-- The nearest integer; of two, the even one. -/
def roundEven (q : ℚ) : ℤ :=
  if q - ⌊q⌋ < 1 / 2 then ⌊q⌋
  else if 1 / 2 < q - ⌊q⌋ then ⌊q⌋ + 1
  else if ⌊q⌋ % 2 = 0 then ⌊q⌋ else ⌊q⌋ + 1

/-- The exponent of the last bit of a double near `q`. -/
def ulpExponent (q : ℚ) : ℤ := max (Int.log 2 |q| - 52) (-1074)

/-- The double nearest to `q`. -/
def round (q : ℚ) : Number :=
  let r : ℚ := roundEven (q / 2 ^ ulpExponent q) * 2 ^ ulpExponent q
  if Int.log 2 |r| < 1024 then .finite r else .infinity (q < 0)

theorem roundEven_intCast (n : ℤ) : roundEven n = n := by
  simp [roundEven]

/-- The integers that a double can hold exactly. -/
theorem round_natCast {n : ℕ} (hn : n < 0x20000000000000) : round n = .finite n := by
  have log : Int.log 2 |(n : ℚ)| = Nat.log 2 n := by
    rw [Nat.abs_cast, Int.log_natCast]
  have small : Nat.log 2 n ≤ 52 := by
    by_contra large
    have pos : n ≠ 0 := by
      rintro rfl
      simp at large
    have := Nat.pow_le_of_le_log pos (by omega : 53 ≤ Nat.log 2 n)
    omega
  have exponent : ulpExponent n = -((52 - Nat.log 2 n : ℕ) : ℤ) := by
    rw [ulpExponent, log]
    omega
  -- Scaled by the last bit, `n` is an integer, which rounding leaves alone.
  have scaled : (n : ℚ) / 2 ^ ulpExponent n = ((n * 2 ^ (52 - Nat.log 2 n) : ℕ) : ℤ) := by
    rw [exponent, zpow_neg, div_inv_eq_mul, zpow_natCast]
    push_cast
    rfl
  have back : (roundEven ((n : ℚ) / 2 ^ ulpExponent n) : ℚ) * 2 ^ ulpExponent n = n := by
    rw [scaled, roundEven_intCast, ← scaled, div_mul_cancel₀]
    exact zpow_ne_zero _ two_ne_zero
  rw [round, back, log, if_pos]
  omega

/-! ### Strings -/

/-- White space and line terminators. -/
def isSpace (c : Char) : Bool :=
  c.toNat ∈ [0x9, 0xA, 0xB, 0xC, 0xD, 0x20, 0xA0, 0x1680, 0x180E, 0x2028, 0x2029, 0x202F, 0x205F,
    0x3000, 0xFEFF] || (0x2000 ≤ c.toNat && c.toNat ≤ 0x200A)

def trim (cs : List Char) : List Char :=
  (cs.dropWhile isSpace).rdropWhile isSpace

/-- The value of a digit of a radix up to 16. -/
def digitValue (c : Char) : ℕ :=
  if c.isDigit then c.toNat - '0'.toNat
  else if 'a' ≤ c ∧ c ≤ 'f' then c.toNat - 'a'.toNat + 10
  else if 'A' ≤ c ∧ c ≤ 'F' then c.toNat - 'A'.toNat + 10
  else 16

def radixLiteral (radix : ℕ) (cs : List Char) : Number :=
  if cs.isEmpty || cs.any (fun c => radix ≤ digitValue c) then .nan
  else round (cs.foldl (fun n c => n * radix + digitValue c) 0 : ℕ)

/-- An exponent part, or nothing. -/
def exponentPart : List Char → Option ℤ
  | [] => some 0
  | c :: cs =>
      if c = 'e' ∨ c = 'E' then
        let (negative, ds) := match cs with
          | '+' :: ds => (false, ds)
          | '-' :: ds => (true, ds)
          | ds => (false, ds)
        if ds.isEmpty || !ds.all Char.isDigit then none
        else some (if negative then -Nat.ofDigitChars 10 ds 0 else Nat.ofDigitChars 10 ds 0)
      else none

/-- A decimal literal without a sign, exactly. -/
def decimalLiteral (cs : List Char) : Number :=
  if cs = "Infinity".toList then .infinity false
  else
    let whole := cs.takeWhile Char.isDigit
    let (fraction, rest) := match cs.dropWhile Char.isDigit with
      | '.' :: rest => (rest.takeWhile Char.isDigit, rest.dropWhile Char.isDigit)
      | rest => ([], rest)
    match whole ++ fraction, exponentPart rest with
    | [], _ | _, none => .nan
    | digits, some e => .finite (Nat.ofDigitChars 10 digits 0 * 10 ^ (e - fraction.length))

def Number.neg : Number → Number
  | .nan => .nan
  | .infinity negative => .infinity (!negative)
  | .finite q => .finite (-q)

def Number.rounded : Number → Number
  | .finite q => round q
  | n => n

/-- `StringToNumber`. -/
def toNumber (s : String) : Number :=
  match trim s.toList with
  | [] => .finite 0
  | '0' :: 'x' :: cs | '0' :: 'X' :: cs => radixLiteral 16 cs
  | '0' :: 'o' :: cs | '0' :: 'O' :: cs => radixLiteral 8 cs
  | '0' :: 'b' :: cs | '0' :: 'B' :: cs => radixLiteral 2 cs
  | '+' :: cs => (decimalLiteral cs).rounded
  | '-' :: cs => (decimalLiteral cs).neg.rounded
  | cs => (decimalLiteral cs).rounded

/-! ### Numerals -/

theorem not_isSpace_of_isDigit {c : Char} (h : c.isDigit = true) : isSpace c = false := by
  have range : 48 ≤ c.toNat ∧ c.toNat ≤ 57 := by
    simp only [Char.isDigit, Bool.and_eq_true, decide_eq_true_eq] at h
    exact ⟨UInt32.le_iff_toNat_le.mp h.1, UInt32.le_iff_toNat_le.mp h.2⟩
  simp only [isSpace, List.mem_cons, List.not_mem_nil, or_false, Bool.or_eq_false_iff,
    Bool.and_eq_false_iff, decide_eq_false_iff_not]
  omega

theorem trim_digits {cs : List Char} (h : ∀ c ∈ cs, c.isDigit = true) : trim cs = cs := by
  have plain : ∀ c ∈ cs, ¬ isSpace c = true := fun c hc => by
    rw [not_isSpace_of_isDigit (h c hc)]
    nofun
  have front : cs.dropWhile isSpace = cs :=
    List.dropWhile_eq_self_iff.mpr fun _ => plain _ (List.getElem_mem _)
  rw [trim, front]
  exact List.rdropWhile_eq_self_iff.mpr fun hne => plain _ (List.getLast_mem hne)

theorem decimalLiteral_digits {cs : List Char} (h : ∀ c ∈ cs, c.isDigit = true) (hne : cs ≠ []) :
    decimalLiteral cs = .finite (Nat.ofDigitChars 10 cs 0) := by
  have notInfinity : cs ≠ "Infinity".toList := by
    rintro rfl
    exact absurd (h 'I' (by decide)) (by decide)
  have all : cs.takeWhile Char.isDigit = cs := List.takeWhile_eq_self_iff.mpr h
  have rest : cs.dropWhile Char.isDigit = [] := List.dropWhile_eq_nil_iff.mpr h
  rw [decimalLiteral, if_neg notInfinity]
  simp only [all, rest, List.append_nil, exponentPart, List.length_nil]
  cases cs with
  | nil => exact absurd rfl hne
  | cons c cs => simp

theorem isDigit_of_mem {n : ℕ} {c : Char} (h : c ∈ Nat.toDigits 10 n) : c.isDigit = true :=
  Nat.isDigit_of_mem_toDigits (by decide) (by decide) h

theorem toList_toString (n : ℕ) : (toString n).toList = Nat.toDigits 10 n := by
  rw [Nat.toString_eq_ofList_toDigits, String.toList_ofList]

theorem toString_ne_empty (n : ℕ) : toString n ≠ "" := by
  intro empty
  have digits := toList_toString n
  rw [empty] at digits
  exact Nat.toDigits_ne_nil digits.symm

/-- The numeral of a natural number is converted to the number. -/
theorem toNumber_toString {n : ℕ} (hn : n < 0x20000000000000) :
    toNumber (toString n) = .finite n := by
  have digits : ∀ c ∈ (toString n).toList, c.isDigit = true := by
    rw [toList_toString]
    exact fun c => isDigit_of_mem
  have value : Nat.ofDigitChars 10 (toString n).toList 0 = n := by
    rw [toList_toString, Nat.ofDigitChars_ten_toDigits]
  have some : (toString n).toList ≠ [] := by
    rw [toList_toString]
    exact Nat.toDigits_ne_nil
  have literal := decimalLiteral_digits digits some
  rw [value] at literal
  rw [toNumber, trim_digits digits]
  generalize (toString n).toList = cs at digits literal some
  -- No digit is a sign or the letter of a radix.
  have no : ∀ c ∈ cs, c ≠ 'x' ∧ c ≠ 'X' ∧ c ≠ 'o' ∧ c ≠ 'O' ∧ c ≠ 'b' ∧ c ≠ 'B' ∧
      c ≠ '+' ∧ c ≠ '-' := by
    intro c hc
    have digit := digits c hc
    refine ⟨?_, ?_, ?_, ?_, ?_, ?_, ?_, ?_⟩ <;> rintro rfl <;> cases digit
  split
  · exact absurd rfl some
  · exact absurd rfl (no _ (List.mem_cons_of_mem _ (List.mem_cons_self ..))).1
  · exact absurd rfl (no _ (List.mem_cons_of_mem _ (List.mem_cons_self ..))).2.1
  · exact absurd rfl (no _ (List.mem_cons_of_mem _ (List.mem_cons_self ..))).2.2.1
  · exact absurd rfl (no _ (List.mem_cons_of_mem _ (List.mem_cons_self ..))).2.2.2.1
  · exact absurd rfl (no _ (List.mem_cons_of_mem _ (List.mem_cons_self ..))).2.2.2.2.1
  · exact absurd rfl (no _ (List.mem_cons_of_mem _ (List.mem_cons_self ..))).2.2.2.2.2.1
  · exact absurd rfl (no _ (List.mem_cons_self ..)).2.2.2.2.2.2.1
  · exact absurd rfl (no _ (List.mem_cons_self ..)).2.2.2.2.2.2.2
  · rw [literal, Number.rounded, round_natCast hn]

end Js
