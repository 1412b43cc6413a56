import ThreadJs.Lib.Js.Number
import ThreadJs.Lib.Json.Chars
import ThreadJs.Lib.Json.Print

/-!
Integers in JSON texts.

* `natural` — the decimal numeral of a number, which has no leading zero.
* `toNat_natural` — the number comes back from it.
* `integerOf_integerText` — the same for integers.
-/

namespace JsonText

/-- Digits by themselves are a fraction part of no length. -/
theorem dropWhile_isDigit {us : List UInt16} (h : ∀ u ∈ us, isDigit u = true) :
    us.dropWhile isDigit = [] :=
  List.dropWhile_eq_nil_iff.mpr h

theorem isUnsigned_digits {d : UInt16} {us : List UInt16} (digit : isDigit d = true)
    (nonzero : d ≠ 0x30) (h : ∀ u ∈ us, isDigit u = true) : isUnsigned (d :: us) = true := by
  rw [isUnsigned, if_neg nonzero, digit, dropWhile_isDigit h]
  rfl

theorem isNumber_of_isUnsigned {us : List UInt16} (h : isUnsigned us = true) :
    isNumber us = true := by
  cases us with
  | nil => cases h
  | cons d us =>
      have noMinus : d ≠ 0x2D := by
        rintro rfl
        cases h
      rw [isNumber, if_neg noMinus, h]

theorem charUnits_digit {c : Char} (h : c.isDigit = true) :
    ∃ u, charUnits c = [u] ∧ isDigit u = true ∧ (c ≠ '0' → u ≠ 0x30) := by
  obtain ⟨low, high⟩ : 48 ≤ c.toNat ∧ c.toNat ≤ 57 := by
    simpa [Char.isDigit, UInt32.le_iff_toNat_le] using h
  have same : (UInt16.ofNat c.toNat).toNat = c.toNat :=
    UInt16.toNat_ofNat_of_lt' (Nat.lt_of_le_of_lt high (by decide))
  refine ⟨UInt16.ofNat c.toNat, if_pos (by omega), ?_, ?_⟩
  · simp only [isDigit, Bool.and_eq_true, decide_eq_true_eq, UInt16.le_iff_toNat_le, same]
    exact ⟨low, high⟩
  · intro other zero
    have code : c.toNat = 48 := same.symm.trans (congrArg UInt16.toNat zero)
    exact other (Char.toNat_inj.mp code)

theorem isDigit_units {cs : List Char} (h : ∀ c ∈ cs, c.isDigit = true) :
    ∀ u ∈ units cs, isDigit u = true := by
  intro u hu
  obtain ⟨c, hc, hu⟩ := List.mem_flatMap.mp hu
  obtain ⟨v, single, digit, -⟩ := charUnits_digit (h c hc)
  rw [single] at hu
  rwa [List.mem_singleton.mp hu]

/-- A numeral begins with a zero only if it is zero. -/
theorem exists_head_toDigits {n : ℕ} (pos : 0 < n) :
    ∃ c cs, Nat.toDigits 10 n = c :: cs ∧ c ≠ '0' := by
  induction n using Nat.strongRecOn with
  | _ n ih =>
      by_cases small : n < 10
      · have nonzero : ∀ d < 10, 0 < d → Nat.digitChar d ≠ '0' := by decide
        exact ⟨n.digitChar, [], Nat.toDigits_of_lt_base small, nonzero n small pos⟩
      · have large : 10 ≤ n := Nat.le_of_not_lt small
        obtain ⟨c, cs, front, nonzero⟩ :=
          ih (n / 10) (by omega) (by omega)
        refine ⟨c, cs ++ [(n % 10).digitChar], ?_, nonzero⟩
        rw [Nat.toDigits_of_base_le (by omega) large, front, List.cons_append]

theorem isUnsigned_toDigits (n : ℕ) : isUnsigned (units (Nat.toDigits 10 n)) = true := by
  rcases Nat.eq_zero_or_pos n with rfl | pos
  · rfl
  · obtain ⟨c, cs, digits, nonzero⟩ := exists_head_toDigits pos
    have all : ∀ c' ∈ c :: cs, c'.isDigit = true := fun c' hc' => Js.isDigit_of_mem (digits ▸ hc')
    obtain ⟨first, rest⟩ := List.forall_mem_cons.mp all
    obtain ⟨u, single, digit, other⟩ := charUnits_digit first
    rw [digits, units_cons, single, List.singleton_append]
    exact isUnsigned_digits digit (other nonzero) (isDigit_units rest)

theorem isNumber_toString (n : ℕ) : isNumber (units (toString n).toList) = true := by
  rw [Js.toList_toString]
  exact isNumber_of_isUnsigned (isUnsigned_toDigits n)

def natural (n : ℕ) : Numeral := ⟨(toString n).toList, isNumber_toString n⟩

/-- The value of a sequence of digits. -/
def toNat (w : List UInt16) : ℕ := Nat.ofDigitChars 10 (chars w) 0

theorem toNat_natural (n : ℕ) : toNat (units (natural n).text) = n := by
  have digits : (natural n).text = Nat.toDigits 10 n := Js.toList_toString n
  rw [toNat, chars_units, digits, Nat.ofDigitChars_ten_toDigits]

/-! ### Integers -/

/-- The numeral of an integer, with a sign in front of a negative one. -/
def integerText : ℤ → List Char
  | .ofNat n => Nat.toDigits 10 n
  | .negSucc n => '-' :: Nat.toDigits 10 (n + 1)

theorem isNumber_integerText (n : ℤ) : isNumber (units (integerText n)) = true := by
  cases n with
  | ofNat n => exact isNumber_of_isUnsigned (isUnsigned_toDigits n)
  | negSucc n => exact isUnsigned_toDigits (n + 1)

/-- The value of digits, which are at least one. -/
def digitsOf (w : List UInt16) : Option ℕ :=
  if w ≠ [] ∧ w.all isDigit = true then some (toNat w) else none

def integerOf : List UInt16 → Option ℤ
  | [] => none
  | u :: us => if u = 0x2D then (digitsOf us).map (-·) else (digitsOf (u :: us)).map (·)

theorem digitsOf_toDigits (n : ℕ) : digitsOf (units (Nat.toDigits 10 n)) = some n := by
  have digits : (units (Nat.toDigits 10 n)).all isDigit = true :=
    List.all_eq_true.mpr (isDigit_units fun c => Js.isDigit_of_mem)
  have some : units (Nat.toDigits 10 n) ≠ [] := by
    intro none
    have unsigned := isUnsigned_toDigits n
    rw [none] at unsigned
    cases unsigned
  rw [digitsOf, if_pos ⟨some, digits⟩, toNat, chars_units, Nat.ofDigitChars_ten_toDigits]

/-- An integer comes back from its numeral. -/
theorem integerOf_integerText (n : ℤ) : integerOf (units (integerText n)) = some n := by
  cases n with
  | ofNat n =>
      have value := digitsOf_toDigits n
      cases digits : units (Nat.toDigits 10 n) with
      | nil =>
          rw [digits] at value
          cases value
      | cons u us =>
          have noMinus : u ≠ 0x2D := by
            rintro rfl
            have digit := isDigit_units (fun c => Js.isDigit_of_mem) 0x2D
              (digits ▸ List.mem_cons_self)
            cases digit
          rw [integerText, digits, integerOf, if_neg noMinus, ← digits, value]
          rfl
  | negSucc n =>
      have minus : units ('-' :: Nat.toDigits 10 (n + 1)) =
          0x2D :: units (Nat.toDigits 10 (n + 1)) := rfl
      rw [integerText, minus, integerOf, if_pos rfl, digitsOf_toDigits]
      rfl

end JsonText
