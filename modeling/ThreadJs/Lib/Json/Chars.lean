import ThreadJs.Lib.Json.Lex

/-!
Code units read as characters.

* `chars_units` — the characters come back from their units, so that `units` is injective.
-/

namespace JsonText

/-- The character of a unit by itself; for half a pair it is U+FFFD. -/
def unitChar (u : UInt16) : Char :=
  if 0xD800 ≤ u.toNat ∧ u.toNat < 0xE000 then '\ufffd' else Char.ofNat u.toNat

/-- The two units are a pair. -/
def isPair (u v : UInt16) : Bool :=
  0xD800 ≤ u.toNat && u.toNat < 0xDC00 && 0xDC00 ≤ v.toNat && v.toNat < 0xE000

def pairChar (u v : UInt16) : Char :=
  Char.ofNat (0x10000 + (u.toNat - 0xD800) * 0x400 + (v.toNat - 0xDC00))

def chars : List UInt16 → List Char
  | [] => []
  | [u] => [unitChar u]
  | u :: v :: us =>
      if isPair u v then pairChar u v :: chars us else unitChar u :: chars (v :: us)

theorem chars_cons {u : UInt16} (single : u.toNat < 0xD800 ∨ 0xE000 ≤ u.toNat)
    (us : List UInt16) : chars (u :: us) = Char.ofNat u.toNat :: chars us := by
  have alone : unitChar u = Char.ofNat u.toNat := if_neg (by omega)
  cases us with
  | nil => exact congrArg (· :: []) alone
  | cons v us =>
      have noPair : isPair u v ≠ true := by
        intro pair
        simp only [isPair, Bool.and_eq_true, decide_eq_true_eq] at pair
        omega
      rw [chars, if_neg noPair, alone]

theorem chars_charUnits (c : Char) (us : List UInt16) :
    chars (charUnits c ++ us) = c :: chars us := by
  have valid : c.toNat < 0xD800 ∨ 0xDFFF < c.toNat ∧ c.toNat < 0x110000 := c.valid
  unfold charUnits
  split
  · next small =>
      have same : (UInt16.ofNat c.toNat).toNat = c.toNat := UInt16.toNat_ofNat_of_lt' small
      have single := chars_cons (u := UInt16.ofNat c.toNat) (by omega) us
      rw [same, Char.ofNat_toNat] at single
      exact single
  · next large =>
      have high : (UInt16.ofNat (0xD800 + (c.toNat - 0x10000) / 0x400)).toNat =
          0xD800 + (c.toNat - 0x10000) / 0x400 :=
        UInt16.toNat_ofNat_of_lt' (by unfold UInt16.size; omega)
      have low : (UInt16.ofNat (0xDC00 + (c.toNat - 0x10000) % 0x400)).toNat =
          0xDC00 + (c.toNat - 0x10000) % 0x400 :=
        UInt16.toNat_ofNat_of_lt' (by unfold UInt16.size; omega)
      have pair : isPair (UInt16.ofNat (0xD800 + (c.toNat - 0x10000) / 0x400))
          (UInt16.ofNat (0xDC00 + (c.toNat - 0x10000) % 0x400)) = true := by
        simp only [isPair, Bool.and_eq_true, decide_eq_true_eq, high, low]
        omega
      have whole : 0x10000 + (0xD800 + (c.toNat - 0x10000) / 0x400 - 0xD800) * 0x400 +
          (0xDC00 + (c.toNat - 0x10000) % 0x400 - 0xDC00) = c.toNat := by omega
      rw [List.cons_append, List.singleton_append, chars, if_pos pair, pairChar, high, low, whole,
        Char.ofNat_toNat]

/-- A text comes back from its units. -/
theorem chars_units (cs : List Char) : chars (units cs) = cs := by
  induction cs with
  | nil => rfl
  | cons c cs ih => rw [units_cons, chars_charUnits, ih]

theorem units_injective : Function.Injective units :=
  Function.LeftInverse.injective chars_units

end JsonText
