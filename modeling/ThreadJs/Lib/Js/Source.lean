import ThreadJs.Lib.Json.Lex

/-!
Program text that consists of calls `f(a, b, …);` with literals as arguments, over
UTF-16 code units.

`literal` reads a string literal with all its escapes, `lex` the tokens and `program` the
statements. Operators, comments and regular expressions are not in this part of the grammar.

* `literal_plain` — a text without special units is read as itself.
* `literal_cases` — a text with special units in front of a quote is read as something else, or
  takes the quote with it.
* `scan_extends` — what has been read of a statement is not taken back.
-/

namespace Js.Source

open JsonText (hexDigit isNumber units)

/-! ### String literals -/

/-- `LineTerminator` -/
def isLineTerminator (u : UInt16) : Bool := u == 0x0A || u == 0x0D || u == 0x2028 || u == 0x2029

/-- A unit that a string literal in double quotes does not hold as itself. -/
def Special (u : UInt16) : Prop := u = 0x22 ∨ u = 0x5C ∨ isLineTerminator u = true

instance : DecidablePred Special := fun u =>
  inferInstanceAs (Decidable (u = 0x22 ∨ u = 0x5C ∨ isLineTerminator u = true))

def Plain (us : List UInt16) : Prop := ∀ u ∈ us, ¬ Special u

instance : DecidablePred Plain := fun us =>
  decidable_of_iff ((us.all fun u => !decide (Special u)) = true)
    (by simp only [List.all_eq_true, Bool.not_eq_true', decide_eq_false_iff_not, Plain])

def isHex (u : UInt16) : Bool := (hexDigit u).isSome

def isOctal (u : UInt16) : Bool := 0x30 ≤ u && u ≤ 0x37

/-- The value of hexadecimal digits. -/
def hexNumber (ds : List UInt16) : ℕ := ds.foldl (fun n d => 16 * n + (hexDigit d).getD 0) 0

def octalNumber (ds : List UInt16) : ℕ := ds.foldl (fun n d => 8 * n + (d.toNat - 0x30)) 0

/-- `UTF16Encoding` -/
def utf16 (n : ℕ) : List UInt16 :=
  if n < 0x10000 then [UInt16.ofNat n]
  else [UInt16.ofNat (0xD800 + (n - 0x10000) / 0x400),
        UInt16.ofNat (0xDC00 + (n - 0x10000) % 0x400)]

/-- So many hexadecimal digits. -/
def hexEscape (count : ℕ) (us : List UInt16) : Option (List UInt16 × List UInt16) :=
  if (us.take count).length = count ∧ (us.take count).all isHex = true then
    some ([UInt16.ofNat (hexNumber (us.take count))], us.drop count)
  else none

/-- Behind `\u`: four digits, or digits in braces. -/
def unicodeEscape (us : List UInt16) : Option (List UInt16 × List UInt16) :=
  if us.head? = some 0x7B then
    let ds := us.tail.takeWhile isHex
    match us.tail.dropWhile isHex with
    | [] => none
    | u :: rest =>
        if ds ≠ [] ∧ hexNumber ds ≤ 0x10FFFF ∧ u = 0x7D then some (utf16 (hexNumber ds), rest)
        else none
  else hexEscape 4 us

/-- The digits of an octal escape, at most three of them and a value of one byte. -/
def octalDigits (us : List UInt16) : List UInt16 :=
  (us.take (if us.head?.any (· ≤ 0x33) then 3 else 2)).takeWhile isOctal

/-- A character that is escaped by itself. -/
def singleEscape (u : UInt16) : UInt16 :=
  if u = 0x62 then 0x08
  else if u = 0x74 then 0x09
  else if u = 0x6E then 0x0A
  else if u = 0x76 then 0x0B
  else if u = 0x66 then 0x0C
  else if u = 0x72 then 0x0D
  else u

/-- What an escape stands for, and what is behind it; the text begins behind the backslash. -/
def escape : List UInt16 → Option (List UInt16 × List UInt16)
  | [] => none
  | u :: us =>
      -- A line continuation stands for nothing.
      if u = 0x0D ∧ us.head? = some 0x0A then some ([], us.tail)
      else if isLineTerminator u then some ([], us)
      else if u = 0x78 then hexEscape 2 us
      else if u = 0x75 then unicodeEscape us
      else if isOctal u then
        some ([UInt16.ofNat (octalNumber (octalDigits (u :: us)))],
          (u :: us).drop (octalDigits (u :: us)).length)
      else some ([singleEscape u], us)

/-- What a part of an escape has taken: no quote, and all but one of what it stands for. -/
structure Taken (us v rest used : List UInt16) : Prop where
  split : us = used ++ rest
  length : v.length ≤ used.length + 1
  quote : 0x22 ∉ used

/-- An escape is not shorter than what it stands for, and takes a quote only as the character
that is escaped. -/
structure Escaped (us v rest used : List UInt16) : Prop where
  split : us = used ++ rest
  length : v.length ≤ used.length
  quote : 0x22 ∈ used → used = [0x22]

theorem Taken.escaped {u : UInt16} {us v rest used : List UInt16} (h : Taken us v rest used)
    (letter : u ≠ 0x22) : Escaped (u :: us) v rest (u :: used) where
  split := by rw [h.split, List.cons_append]
  length := h.length
  quote := by
    intro quote
    rcases List.mem_cons.mp quote with same | quote
    · exact absurd same.symm letter
    · exact absurd quote h.quote

theorem notMem_of_all {us : List UInt16} {p : UInt16 → Bool} (all : us.all p = true) {u : UInt16}
    (h : p u = false) : u ∉ us := by
  intro member
  have holds := List.all_eq_true.mp all u member
  rw [h] at holds
  cases holds

theorem taken_hexEscape {count : ℕ} {us v rest : List UInt16}
    (h : hexEscape count us = some (v, rest)) : Taken us v rest (us.take count) := by
  obtain ⟨⟨-, hex⟩, h⟩ := Option.ite_none_right_eq_some.mp h
  obtain ⟨rfl, rfl⟩ := Prod.mk.inj (Option.some.inj h)
  exact ⟨(List.take_append_drop count us).symm, by simp, notMem_of_all hex rfl⟩

theorem length_utf16 (n : ℕ) : (utf16 n).length ≤ 2 := by
  rw [utf16]
  split
  · exact Nat.le_succ 1
  · exact Nat.le_refl 2

theorem taken_unicodeEscape {us v rest : List UInt16} (h : unicodeEscape us = some (v, rest)) :
    ∃ used, Taken us v rest used := by
  rw [unicodeEscape] at h
  split at h
  · next brace =>
      obtain ⟨tail, rfl⟩ := List.head?_eq_some_iff.mp brace
      simp only [List.tail_cons] at h
      have whole := List.takeWhile_append_dropWhile (p := isHex) (l := tail)
      cases behind : tail.dropWhile isHex with
      | nil =>
          rw [behind] at h
          cases h
      | cons u rest' =>
          rw [behind] at h whole
          obtain ⟨⟨-, -, rfl⟩, taken⟩ := Option.ite_none_right_eq_some.mp h
          obtain ⟨rfl, rfl⟩ := Prod.mk.inj (Option.some.inj taken)
          have noQuote : 0x22 ∉ tail.takeWhile isHex := notMem_of_all List.all_takeWhile rfl
          refine ⟨0x7B :: tail.takeWhile isHex ++ [0x7D], ?_, ?_, ?_⟩
          · conv_lhs => rw [← whole]
            simp
          · have := length_utf16 (hexNumber (tail.takeWhile isHex))
            simp only [List.cons_append, List.length_cons, List.length_append, List.length_nil]
            omega
          · simp [noQuote]
  · exact ⟨_, taken_hexEscape h⟩

/-- The first of the octal digits, and the others. -/
theorem octalDigits_cons {u : UInt16} (digit : isOctal u = true) (us : List UInt16) :
    ∃ ds rest, octalDigits (u :: us) = u :: ds ∧ us = ds ++ rest ∧ ds.all isOctal = true := by
  have more : ∀ count, ∃ ds rest, ((u :: us).take (count + 1)).takeWhile isOctal = u :: ds ∧
      us = ds ++ rest ∧ ds.all isOctal = true := by
    intro count
    obtain ⟨rest, split⟩ := (List.takeWhile_prefix isOctal).trans (List.take_prefix count us)
    refine ⟨(us.take count).takeWhile isOctal, rest, ?_, split.symm, List.all_takeWhile⟩
    rw [List.take_succ_cons, List.takeWhile_cons_of_pos digit]
  rw [octalDigits]
  split
  · exact more 2
  · exact more 1

theorem escaped_escape {us v rest : List UInt16} (h : escape us = some (v, rest)) :
    ∃ used, Escaped us v rest used := by
  cases us with
  | nil => cases h
  | cons u us =>
      have none : Taken us [] us [] := ⟨rfl, Nat.zero_le _, by simp⟩
      rw [escape] at h
      split at h
      · next newLine =>
          obtain ⟨rfl, feed⟩ := newLine
          obtain ⟨tail, rfl⟩ := List.head?_eq_some_iff.mp feed
          obtain ⟨rfl, rfl⟩ := Prod.mk.inj (Option.some.inj h)
          have feedTaken : Taken (0x0A :: tail) [] tail [0x0A] := ⟨rfl, by simp, by simp⟩
          exact ⟨_, feedTaken.escaped (by decide)⟩
      · split at h
        · next newLine =>
            obtain ⟨rfl, rfl⟩ := Prod.mk.inj (Option.some.inj h)
            refine ⟨_, none.escaped ?_⟩
            rintro rfl
            cases newLine
        · split at h
          · next letter =>
              subst letter
              exact ⟨_, (taken_hexEscape h).escaped (by decide)⟩
          · split at h
            · next letter =>
                subst letter
                obtain ⟨used, taken⟩ := taken_unicodeEscape h
                exact ⟨_, taken.escaped (by decide)⟩
            · split at h
              · next digit =>
                  obtain ⟨ds, behind, digits, whole, octal⟩ := octalDigits_cons digit us
                  have left : (u :: us).drop (u :: ds).length = behind := by
                    rw [whole]
                    simp
                  rw [digits, left] at h
                  obtain ⟨rfl, rfl⟩ := Prod.mk.inj (Option.some.inj h)
                  have taken : Taken us [UInt16.ofNat (octalNumber (u :: ds))] behind ds :=
                    ⟨whole, by simp, notMem_of_all octal rfl⟩
                  refine ⟨_, taken.escaped ?_⟩
                  rintro rfl
                  cases digit
              · obtain ⟨rfl, rfl⟩ := Prod.mk.inj (Option.some.inj h)
                refine ⟨[u], rfl, Nat.le_refl 1, ?_⟩
                intro quote
                rw [← List.mem_singleton.mp quote]

theorem escape_length {us v rest : List UInt16} (h : escape us = some (v, rest)) :
    rest.length ≤ us.length := by
  obtain ⟨used, taken⟩ := escaped_escape h
  rw [taken.split, List.length_append]
  exact Nat.le_add_left _ _

/-- A string literal in double quotes and what is behind it; the text begins behind the first
quote. -/
def literal : List UInt16 → Option (List UInt16 × List UInt16)
  | [] => none
  | u :: us =>
      if u = 0x22 then some ([], us)
      else if u = 0x5C then
        match _h : escape us with
        | none => none
        | some (v, rest) => (literal rest).map fun r => (v ++ r.1, r.2)
      else if isLineTerminator u then none
      else (literal us).map fun r => (u :: r.1, r.2)
termination_by us => us.length
decreasing_by
  · have := escape_length _h
    simp only [List.length_cons]
    omega
  · simp

/-! ### What a literal says -/

section Literal

variable {us v rest : List UInt16}

theorem literal_quote : literal (0x22 :: us) = some ([], us) := by
  rw [literal, if_pos rfl]

theorem literal_escape : literal (0x5C :: us) =
    (escape us).bind fun e => (literal e.2).map fun r => (e.1 ++ r.1, r.2) := by
  rw [literal, if_neg (by decide), if_pos rfl]
  split
  · next none => rw [none, Option.bind_none]
  · next e => rw [e, Option.bind_some]

theorem literal_newLine {u : UInt16} (newLine : isLineTerminator u = true) :
    literal (u :: us) = none := by
  have notQuote : u ≠ 0x22 := by
    rintro rfl
    cases newLine
  have notBackslash : u ≠ 0x5C := by
    rintro rfl
    cases newLine
  rw [literal, if_neg notQuote, if_neg notBackslash, if_pos newLine]

theorem literal_cons {u : UInt16} (plain : ¬ Special u) :
    literal (u :: us) = (literal us).map fun r => (u :: r.1, r.2) := by
  obtain ⟨quote, backslash, newLine⟩ : u ≠ 0x22 ∧ u ≠ 0x5C ∧ ¬ isLineTerminator u = true := by
    simpa only [Special, not_or] using plain
  rw [literal, if_neg quote, if_neg backslash, if_neg newLine]

/-- A plain text up to the quote is the text of the literal. -/
theorem literal_plain {w : List UInt16} (plain : Plain w) (us : List UInt16) :
    literal (w ++ 0x22 :: us) = some (w, us) := by
  induction w with
  | nil => exact literal_quote
  | cons u w ih =>
      obtain ⟨first, others⟩ := List.forall_mem_cons.mp plain
      rw [List.cons_append, literal_cons first, ih others, Option.map_some]

/-- A line that ends before the literal does. -/
theorem literal_unclosed {w : List UInt16} (plain : Plain w) {u : UInt16}
    (newLine : isLineTerminator u = true) : literal (w ++ u :: us) = none := by
  induction w with
  | nil => exact literal_newLine newLine
  | cons d w ih =>
      obtain ⟨first, others⟩ := List.forall_mem_cons.mp plain
      rw [List.cons_append, literal_cons first, ih others, Option.map_none]

theorem literal_length (h : literal us = some (v, rest)) : rest.length < us.length := by
  induction us using literal.induct generalizing v rest with
  | case1 => simp [literal] at h
  | case2 us =>
      rw [literal_quote] at h
      obtain ⟨-, rfl⟩ := Prod.mk.inj (Option.some.inj h)
      exact Nat.lt_succ_self _
  | case3 us refused _ =>
      rw [literal_escape, refused] at h
      cases h
  | case4 us e rest' escaped _ ih =>
      rw [literal_escape, escaped, Option.bind_some] at h
      obtain ⟨r, read, eq⟩ := Option.map_eq_some_iff.mp h
      obtain ⟨-, rfl⟩ := Prod.mk.inj eq
      have later := ih read
      have before := escape_length escaped
      simp only [List.length_cons]
      omega
  | case5 u us _ _ newLine =>
      rw [literal_newLine newLine] at h
      cases h
  | case6 u us quote backslash newLine ih =>
      have plain : ¬ Special u := by
        rintro (rfl | rfl | isNewLine)
        · exact quote rfl
        · exact backslash rfl
        · exact newLine isNewLine
      rw [literal_cons plain] at h
      obtain ⟨r, read, eq⟩ := Option.map_eq_some_iff.mp h
      obtain ⟨-, rfl⟩ := Prod.mk.inj eq
      exact Nat.lt_succ_of_lt (ih read)

/-- An escape ends inside the text in front of a quote, or the quote is what it escapes. -/
theorem escape_cases {w more e behind : List UInt16}
    (h : escape (w ++ 0x22 :: more) = some (e, behind)) :
    (∃ used w', w = used ++ w' ∧ behind = w' ++ 0x22 :: more ∧ e.length ≤ used.length) ∨
      w = [] ∧ e = [0x22] ∧ behind = more := by
  cases w with
  | nil =>
      obtain ⟨rfl, rfl⟩ := Prod.mk.inj (Option.some.inj h)
      exact .inr ⟨rfl, rfl, rfl⟩
  | cons u w =>
      obtain ⟨used, taken⟩ := escaped_escape h
      refine .inl ?_
      rcases List.append_eq_append_iff.mp taken.split
        with ⟨extra, beyond, split⟩ | ⟨w', whole, split⟩
      · cases extra with
        | nil =>
            rw [List.append_nil] at beyond
            refine ⟨used, [], ?_, split.symm, taken.length⟩
            rw [beyond, List.append_nil]
        | cons d extra =>
            obtain ⟨rfl, -⟩ := List.cons.inj split
            have alone := taken.quote (by simp [beyond])
            rw [alone] at beyond
            simp at beyond
      · exact ⟨used, w', whole, split, taken.length⟩

/-- A text in front of a quote is read as it is, or as a shorter one, or a backslash at its end
takes the quote for a part of the literal. -/
theorem literal_cases {w more : List UInt16} (h : literal (w ++ 0x22 :: more) = some (v, rest)) :
    (Plain w ∧ v = w ∧ rest = more) ∨ v.length < w.length ∨
      (∃ front, w = front ++ [0x5C]) ∧
        ∃ v₁ v₂, literal more = some (v₂, rest) ∧ v = v₁ ++ 0x22 :: v₂ := by
  induction length : w.length using Nat.strongRecOn generalizing w v rest with
  | _ n ih =>
      cases w with
      | nil =>
          rw [List.nil_append, literal_quote] at h
          obtain ⟨rfl, rfl⟩ := Prod.mk.inj (Option.some.inj h)
          exact .inl ⟨by simp [Plain], rfl, rfl⟩
      | cons u w =>
          rw [List.length_cons] at length
          rw [List.cons_append] at h
          by_cases special : Special u
          · rcases special with rfl | rfl | newLine
            · -- The literal ends before the text does.
              rw [literal_quote] at h
              obtain ⟨rfl, rfl⟩ := Prod.mk.inj (Option.some.inj h)
              exact .inr (.inl (by simp [← length]))
            · rw [literal_escape] at h
              obtain ⟨⟨e, behind⟩, escaped, h⟩ := Option.bind_eq_some_iff.mp h
              obtain ⟨⟨v', rest'⟩, read, eq⟩ := Option.map_eq_some_iff.mp h
              obtain ⟨rfl, rfl⟩ := Prod.mk.inj eq
              rcases escape_cases escaped with ⟨used, w', rfl, rfl, shorter⟩ | ⟨rfl, rfl, rfl⟩
              · rw [List.length_append] at length
                rcases ih w'.length (by omega) read rfl
                  with ⟨-, rfl, -⟩ | less | ⟨⟨front, rfl⟩, taken⟩
                · refine .inr (.inl ?_)
                  simp only [List.length_append]
                  omega
                · refine .inr (.inl ?_)
                  simp only [List.length_append]
                  omega
                · obtain ⟨v₁, v₂, later, rfl⟩ := taken
                  refine .inr (.inr ⟨⟨0x5C :: used ++ front, by simp⟩, e ++ v₁, v₂, later, ?_⟩)
                  exact (List.append_assoc _ _ _).symm
              · -- The escape has taken the quote.
                exact .inr (.inr ⟨⟨[], rfl⟩, [], v', read, rfl⟩)
            · rw [literal_newLine newLine] at h
              cases h
          · rw [literal_cons special] at h
            obtain ⟨⟨v', rest'⟩, read, eq⟩ := Option.map_eq_some_iff.mp h
            obtain ⟨rfl, rfl⟩ := Prod.mk.inj eq
            rcases ih w.length (by omega) read rfl
              with ⟨others, rfl, rfl⟩ | less | ⟨⟨front, rfl⟩, taken⟩
            · exact .inl ⟨List.forall_mem_cons.mpr ⟨special, others⟩, rfl, rfl⟩
            · refine .inr (.inl ?_)
              simp only [List.length_cons]
              omega
            · obtain ⟨v₁, v₂, later, rfl⟩ := taken
              exact .inr (.inr ⟨⟨u :: front, rfl⟩, u :: v₁, v₂, later, rfl⟩)

end Literal

/-! ### Tokens -/

inductive Token where
  /-- A name, a number or an operator that is a part of a number. -/
  | word (w : List UInt16)
  | string (s : List UInt16)
  | punctuator (u : UInt16)
  deriving DecidableEq

/-- White space and line terminators. -/
def isSpace (u : UInt16) : Bool :=
  u ∈ [0x09, 0x0A, 0x0B, 0x0C, 0x0D, 0x20, 0xA0, 0x2028, 0x2029, 0xFEFF]

/-- `(`, `)`, `,` and `;` -/
def isPunctuator (u : UInt16) : Bool := u ∈ [0x28, 0x29, 0x2C, 0x3B]

/-- A unit of a name. -/
def isNameUnit (u : UInt16) : Bool :=
  (0x30 ≤ u && u ≤ 0x39) || (0x41 ≤ u && u ≤ 0x5A) || (0x61 ≤ u && u ≤ 0x7A) ||
    u == 0x5F || u == 0x24

/-- A unit of a name or of a number with its sign. -/
def isWordUnit (u : UInt16) : Bool := isNameUnit u || u == 0x2E || u == 0x2B || u == 0x2D

def lex : List UInt16 → Option (List Token)
  | [] => some []
  | u :: us =>
      if isSpace u then lex us
      else if isPunctuator u then (lex us).map (.punctuator u :: ·)
      else if u = 0x22 then
        match _h : literal us with
        | none => none
        | some (s, rest) => (lex rest).map (.string s :: ·)
      else if isWordUnit u then
        (lex (us.dropWhile isWordUnit)).map (.word (u :: us.takeWhile isWordUnit) :: ·)
      else none
termination_by us => us.length
decreasing_by
  · simp
  · simp
  · have := literal_length _h
    simp only [List.length_cons]
    omega
  · have := (List.dropWhile_sublist isWordUnit (l := us)).length_le
    simp only [List.length_cons]
    omega

section Lex

variable {us : List UInt16}

theorem lex_nil : lex [] = some [] := by rw [lex]

theorem lex_space {u : UInt16} (space : isSpace u = true) : lex (u :: us) = lex us := by
  rw [lex, if_pos space]

theorem lex_blank {blank : List UInt16} (spaces : blank.all isSpace = true) :
    lex (blank ++ us) = lex us := by
  induction blank with
  | nil => rfl
  | cons u blank ih =>
      obtain ⟨first, others⟩ := Bool.and_eq_true_iff.mp spaces
      rw [List.cons_append, lex_space first, ih others]

theorem lex_punctuator {u : UInt16} (punctuator : isPunctuator u = true) :
    lex (u :: us) = (lex us).map (.punctuator u :: ·) := by
  have all : ∀ d ∈ [0x28, 0x29, 0x2C, 0x3B], isSpace d = false := by simp [isSpace]
  have notSpace := all u (of_decide_eq_true punctuator)
  rw [lex, if_neg (by simp [notSpace]), if_pos punctuator]

theorem lex_string : lex (0x22 :: us) =
    (literal us).bind fun r => (lex r.2).map (.string r.1 :: ·) := by
  rw [lex, if_neg (by decide), if_neg (by decide), if_pos rfl]
  split
  · next none => rw [none, Option.bind_none]
  · next read => rw [read, Option.bind_some]

/-- No word begins with the beginning of another token. -/
theorem begins_word {u : UInt16} (word : isWordUnit u = true) :
    isSpace u = false ∧ isPunctuator u = false ∧ u ≠ 0x22 := by
  have spaces : ∀ d ∈ [0x09, 0x0A, 0x0B, 0x0C, 0x0D, 0x20, 0xA0, 0x2028, 0x2029, 0xFEFF],
      isWordUnit d = false := by simp [isWordUnit, isNameUnit]
  have punctuators : ∀ d ∈ [0x28, 0x29, 0x2C, 0x3B], isWordUnit d = false := by
    simp [isWordUnit, isNameUnit]
  refine ⟨?_, ?_, ?_⟩
  · by_contra space
    have none := spaces u (of_decide_eq_true (Bool.not_eq_false _ ▸ space))
    rw [word] at none
    cases none
  · by_contra punctuator
    have none := punctuators u (of_decide_eq_true (Bool.not_eq_false _ ▸ punctuator))
    rw [word] at none
    cases none
  · rintro rfl
    cases word

/-- A word in front of something else. -/
theorem lex_word {w : List UInt16} (nonempty : w ≠ []) (word : w.all isWordUnit = true)
    {u : UInt16} (ends : isWordUnit u = false) :
    lex (w ++ u :: us) = (lex (u :: us)).map (.word w :: ·) := by
  cases w with
  | nil => exact absurd rfl nonempty
  | cons d w =>
      obtain ⟨first, others⟩ := Bool.and_eq_true_iff.mp word
      have rest : (w ++ u :: us).dropWhile isWordUnit = u :: us := by
        rw [List.dropWhile_append_of_pos (List.all_eq_true.mp others),
          List.dropWhile_cons_of_neg (by simp [ends])]
      have taken : (w ++ u :: us).takeWhile isWordUnit = w := by
        rw [List.takeWhile_append_of_pos (List.all_eq_true.mp others),
          List.takeWhile_cons_of_neg (by simp [ends]), List.append_nil]
      obtain ⟨notSpace, notPunctuator, notQuote⟩ := begins_word first
      rw [List.cons_append, lex, if_neg (by simp [notSpace]), if_neg (by simp [notPunctuator]),
        if_neg notQuote, if_pos first, rest, taken]

end Lex

/-! ### Statements -/

inductive Literal where
  | null
  | boolean (b : Bool)
  /-- A number, as it is written. -/
  | number (w : List UInt16)
  | infinity (negative : Bool)
  | nan
  | string (s : List UInt16)
  deriving DecidableEq

structure Call where
  callee : List UInt16
  args : List Literal
  deriving DecidableEq

def wordLiteral (w : List UInt16) : Option Literal :=
  if w = units "null".toList then some .null
  else if w = units "true".toList then some (.boolean true)
  else if w = units "false".toList then some (.boolean false)
  else if w = units "Infinity".toList then some (.infinity false)
  else if w = units "-Infinity".toList then some (.infinity true)
  else if w = units "NaN".toList then some .nan
  else if isNumber w then some (.number w)
  else none

def Token.literal : Token → Option Literal
  | .word w => wordLiteral w
  | .string s => some (.string s)
  | .punctuator _ => none

inductive Place where
  /-- Between statements. -/
  | start
  | callee (f : List UInt16)
  /-- Behind the opening parenthesis. -/
  | first (f : List UInt16)
  /-- Behind a comma. -/
  | argument (f : List UInt16) (args : List Literal)
  /-- Behind an argument. -/
  | behind (f : List UInt16) (args : List Literal)
  /-- Behind the closing parenthesis. -/
  | close

def isName (w : List UInt16) : Bool := w.all isNameUnit && !w.head?.any JsonText.isDigit

def Place.step (r : List Call × Place) (t : Token) : Option (List Call × Place) :=
  match r.2 with
  | .start =>
      match t with
      | .word f => if isName f then some (r.1, .callee f) else none
      | _ => none
  | .callee f => if t = .punctuator 0x28 then some (r.1, .first f) else none
  | .first f =>
      if t = .punctuator 0x29 then some (r.1 ++ [⟨f, []⟩], .close)
      else t.literal.map fun l => (r.1, .behind f [l])
  | .argument f args => t.literal.map fun l => (r.1, .behind f (args ++ [l]))
  | .behind f args =>
      if t = .punctuator 0x2C then some (r.1, .argument f args)
      else if t = .punctuator 0x29 then some (r.1 ++ [⟨f, args⟩], .close)
      else none
  | .close => if t = .punctuator 0x3B then some (r.1, .start) else none

/-- A text is read from a place on. -/
def scan (r : List Call × Place) (text : List UInt16) : Option (List Call × Place) :=
  (lex text).bind fun ts => ts.foldlM Place.step r

/-- The calls of a program, in their order. -/
def program (text : List UInt16) : Option (List Call) :=
  (scan ([], .start) text).bind fun r =>
    match r.2 with
    | .start => some r.1
    | _ => none

theorem program_eq_some {text : List UInt16} {calls : List Call} :
    program text = some calls ↔ scan ([], .start) text = some (calls, .start) := by
  rw [program]
  cases scan ([], .start) text with
  | none => simp
  | some r =>
      obtain ⟨done, place⟩ := r
      cases place <;> simp

section Scan

variable {r : List Call × Place} {us : List UInt16}

theorem scan_nil : scan r [] = some r := by
  rw [scan, lex_nil]
  rfl

theorem scan_blank {blank : List UInt16} (spaces : blank.all isSpace = true) :
    scan r (blank ++ us) = scan r us := by
  rw [scan, lex_blank spaces, scan]

/-- A token in front of a text. -/
theorem scan_token {text : List UInt16} {t : Token} (lexed : lex text = (lex us).map (t :: ·)) :
    scan r text = (Place.step r t).bind fun r' => scan r' us := by
  rw [scan, lexed]
  cases rest : lex us with
  | none => simp [scan, rest]
  | some ts => simp [scan, rest, List.foldlM_cons]

theorem scan_punctuator {u : UInt16} (punctuator : isPunctuator u = true) :
    scan r (u :: us) = (Place.step r (.punctuator u)).bind fun r' => scan r' us :=
  scan_token (lex_punctuator punctuator)

theorem scan_word {w : List UInt16} (nonempty : w ≠ []) (word : w.all isWordUnit = true)
    {u : UInt16} (ends : isWordUnit u = false) :
    scan r (w ++ u :: us) = (Place.step r (.word w)).bind fun r' => scan r' (u :: us) :=
  scan_token (lex_word nonempty word ends)

theorem scan_string : scan r (0x22 :: us) =
    (literal us).bind fun l => (Place.step r (.string l.1)).bind fun r' => scan r' l.2 := by
  cases read : literal us with
  | none => rw [scan, lex_string, read, Option.bind_none, Option.bind_none, Option.bind_none]
  | some l =>
      rw [Option.bind_some]
      refine scan_token ?_
      rw [lex_string, read, Option.bind_some]

end Scan

/-- What has been read is a part of the calls. -/
def Place.Extends (r : List Call × Place) (calls : List Call) : Prop :=
  match r.2 with
  | .start | .close => r.1 <+: calls
  | .callee f | .first f => ∃ args rest, calls = r.1 ++ ⟨f, args⟩ :: rest
  | .argument f args | .behind f args => ∃ more rest, calls = r.1 ++ ⟨f, args ++ more⟩ :: rest

theorem Place.Extends.of_step {r r' : List Call × Place} {t : Token} {calls : List Call}
    (h : Place.Extends r' calls) (hs : Place.step r t = some r') : Place.Extends r calls := by
  obtain ⟨done, place⟩ := r
  cases place with
  | start =>
      cases t with
      | word f =>
          obtain ⟨-, hs⟩ := Option.ite_none_right_eq_some.mp hs
          obtain rfl := Option.some.inj hs
          obtain ⟨args, rest, rfl⟩ := h
          exact List.prefix_append _ _
      | string s => cases hs
      | punctuator u => cases hs
  | callee f =>
      obtain ⟨-, hs⟩ := Option.ite_none_right_eq_some.mp hs
      obtain rfl := Option.some.inj hs
      exact h
  | first f =>
      simp only [step] at hs
      split at hs
      · obtain rfl := Option.some.inj hs
        obtain ⟨rest, rfl⟩ := h
        exact ⟨[], rest, by simp⟩
      · obtain ⟨l, -, rfl⟩ := Option.map_eq_some_iff.mp hs
        obtain ⟨more, rest, rfl⟩ := h
        exact ⟨[l] ++ more, rest, rfl⟩
  | argument f args =>
      obtain ⟨l, -, rfl⟩ := Option.map_eq_some_iff.mp hs
      obtain ⟨more, rest, rfl⟩ := h
      exact ⟨l :: more, rest, by simp⟩
  | behind f args =>
      simp only [step] at hs
      split at hs
      · obtain rfl := Option.some.inj hs
        exact h
      · obtain ⟨-, hs⟩ := Option.ite_none_right_eq_some.mp hs
        obtain rfl := Option.some.inj hs
        obtain ⟨rest, rfl⟩ := h
        exact ⟨[], rest, by simp⟩
  | close =>
      obtain ⟨-, hs⟩ := Option.ite_none_right_eq_some.mp hs
      obtain rfl := Option.some.inj hs
      exact h

/-- What has been read is not taken back. -/
theorem scan_extends {r : List Call × Place} {text : List UInt16} {calls : List Call}
    (h : scan r text = some (calls, .start)) : Place.Extends r calls := by
  obtain ⟨ts, -, run⟩ := Option.bind_eq_some_iff.mp h
  clear h
  induction ts generalizing r with
  | nil =>
      obtain rfl := Option.some.inj run
      exact List.prefix_refl _
  | cons t ts ih =>
      rw [List.foldlM_cons] at run
      obtain ⟨r', hs, run⟩ := Option.bind_eq_some_iff.mp run
      exact (ih run).of_step hs

end Js.Source
