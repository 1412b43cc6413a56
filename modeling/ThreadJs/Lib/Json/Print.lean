import Mathlib.Data.List.TakeWhile
import ThreadJs.Lib.Json.Parse

/-!
`JSON.stringify` of values without holes, and that `JSON.parse` reads back what it writes.

A number is known by the numeral that `Number.prototype.toString` gives for it.

* `feed_escape`, `feed_quote` — the lexer reads a quoted text back.
* `lexes_print` — a printed value is read as its tokens.
* `run_tokens` — the parser takes the tokens of a value for that value.
* `parse_print` — both together.
* `nul_notMem_print` — the text holds no U+0000.
-/

namespace JsonText

/-! ### Numerals -/

/-- A numeral of the grammar. -/
structure Numeral where
  text : List Char
  valid : isNumber (units text) = true

/-- A unit that occurs in numbers. -/
def isNumberUnit (u : UInt16) : Bool :=
  isDigit u || u == 0x2B || u == 0x2D || u == 0x2E || u == 0x65 || u == 0x45

theorem isNumberUnit_of_isDigit {u : UInt16} (h : isDigit u = true) : isNumberUnit u = true := by
  simp [isNumberUnit, h]

theorem isNumberUnit_of_isExponent {us : List UInt16} (h : isExponent us = true) :
    ∀ u ∈ us, isNumberUnit u = true := by
  cases us with
  | nil => simp
  | cons e us =>
      simp only [isExponent, Bool.and_eq_true, Bool.or_eq_true, beq_iff_eq] at h
      obtain ⟨⟨letter, -⟩, digits⟩ := h
      have first : isNumberUnit e = true := by
        rcases letter with rfl | rfl <;> decide
      cases us with
      | nil => simpa using first
      | cons sign ds =>
          by_cases signed : sign = 0x2B ∨ sign = 0x2D
          · simp only [if_pos signed, List.all_eq_true] at digits
            have here : isNumberUnit sign = true := by
              rcases signed with rfl | rfl <;> decide
            have rest : ∀ u ∈ ds, isNumberUnit u = true := fun u hu =>
              isNumberUnit_of_isDigit (digits u hu)
            exact List.forall_mem_cons.mpr ⟨first, List.forall_mem_cons.mpr ⟨here, rest⟩⟩
          · simp only [if_neg signed, List.all_eq_true] at digits
            have rest : ∀ u ∈ sign :: ds, isNumberUnit u = true := fun u hu =>
              isNumberUnit_of_isDigit (digits u hu)
            exact List.forall_mem_cons.mpr ⟨first, rest⟩

/-- Digits, and then units of numbers. -/
theorem isNumberUnit_of_dropWhile {us : List UInt16}
    (h : ∀ u ∈ us.dropWhile isDigit, isNumberUnit u = true) : ∀ u ∈ us, isNumberUnit u = true := by
  intro u hu
  rw [← List.takeWhile_append_dropWhile (p := isDigit) (l := us)] at hu
  rcases List.mem_append.mp hu with front | back
  · exact isNumberUnit_of_isDigit (List.mem_takeWhile_imp front)
  · exact h u back

theorem isNumberUnit_of_isFraction {us : List UInt16} (h : isFraction us = true) :
    ∀ u ∈ us, isNumberUnit u = true := by
  cases us with
  | nil => simp
  | cons dot us =>
      rw [isFraction] at h
      split at h
      · next isDot =>
          obtain ⟨-, exponent⟩ := Bool.and_eq_true_iff.mp h
          subst isDot
          exact List.forall_mem_cons.mpr ⟨by decide,
            isNumberUnit_of_dropWhile (isNumberUnit_of_isExponent exponent)⟩
      · exact isNumberUnit_of_isExponent h

theorem isNumberUnit_of_isUnsigned {us : List UInt16} (h : isUnsigned us = true) :
    ∀ u ∈ us, isNumberUnit u = true := by
  cases us with
  | nil => simp
  | cons d us =>
      rw [isUnsigned] at h
      split at h
      · next zero =>
          subst zero
          exact List.forall_mem_cons.mpr ⟨by decide, isNumberUnit_of_isFraction h⟩
      · obtain ⟨digit, rest⟩ := Bool.and_eq_true_iff.mp h
        exact List.forall_mem_cons.mpr ⟨isNumberUnit_of_isDigit digit,
          isNumberUnit_of_dropWhile (isNumberUnit_of_isFraction rest)⟩

theorem isNumberUnit_of_isNumber {us : List UInt16} (h : isNumber us = true) :
    ∀ u ∈ us, isNumberUnit u = true := by
  cases us with
  | nil => simp
  | cons d us =>
      rw [isNumber] at h
      split at h
      · next minus =>
          subst minus
          exact List.forall_mem_cons.mpr ⟨by decide, isNumberUnit_of_isUnsigned h⟩
      · exact isNumberUnit_of_isUnsigned h

/-- A number holds no delimiter, so that it is read as one word. -/
theorem isDelimiter_of_isNumberUnit {u : UInt16} (h : isNumberUnit u = true) :
    isDelimiter u = false := by
  have none : ∀ d ∈ [0x22, 0x7B, 0x7D, 0x5B, 0x5D, 0x3A, 0x2C, 0x20, 0x09, 0x0A, 0x0D],
      isNumberUnit d = false := by simp [isNumberUnit, isDigit]
  have differs : ∀ d ∈ [0x22, 0x7B, 0x7D, 0x5B, 0x5D, 0x3A, 0x2C, 0x20, 0x09, 0x0A, 0x0D],
      u ≠ d := by
    rintro d hd rfl
    rw [none u hd] at h
    cases h
  simp only [List.forall_mem_cons] at differs
  simp [isDelimiter, punctuation, isSpace, differs]

/-! ### Values and their texts -/

/-- A value of JSON, its texts by characters. -/
inductive Tree where
  | null
  | bool (b : Bool)
  | num (n : Numeral)
  | str (s : List Char)
  | arr (ts : List Tree)
  | obj (ms : List (List Char × Tree))

def hexChar (n : Nat) : Char := Char.ofNat (if n < 10 then 0x30 + n else 0x57 + n)

/-- A character between quotes. -/
def escape (c : Char) : List Char :=
  if c = '"' then ['\\', '"']
  else if c = '\\' then ['\\', '\\']
  else if c = '\x08' then ['\\', 'b']
  else if c = '\t' then ['\\', 't']
  else if c = '\n' then ['\\', 'n']
  else if c = '\x0c' then ['\\', 'f']
  else if c = '\r' then ['\\', 'r']
  else if c < ' ' then
    ['\\', 'u', '0', '0', hexChar (c.toNat / 16), hexChar (c.toNat % 16)]
  else [c]

/-- `QuoteJSONString`. -/
def quote (s : List Char) : List Char := '"' :: s.flatMap escape ++ ['"']

mutual

/-- `JSON.stringify`. -/
def print : Tree → List Char
  | .null => "null".toList
  | .bool true => "true".toList
  | .bool false => "false".toList
  | .num n => n.text
  | .str s => quote s
  | .arr [] => ['[', ']']
  | .arr (t :: ts) => '[' :: print t ++ printElems ts
  | .obj [] => ['\x7b', '\x7d']
  | .obj ((k, t) :: ms) => '\x7b' :: quote k ++ ':' :: print t ++ printMembers ms

/-- The rest of an array, after an element. -/
def printElems : List Tree → List Char
  | [] => [']']
  | t :: ts => ',' :: print t ++ printElems ts

/-- The rest of an object, after a member. -/
def printMembers : List (List Char × Tree) → List Char
  | [] => ['\x7d']
  | (k, t) :: ms => ',' :: quote k ++ ':' :: print t ++ printMembers ms

end

mutual

/-- What `parse` makes of the text. -/
def Tree.value : Tree → Value
  | .null => .null
  | .bool b => .bool b
  | .num n => .num (units n.text)
  | .str s => .str (units s)
  | .arr ts => .arr (values ts)
  | .obj ms => .obj (memberValues ms)

def values : List Tree → List Value
  | [] => []
  | t :: ts => t.value :: values ts

def memberValues : List (List Char × Tree) → List (Key × Value)
  | [] => []
  | (k, t) :: ms => (units k, t.value) :: memberValues ms

end

mutual

def tokens : Tree → List Token
  | .null => [.null]
  | .bool true => [.true]
  | .bool false => [.false]
  | .num n => [.num (units n.text)]
  | .str s => [.str (units s)]
  | .arr [] => [.lbracket, .rbracket]
  | .arr (t :: ts) => .lbracket :: tokens t ++ elemTokens ts
  | .obj [] => [.lbrace, .rbrace]
  | .obj ((k, t) :: ms) => .lbrace :: .str (units k) :: .colon :: tokens t ++ memberTokens ms

def elemTokens : List Tree → List Token
  | [] => [.rbracket]
  | t :: ts => .comma :: tokens t ++ elemTokens ts

def memberTokens : List (List Char × Tree) → List Token
  | [] => [.rbrace]
  | (k, t) :: ms => .comma :: .str (units k) :: .colon :: tokens t ++ memberTokens ms

end

/-! ### Reading the text -/

theorem hexDigit_hexChar {n : Nat} (h : n < 16) :
    ∃ u, charUnits (hexChar n) = [u] ∧ hexDigit u = some n := by
  have all : ∀ n < 16, charUnits (hexChar n) = [UInt16.ofNat (hexChar n).toNat] ∧
      hexDigit (UInt16.ofNat (hexChar n).toNat) = some n := by decide
  exact ⟨_, (all n h).1, (all n h).2⟩

theorem feed_control {c : Char} (h : c < ' ') (s : List UInt16) :
    feed (.str s) (units ['\\', 'u', '0', '0', hexChar (c.toNat / 16), hexChar (c.toNat % 16)]) =
      some ([], .str (s ++ charUnits c)) := by
  have small : c.toNat < 32 := by
    rwa [Char.lt_def, UInt32.lt_iff_toNat_lt] at h
  obtain ⟨u, hu, high⟩ := hexDigit_hexChar (n := c.toNat / 16) (by omega)
  obtain ⟨v, hv, low⟩ := hexDigit_hexChar (n := c.toNat % 16) (by omega)
  have whole : charUnits c = [UInt16.ofNat (16 * (c.toNat / 16) + c.toNat % 16)] := by
    rw [charUnits, if_pos (by omega), Nat.div_add_mod]
  have text : units ['\\', 'u', '0', '0', hexChar (c.toNat / 16), hexChar (c.toNat % 16)] =
      [0x5C, 0x75, 0x30, 0x30, u, v] := by
    simp only [units, List.flatMap_cons, List.flatMap_nil, hu, hv]
    rfl
  have zero : feed (.str s) [0x5C, 0x75, 0x30, 0x30] = some ([], .hex s 1 0) := rfl
  rw [text, whole]
  apply feed_append zero
  simp [feed_cons, step, high, low]

theorem escape_of_plain {c : Char} (plain : ¬ SpecialChar c) : escape c = [c] := by
  obtain ⟨quote, backslash, control⟩ : c ≠ '"' ∧ c ≠ '\\' ∧ ¬ c < ' ' := by
    simpa only [SpecialChar, not_or] using plain
  have other : ∀ d, d < ' ' → c ≠ d := by
    rintro d hd rfl
    exact control hd
  simp only [escape, if_neg quote, if_neg backslash, if_neg control,
    if_neg (other '\x08' (by decide)), if_neg (other '\t' (by decide)),
    if_neg (other '\n' (by decide)), if_neg (other '\x0c' (by decide)),
    if_neg (other '\r' (by decide))]

/-- A text that needs no escape stands between the quotes as it is. -/
theorem quote_of_plain {s : List Char} (plain : ∀ c ∈ s, ¬ SpecialChar c) :
    quote s = '"' :: s ++ ['"'] := by
  have same : s.flatMap escape = s := by
    induction s with
    | nil => rfl
    | cons c s ih =>
        obtain ⟨first, rest⟩ := List.forall_mem_cons.mp plain
        rw [List.flatMap_cons, escape_of_plain first, ih rest]
        rfl
  rw [quote, same]

/-- An escaped character is read back. -/
theorem feed_escape (c : Char) (s : List UInt16) :
    feed (.str s) (units (escape c)) = some ([], .str (s ++ charUnits c)) := by
  by_cases special : SpecialChar c
  · unfold escape
    split
    · next h => subst h; rfl
    split
    · next h => subst h; rfl
    split
    · next h => subst h; rfl
    split
    · next h => subst h; rfl
    split
    · next h => subst h; rfl
    split
    · next h => subst h; rfl
    split
    · next h => subst h; rfl
    split
    · next control => exact feed_control control s
    · next quote backslash _ _ _ _ _ control =>
        rcases special with h | h | h
        · exact absurd h quote
        · exact absurd h backslash
        · exact absurd h control
  · have plain : Plain (charUnits c) := plain_charUnits.mpr special
    rw [escape_of_plain special, units_cons]
    simpa [units] using feed_plain plain s

theorem feed_escapes (cs : List Char) (s : List UInt16) :
    feed (.str s) (units (cs.flatMap escape)) = some ([], .str (s ++ units cs)) := by
  induction cs generalizing s with
  | nil => simp [units]
  | cons c cs ih =>
      rw [List.flatMap_cons, units_append, units_cons, ← List.append_assoc]
      exact feed_append (feed_escape c s) (ih _)

/-- A quoted text is read as a string. -/
theorem feed_quote (s : List Char) :
    feed .out (units (quote s)) = some ([.str (units s)], .out) := by
  have opens : feed .out (units ['"']) = some ([], .str []) := rfl
  have closes : feed (.str ([] ++ units s)) (units ['"']) =
      some ([.str ([] ++ units s)], .out) := rfl
  have inner := feed_append (feed_escapes s []) closes
  have all := feed_append opens inner
  rw [← units_append, ← units_append] at all
  exact all

/-- A segment is read as these tokens, the last of which may still want its end. -/
def Lexes (us : List UInt16) (ts : List Token) : Prop :=
  feed .out us = some (ts, .out) ∨
    ∃ front w t, feed .out us = some (front, .word w) ∧ wordToken w = some t ∧ ts = front ++ [t]

theorem Lexes.append {us vs : List UInt16} {ts ts' : List Token}
    (closed : feed .out us = some (ts, .out)) (lexes : Lexes vs ts') :
    Lexes (us ++ vs) (ts ++ ts') := by
  rcases lexes with closed' | ⟨front, w, t, word, known, rfl⟩
  · exact .inl (feed_append closed closed')
  · exact .inr ⟨ts ++ front, w, t, feed_append closed word, known, (List.append_assoc ..).symm⟩

/-- Punctuation ends a word. -/
theorem Lexes.punctuation {us : List UInt16} {ts : List Token} (lexes : Lexes us ts) {u : UInt16}
    {t : Token} (mark : punctuation u = some t) :
    feed .out (us ++ [u]) = some (ts ++ [t], .out) := by
  have noQuote : u ≠ 0x22 := by
    rintro rfl
    cases mark
  have out : outStep u = ([t], .out) := by
    rw [outStep, if_neg noQuote, mark]
  rcases lexes with closed | ⟨front, w, t', word, known, rfl⟩
  · apply feed_append closed
    simp [feed_cons, step, out]
  · have delimiter : isDelimiter u = true := by simp [isDelimiter, mark]
    have ends : feed (.word w) [u] = some ([t', t], .out) := by
      simp [feed_cons, step, delimiter, known, out]
    rw [List.append_assoc]
    exact feed_append word ends

theorem Lexes.lex {us : List UInt16} {ts : List Token} (lexes : Lexes us ts) :
    lex us = some ts := by
  apply lex_eq_some.mpr
  rcases lexes with closed | ⟨front, w, t, word, known, rfl⟩
  · exact ⟨ts, .out, [], closed, rfl, by simp⟩
  · exact ⟨front, .word w, [t], word, by simp [finish, known], rfl⟩

/-- A word without delimiters. -/
theorem lexes_word {w : List UInt16} {t : Token} (inner : w.any isDelimiter = false)
    (known : wordToken w = some t) (nonempty : w ≠ []) : Lexes w [t] := by
  obtain ⟨u, w, rfl⟩ := List.exists_cons_of_ne_nil nonempty
  obtain ⟨first, rest⟩ := Bool.or_eq_false_iff.mp inner
  simp only [isDelimiter, Bool.or_eq_false_iff, beq_eq_false_iff_ne] at first
  obtain ⟨⟨noQuote, noMark⟩, noSpace⟩ := first
  rw [Option.isSome_eq_false_iff, Option.isNone_iff_eq_none] at noMark
  have out : feed .out [u] = some ([], .word [u]) := by
    simp [feed_cons, step, outStep, noQuote, noMark, noSpace]
  exact .inr ⟨[], u :: w, t, feed_append out (feed_word rest [u]), known, rfl⟩

theorem lexes_num (n : Numeral) : Lexes (units n.text) [.num (units n.text)] := by
  have valid := n.valid
  have name : ∀ w, isNumber w = false → units n.text ≠ w := by
    rintro w no same
    rw [same, no] at valid
    cases valid
  apply lexes_word
  · rw [List.any_eq_false]
    intro u hu
    rw [isDelimiter_of_isNumberUnit (isNumberUnit_of_isNumber valid u hu)]
    exact Bool.false_ne_true
  · rw [wordToken, if_neg (name _ (by decide)), if_neg (name _ (by decide)),
      if_neg (name _ (by decide)), if_pos valid]
  · exact name _ rfl

/-- A key with its colon. -/
theorem feed_key (k : List Char) :
    feed .out (units (quote k ++ [':'])) = some ([.str (units k), .colon], .out) := by
  have colon : feed .out (units [':']) = some ([.colon], .out) := rfl
  rw [units_append]
  exact feed_append (feed_quote k) colon

mutual

theorem lexes_print : ∀ t : Tree, Lexes (units (print t)) (tokens t)
  | .null => lexes_word (by decide) (by decide) (by decide)
  | .bool true => lexes_word (by decide) (by decide) (by decide)
  | .bool false => lexes_word (by decide) (by decide) (by decide)
  | .num n => lexes_num n
  | .str s => .inl (feed_quote s)
  | .arr [] => .inl rfl
  | .arr (t :: ts) => by
      have opened : feed .out (units ['[']) = some ([.lbracket], .out) := rfl
      have all := feed_printElems ts (Lexes.append opened (lexes_print t))
      rw [← units_append, ← units_append] at all
      exact .inl all
  | .obj [] => .inl rfl
  | .obj ((k, t) :: ms) => by
      have opened : feed .out (units ['\x7b']) = some ([.lbrace], .out) := rfl
      have all := feed_printMembers ms
        (Lexes.append (feed_append opened (feed_key k)) (lexes_print t))
      have text : print (.obj ((k, t) :: ms)) =
          ['\x7b'] ++ (quote k ++ [':']) ++ print t ++ printMembers ms := by simp [print]
      rw [text, units_append, units_append, units_append]
      exact .inl all

/-- What has been read of an array ends with it. -/
theorem feed_printElems : ∀ (ts : List Tree) {us : List UInt16} {read : List Token},
    Lexes us read → feed .out (us ++ units (printElems ts)) = some (read ++ elemTokens ts, .out)
  | [], us, read, lexes => lexes.punctuation rfl
  | t :: ts, us, read, lexes => by
      have comma : feed .out (us ++ units [',']) = some (read ++ [.comma], .out) :=
        lexes.punctuation rfl
      have all := feed_printElems ts (Lexes.append comma (lexes_print t))
      have text : printElems (t :: ts) = [','] ++ print t ++ printElems ts := by simp [printElems]
      have marks : elemTokens (t :: ts) = [.comma] ++ tokens t ++ elemTokens ts := by
        simp [elemTokens]
      rw [text, marks]
      simpa only [units_append, List.append_assoc] using all

theorem feed_printMembers : ∀ (ms : List (List Char × Tree)) {us : List UInt16}
    {read : List Token}, Lexes us read →
    feed .out (us ++ units (printMembers ms)) = some (read ++ memberTokens ms, .out)
  | [], us, read, lexes => lexes.punctuation rfl
  | (k, t) :: ms, us, read, lexes => by
      have comma : feed .out (us ++ units [',']) = some (read ++ [.comma], .out) :=
        lexes.punctuation rfl
      have all := feed_printMembers ms
        (Lexes.append (feed_append comma (feed_key k)) (lexes_print t))
      have text : printMembers ((k, t) :: ms) =
          [','] ++ (quote k ++ [':']) ++ print t ++ printMembers ms := by simp [printMembers]
      have marks : memberTokens ((k, t) :: ms) =
          [.comma] ++ [.str (units k), .colon] ++ tokens t ++ memberTokens ms := by
        simp [memberTokens]
      rw [text, marks]
      simpa only [units_append, List.append_assoc] using all

end

/-! ### Reading the tokens -/

/-- The parser waits for a value, `parents` being the containers around it. -/
def Awaits (p : Parser) (parents : List Frame) : Prop :=
  ∀ t, t ≠ .rbracket → p.step t = begin parents t

theorem awaits_start : Awaits .start [] := fun _ _ => rfl

theorem awaits_objValue (ms : List (Key × Value)) (k : Key) (parents : List Frame) :
    Awaits (.inside (.objValue ms k) parents) (.objValue ms k :: parents) := fun _ _ => rfl

theorem awaits_arrValue (vs : List Value) (parents : List Frame) :
    Awaits (.inside (.arrValue vs) parents) (.arrValue vs :: parents) := fun _ _ => rfl

theorem awaits_arrOpen (parents : List Frame) :
    Awaits (.inside .arrOpen parents) (.arrOpen :: parents) := by
  intro t other
  cases t with
  | rbracket => exact absurd rfl other
  | _ => rfl

/-- The first token of a value. -/
theorem run_begin {p q : Parser} {parents : List Frame} (awaits : Awaits p parents) {t : Token}
    (value : t ≠ .rbracket) (next : begin parents t = some q) (ts : List Token) :
    Machine.run Parser.step p (t :: ts) = Machine.run Parser.step q ts :=
  Machine.run_cons_of_step ((awaits t value).trans next) ts

theorem run_scalar {p : Parser} {parents : List Frame} (awaits : Awaits p parents) {t : Token}
    {v : Value} (known : scalar t = some v) (rest : List Token) :
    Machine.run Parser.step p (t :: rest) =
      (complete v parents).bind fun q => Machine.run Parser.step q rest := by
  have value : t ≠ .rbracket := by
    rintro rfl
    cases known
  have begins : begin parents t = complete v parents := by
    cases t <;> first | (cases known; done) | (cases known; rfl)
  rw [Machine.run_cons, awaits t value, begins]

mutual

/-- The parser takes the tokens of a value for that value. -/
theorem run_tokens : ∀ (t : Tree) {p : Parser} {parents : List Frame}, Awaits p parents →
    ∀ rest, Machine.run Parser.step p (tokens t ++ rest) =
      (complete t.value parents).bind fun q => Machine.run Parser.step q rest
  | .null, p, parents, awaits, rest => run_scalar awaits rfl rest
  | .bool true, p, parents, awaits, rest => run_scalar awaits rfl rest
  | .bool false, p, parents, awaits, rest => run_scalar awaits rfl rest
  | .num n, p, parents, awaits, rest => run_scalar awaits rfl rest
  | .str s, p, parents, awaits, rest => run_scalar awaits rfl rest
  | .arr [], p, parents, awaits, rest => by
      rw [tokens, List.cons_append, run_begin awaits (by decide) rfl]
      rfl
  | .arr (t :: ts), p, parents, awaits, rest => by
      rw [tokens, List.cons_append, List.cons_append, run_begin awaits (by decide) rfl,
        List.append_assoc, run_tokens t (awaits_arrOpen parents), complete, Option.bind_some,
        run_elemTokens ts]
      rfl
  | .obj [], p, parents, awaits, rest => by
      rw [tokens, List.cons_append, run_begin awaits (by decide) rfl]
      rfl
  | .obj ((k, t) :: ms), p, parents, awaits, rest => by
      have key : ∀ ts, Machine.run Parser.step (.inside .objOpen parents)
          (.str (units k) :: .colon :: ts) =
          Machine.run Parser.step (.inside (.objValue [] (units k)) parents) ts := fun _ => rfl
      rw [tokens]
      simp only [List.cons_append]
      rw [run_begin awaits (by simp) rfl, key, List.append_assoc,
        run_tokens t (awaits_objValue [] (units k) parents), complete, Option.bind_some,
        run_memberTokens ms]
      rfl

theorem run_elemTokens : ∀ (ts : List Tree) (vs : List Value) (parents : List Frame) (rest),
    Machine.run Parser.step (.inside (.arrNext vs) parents) (elemTokens ts ++ rest) =
      (complete (.arr (vs ++ values ts)) parents).bind fun q => Machine.run Parser.step q rest
  | [], vs, parents, rest => by
      rw [values, List.append_nil]
      rfl
  | t :: ts, vs, parents, rest => by
      have comma : ∀ ts, Machine.run Parser.step (.inside (.arrNext vs) parents) (.comma :: ts) =
          Machine.run Parser.step (.inside (.arrValue vs) parents) ts := fun _ => rfl
      rw [elemTokens, List.cons_append, List.cons_append, comma, List.append_assoc,
        run_tokens t (awaits_arrValue vs parents), complete, Option.bind_some,
        run_elemTokens ts, List.append_assoc]
      rfl

theorem run_memberTokens : ∀ (ms : List (List Char × Tree)) (vs : List (Key × Value))
    (parents : List Frame) (rest),
    Machine.run Parser.step (.inside (.objNext vs) parents) (memberTokens ms ++ rest) =
      (complete (.obj (vs ++ memberValues ms)) parents).bind fun q =>
        Machine.run Parser.step q rest
  | [], vs, parents, rest => by
      rw [memberValues, List.append_nil]
      rfl
  | (k, t) :: ms, vs, parents, rest => by
      have key : ∀ ts, Machine.run Parser.step (.inside (.objNext vs) parents)
          (.comma :: .str (units k) :: .colon :: ts) =
          Machine.run Parser.step (.inside (.objValue vs (units k)) parents) ts := fun _ => rfl
      rw [memberTokens]
      simp only [List.cons_append]
      rw [key, List.append_assoc, run_tokens t (awaits_objValue vs (units k) parents), complete,
        Option.bind_some, run_memberTokens ms, List.append_assoc]
      rfl

end

/-- **A printed value is parsed for what it was.** -/
theorem parse_print (t : Tree) : parse (units (print t)) = some t.value := by
  have whole := run_tokens t awaits_start []
  rw [List.append_nil] at whole
  rw [parse, (lexes_print t).lex, Option.bind_some, parseTokens, whole]
  rfl

/-! ### The characters of the text -/

theorem nul_notMem_escape (c : Char) : '\x00' ∉ escape c := by
  have hex : ∀ n < 16, '\x00' ≠ hexChar n := by decide
  unfold escape
  split_ifs with _ _ _ _ _ _ _ control
  · decide
  · decide
  · decide
  · decide
  · decide
  · decide
  · decide
  · have small : c.toNat < 32 := by
      rwa [Char.lt_def, UInt32.lt_iff_toNat_lt] at control
    have high := hex (c.toNat / 16) (by omega)
    have low := hex (c.toNat % 16) (by omega)
    simp [high, low]
  · rw [List.mem_singleton]
    rintro rfl
    exact control (by decide)

theorem nul_notMem_quote (s : List Char) : '\x00' ∉ quote s := by
  simp [quote, nul_notMem_escape]

theorem nul_notMem_numeral (n : Numeral) : '\x00' ∉ n.text := by
  intro h
  have unit : (0 : UInt16) ∈ units n.text := List.mem_flatMap.mpr ⟨_, h, by decide⟩
  have := isNumberUnit_of_isNumber n.valid 0 unit
  exact absurd this (by decide)

mutual

theorem nul_notMem_print : ∀ t : Tree, '\x00' ∉ print t
  | .null => by decide
  | .bool true => by decide
  | .bool false => by decide
  | .num n => nul_notMem_numeral n
  | .str s => nul_notMem_quote s
  | .arr [] => by decide
  | .arr (t :: ts) => by simp [print, nul_notMem_print t, nul_notMem_printElems ts]
  | .obj [] => by decide
  | .obj ((k, t) :: ms) => by
      simp [print, nul_notMem_quote, nul_notMem_print t, nul_notMem_printMembers ms]

theorem nul_notMem_printElems : ∀ ts : List Tree, '\x00' ∉ printElems ts
  | [] => by decide
  | t :: ts => by simp [printElems, nul_notMem_print t, nul_notMem_printElems ts]

theorem nul_notMem_printMembers : ∀ ms : List (List Char × Tree), '\x00' ∉ printMembers ms
  | [] => by decide
  | (k, t) :: ms => by
      simp [printMembers, nul_notMem_quote, nul_notMem_print t, nul_notMem_printMembers ms]

end

end JsonText
