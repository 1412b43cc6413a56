import Mathlib.Logic.Basic
import Mathlib.Data.List.Basic

/-!
The tokens of a JSON text (ECMA-404), over UTF-16 code units.

The lexer is a transducer: `step` reads one unit, gives the tokens that this unit
completes and the mode to go on in, or refuses it. `feed` runs it over a segment of
a text, so the segments of a text can be read one after the other (`feed_append`).

* `feed_plain` — a segment without a special unit, read inside a string, is taken
  into the string unit by unit.
* `feed_cost` — no string read from a segment needs more units to be written than the
  segment has.
* `str_of_feed_key`, `str_of_feed_end` — the segment after a string literal tells that
  what came before it was read inside one.
-/

namespace JsonText

/-! ### UTF-16 -/

/-- The code units of a character. -/
def charUnits (c : Char) : List UInt16 :=
  if c.toNat < 0x10000 then [UInt16.ofNat c.toNat]
  else [UInt16.ofNat (0xD800 + (c.toNat - 0x10000) / 0x400),
    UInt16.ofNat (0xDC00 + (c.toNat - 0x10000) % 0x400)]

/-- The code units of a text. -/
def units (cs : List Char) : List UInt16 := cs.flatMap charUnits

@[simp] theorem units_append (cs ds : List Char) : units (cs ++ ds) = units cs ++ units ds :=
  List.flatMap_append

theorem units_cons (c : Char) (cs : List Char) : units (c :: cs) = charUnits c ++ units cs := rfl

/-! ### Special units -/

/-- A unit that no string literal holds as itself: the quote, the backslash and the
control characters. -/
def Special (u : UInt16) : Prop := u = 0x22 ∨ u = 0x5C ∨ u < 0x20

instance : DecidablePred Special := fun u =>
  inferInstanceAs (Decidable (u = 0x22 ∨ u = 0x5C ∨ u < 0x20))

/-- The same for characters. -/
def SpecialChar (c : Char) : Prop := c = '"' ∨ c = '\\' ∨ c < ' '

instance : DecidablePred SpecialChar := fun c =>
  inferInstanceAs (Decidable (c = '"' ∨ c = '\\' ∨ c < ' '))

/-- No unit of the segment is special. -/
def Plain (us : List UInt16) : Prop := ∀ u ∈ us, ¬ Special u

instance : DecidablePred Plain := fun us =>
  decidable_of_iff ((us.all fun u => !decide (Special u)) = true)
    (by simp only [List.all_eq_true, Bool.not_eq_true', decide_eq_false_iff_not, Plain])

theorem special_iff_toNat {u : UInt16} :
    Special u ↔ u.toNat = 0x22 ∨ u.toNat = 0x5C ∨ u.toNat < 0x20 := by
  simp only [Special, UInt16.lt_iff_toNat_lt, ← UInt16.toNat_inj]
  rfl

theorem specialChar_iff_toNat {c : Char} :
    SpecialChar c ↔ c.toNat = 0x22 ∨ c.toNat = 0x5C ∨ c.toNat < 0x20 := by
  simp only [SpecialChar, Char.lt_def, UInt32.lt_iff_toNat_lt, ← Char.toNat_inj]
  rfl

/-- A special character is one special unit, and no other character has one. -/
theorem plain_charUnits {c : Char} : Plain (charUnits c) ↔ ¬ SpecialChar c := by
  have bound : c.toNat < 0x110000 := by
    have := c.valid
    simp only [UInt32.isValidChar, Nat.isValidChar] at this
    unfold Char.toNat
    omega
  unfold Plain charUnits
  rw [specialChar_iff_toNat]
  split
  · next small =>
      simp only [List.mem_singleton, forall_eq, special_iff_toNat, UInt16.toNat_ofNat']
      rw [Nat.mod_eq_of_lt small]
  · next large =>
      simp only [List.mem_cons, List.not_mem_nil, or_false, forall_eq_or_imp, forall_eq,
        special_iff_toNat, UInt16.toNat_ofNat']
      omega

theorem plain_append {us vs : List UInt16} : Plain (us ++ vs) ↔ Plain us ∧ Plain vs := by
  simp only [Plain, List.mem_append, or_imp, forall_and]

theorem plain_units {cs : List Char} : Plain (units cs) ↔ ∀ c ∈ cs, ¬ SpecialChar c := by
  induction cs with
  | nil => simp [Plain, units]
  | cons c cs ih => rw [units_cons, plain_append, plain_charUnits, ih, List.forall_mem_cons]

/-! ### Words

What stands between strings and punctuation: a literal name or a number. -/

def isDigit (u : UInt16) : Bool := 0x30 ≤ u && u ≤ 0x39

/-- An optional exponent: `[eE] [+-]? digit+`. -/
def isExponent : List UInt16 → Bool
  | [] => true
  | e :: us =>
      let ds := match us with
        | sign :: ds => if sign = 0x2B ∨ sign = 0x2D then ds else us
        | [] => []
      (e == 0x65 || e == 0x45) && !ds.isEmpty && ds.all isDigit

/-- An optional fraction `. digit+`, then an optional exponent. -/
def isFraction : List UInt16 → Bool
  | [] => true
  | dot :: us =>
      if dot = 0x2E then
        !(us.takeWhile isDigit).isEmpty && isExponent (us.dropWhile isDigit)
      else isExponent (dot :: us)

/-- `0` or a digit sequence without a leading zero, then the optional parts. -/
def isUnsigned : List UInt16 → Bool
  | [] => false
  | d :: us =>
      if d = 0x30 then isFraction us else isDigit d && isFraction (us.dropWhile isDigit)

def isNumber : List UInt16 → Bool
  | [] => false
  | d :: us => if d = 0x2D then isUnsigned us else isUnsigned (d :: us)

inductive Token where
  | lbrace
  | rbrace
  | lbracket
  | rbracket
  | colon
  | comma
  | str (s : List UInt16)
  /-- A number, as it is written. -/
  | num (w : List UInt16)
  | true
  | false
  | null
  deriving DecidableEq, Repr

def wordToken (w : List UInt16) : Option Token :=
  if w = units "true".toList then some .true
  else if w = units "false".toList then some .false
  else if w = units "null".toList then some .null
  else if isNumber w then some (.num w)
  else none

/-! ### The transducer -/

inductive Mode where
  /-- Between tokens. -/
  | out
  | word (w : List UInt16)
  /-- Inside a string literal that stands for `s` so far. -/
  | str (s : List UInt16)
  /-- After a backslash. -/
  | esc (s : List UInt16)
  /-- Inside `\uXXXX` with `left` digits to come after the next one. -/
  | hex (s : List UInt16) (left : Nat) (v : Nat)
  deriving DecidableEq, Repr

def punctuation (u : UInt16) : Option Token :=
  if u = 0x7B then some .lbrace
  else if u = 0x7D then some .rbrace
  else if u = 0x5B then some .lbracket
  else if u = 0x5D then some .rbracket
  else if u = 0x3A then some .colon
  else if u = 0x2C then some .comma
  else none

def isSpace (u : UInt16) : Bool := u == 0x20 || u == 0x09 || u == 0x0A || u == 0x0D

/-- The unit that `\u` stands for in an escape of two characters. -/
def unescape (u : UInt16) : Option UInt16 :=
  if u = 0x22 ∨ u = 0x5C ∨ u = 0x2F then some u
  else if u = 0x62 then some 0x08
  else if u = 0x66 then some 0x0C
  else if u = 0x6E then some 0x0A
  else if u = 0x72 then some 0x0D
  else if u = 0x74 then some 0x09
  else none

def hexDigit (u : UInt16) : Option Nat :=
  if isDigit u then some (u.toNat - 0x30)
  else if 0x61 ≤ u ∧ u ≤ 0x66 then some (u.toNat - 0x61 + 10)
  else if 0x41 ≤ u ∧ u ≤ 0x46 then some (u.toNat - 0x41 + 10)
  else none

/-- Between tokens. -/
def outStep (u : UInt16) : List Token × Mode :=
  if u = 0x22 then ([], .str [])
  else match punctuation u with
    | some t => ([t], .out)
    | none => if isSpace u then ([], .out) else ([], .word [u])

/-- A unit that ends a word. -/
def isDelimiter (u : UInt16) : Bool := u == 0x22 || (punctuation u).isSome || isSpace u

def step : Mode → UInt16 → Option (List Token × Mode)
  | .out, u => some (outStep u)
  | .word w, u =>
      if isDelimiter u then (wordToken w).map fun t => (t :: (outStep u).1, (outStep u).2)
      else some ([], .word (w ++ [u]))
  | .str s, u =>
      if u = 0x22 then some ([.str s], .out)
      else if u = 0x5C then some ([], .esc s)
      else if u < 0x20 then none
      else some ([], .str (s ++ [u]))
  | .esc s, u =>
      if u = 0x75 then some ([], .hex s 3 0)
      else (unescape u).map fun c => ([], .str (s ++ [c]))
  | .hex s 0 v, u => (hexDigit u).map fun d => ([], .str (s ++ [UInt16.ofNat (16 * v + d)]))
  | .hex s (left + 1) v, u => (hexDigit u).map fun d => ([], .hex s left (16 * v + d))

/-- Read a segment of a text. -/
def feed : Mode → List UInt16 → Option (List Token × Mode)
  | m, [] => some ([], m)
  | m, u :: us =>
      (step m u).bind fun r => (feed r.2 us).map fun r' => (r.1 ++ r'.1, r'.2)

/-- The end of the text. -/
def finish : Mode → Option (List Token)
  | .out => some []
  | .word w => (wordToken w).map fun t => [t]
  | _ => none

/-- The tokens of a whole text. -/
def lex (us : List UInt16) : Option (List Token) :=
  (feed .out us).bind fun r => (finish r.2).map fun ts => r.1 ++ ts

@[simp] theorem feed_nil (m : Mode) : feed m [] = some ([], m) := rfl

theorem feed_cons (m : Mode) (u : UInt16) (us : List UInt16) :
    feed m (u :: us) =
      (step m u).bind fun r => (feed r.2 us).map fun r' => (r.1 ++ r'.1, r'.2) := rfl

/-- The first unit of a segment that is read. -/
theorem feed_cons_eq_some {m m' : Mode} {u : UInt16} {us : List UInt16} {ts : List Token} :
    feed m (u :: us) = some (ts, m') ↔ ∃ ts₁ m₁ ts₂, step m u = some (ts₁, m₁) ∧
      feed m₁ us = some (ts₂, m') ∧ ts = ts₁ ++ ts₂ := by
  rw [feed_cons]
  constructor
  · intro h
    obtain ⟨⟨ts₁, m₁⟩, hstep, h⟩ := Option.bind_eq_some_iff.mp h
    obtain ⟨⟨ts₂, m₂⟩, hrest, h⟩ := Option.map_eq_some_iff.mp h
    obtain ⟨rfl, rfl⟩ := Prod.mk.inj h
    exact ⟨ts₁, m₁, ts₂, hstep, hrest, rfl⟩
  · rintro ⟨ts₁, m₁, ts₂, hstep, hrest, rfl⟩
    rw [hstep, Option.bind_some, hrest, Option.map_some]

/-- Two segments one after the other. -/
theorem feed_append_eq_some {m m' : Mode} {us vs : List UInt16} {ts : List Token} :
    feed m (us ++ vs) = some (ts, m') ↔ ∃ ts₁ m₁ ts₂, feed m us = some (ts₁, m₁) ∧
      feed m₁ vs = some (ts₂, m') ∧ ts = ts₁ ++ ts₂ := by
  induction us generalizing m ts with
  | nil =>
      constructor
      · intro h
        exact ⟨[], m, ts, rfl, h, rfl⟩
      · rintro ⟨ts₁, m₁, ts₂, hnil, hvs, rfl⟩
        obtain ⟨rfl, rfl⟩ := Prod.mk.inj (Option.some.inj hnil)
        exact hvs
  | cons u us ih =>
      rw [List.cons_append, feed_cons_eq_some]
      constructor
      · rintro ⟨ts₁, m₁, ts₂, hstep, hrest, rfl⟩
        obtain ⟨ts₃, m₃, ts₄, hus, hvs, rfl⟩ := ih.mp hrest
        exact ⟨ts₁ ++ ts₃, m₃, ts₄, feed_cons_eq_some.mpr ⟨ts₁, m₁, ts₃, hstep, hus, rfl⟩,
          hvs, (List.append_assoc ..).symm⟩
      · rintro ⟨ts₀, m₃, ts₄, hcons, hvs, rfl⟩
        obtain ⟨ts₁, m₁, ts₃, hstep, hus, rfl⟩ := feed_cons_eq_some.mp hcons
        exact ⟨ts₁, m₁, ts₃ ++ ts₄, hstep, ih.mpr ⟨ts₃, m₃, ts₄, hus, hvs, rfl⟩,
          List.append_assoc ..⟩

theorem feed_append {m m₁ m₂ : Mode} {us vs : List UInt16} {ts₁ ts₂ : List Token}
    (hus : feed m us = some (ts₁, m₁)) (hvs : feed m₁ vs = some (ts₂, m₂)) :
    feed m (us ++ vs) = some (ts₁ ++ ts₂, m₂) :=
  feed_append_eq_some.mpr ⟨ts₁, m₁, ts₂, hus, hvs, rfl⟩

theorem feed_append_of_silent {m m' : Mode} {us : List UInt16} (h : feed m us = some ([], m'))
    (vs : List UInt16) : feed m (us ++ vs) = feed m' vs := by
  apply Option.ext
  rintro ⟨ts, m''⟩
  rw [feed_append_eq_some]
  constructor
  · rintro ⟨ts₁, m₁, ts₂, hus, hvs, rfl⟩
    obtain ⟨rfl, rfl⟩ := Prod.mk.inj (Option.some.inj (h.symm.trans hus))
    exact hvs
  · intro hvs
    exact ⟨[], m', ts, h, hvs, rfl⟩

theorem feed_append_of_refused {m : Mode} {us : List UInt16} (h : feed m us = none)
    (vs : List UInt16) : feed m (us ++ vs) = none := by
  rw [Option.eq_none_iff_forall_ne_some]
  rintro ⟨ts, m'⟩ hall
  obtain ⟨_, _, _, hus, -, -⟩ := feed_append_eq_some.mp hall
  rw [h] at hus
  cases hus

theorem lex_eq_some {us : List UInt16} {ts : List Token} :
    lex us = some ts ↔ ∃ ts₁ m ts₂, feed .out us = some (ts₁, m) ∧
      finish m = some ts₂ ∧ ts = ts₁ ++ ts₂ := by
  unfold lex
  constructor
  · intro h
    obtain ⟨⟨ts₁, m⟩, hfeed, h⟩ := Option.bind_eq_some_iff.mp h
    obtain ⟨ts₂, hfinish, rfl⟩ := Option.map_eq_some_iff.mp h
    exact ⟨ts₁, m, ts₂, hfeed, hfinish, rfl⟩
  · rintro ⟨ts₁, m, ts₂, hfeed, hfinish, rfl⟩
    rw [hfeed, Option.bind_some, hfinish, Option.map_some]

/-! ### Plain segments -/

theorem step_plain {u : UInt16} (plain : ¬ Special u) (s : List UInt16) :
    step (.str s) u = some ([], .str (s ++ [u])) := by
  obtain ⟨quote, backslash, control⟩ : u ≠ 0x22 ∧ u ≠ 0x5C ∧ ¬ u < 0x20 := by
    simpa only [Special, not_or] using plain
  simp only [step, if_neg quote, if_neg backslash, if_neg control]

/-- A plain segment is taken into the string that it is read in. -/
theorem feed_plain {us : List UInt16} (plain : Plain us) (s : List UInt16) :
    feed (.str s) us = some ([], .str (s ++ us)) := by
  induction us generalizing s with
  | nil => rw [feed_nil, List.append_nil]
  | cons u us ih =>
      obtain ⟨hu, hus⟩ := List.forall_mem_cons.mp plain
      rw [feed_cons, step_plain hu, Option.bind_some, ih hus, Option.map_some, List.append_assoc]
      rfl

/-! ### The room that a string needs

A special unit takes an escape of at least two units, any other unit at least one.
`held m` is what the units read into an unfinished literal amount to. -/

/-- The least number of units that a literal for `s` has between its quotes. -/
def cost (s : List UInt16) : Nat := s.length + s.countP (decide <| Special ·)

def held : Mode → Nat
  | .str s => cost s
  | .esc s => cost s + 1
  | .hex s _ _ => cost s + 2
  | _ => 0

theorem length_le_cost (s : List UInt16) : s.length ≤ cost s := Nat.le_add_right ..

/-- A string fits into its own length only if it is plain. -/
theorem plain_of_cost_le {s : List UInt16} (h : cost s ≤ s.length) : Plain s := by
  have none : s.countP (decide <| Special ·) = 0 := by
    unfold cost at h
    omega
  intro u hu hspecial
  exact List.countP_eq_zero.mp none u hu (decide_eq_true hspecial)

theorem cost_snoc_le (s : List UInt16) (u : UInt16) : cost (s ++ [u]) ≤ cost s + 2 := by
  have one := List.countP_le_length (p := (decide <| Special ·)) (l := [u])
  simp only [cost, List.length_append, List.countP_append, List.length_singleton] at *
  omega

theorem cost_snoc_plain {u : UInt16} (plain : ¬ Special u) (s : List UInt16) :
    cost (s ++ [u]) = cost s + 1 := by
  have none : [u].countP (decide <| Special ·) = 0 :=
    List.countP_eq_zero.mpr fun v hv => by
      rw [List.mem_singleton.mp hv, decide_eq_false plain]
      exact Bool.false_ne_true
  simp only [cost, List.length_append, List.countP_append, List.length_singleton, none]
  omega

/-- Between tokens nothing is held, and no string is completed. -/
theorem outStep_cost (u : UInt16) :
    held (outStep u).2 = 0 ∧ ∀ s, Token.str s ∉ (outStep u).1 := by
  unfold outStep punctuation
  split_ifs <;> simp [held, cost]

theorem str_ne_wordToken {w : List UInt16} {t : Token} (h : wordToken w = some t)
    (s : List UInt16) : .str s ≠ t := by
  unfold wordToken at h
  rintro rfl
  split_ifs at h <;> cases h

/-- One unit: a completed string was held before, and what is held grows by at most
one unit; where a token is completed nothing is held afterwards. -/
theorem step_cost {m m' : Mode} {u : UInt16} {ts : List Token} (h : step m u = some (ts, m')) :
    (∀ s, .str s ∈ ts → cost s ≤ held m) ∧
      (ts = [] ∧ held m' ≤ held m + 1 ∨ held m' = 0) := by
  cases m with
  | out =>
      obtain ⟨hheld, hstr⟩ := outStep_cost u
      obtain ⟨rfl, rfl⟩ : (outStep u).1 = ts ∧ (outStep u).2 = m' :=
        Prod.ext_iff.mp (Option.some.inj h)
      exact ⟨fun s hs => absurd hs (hstr s), .inr hheld⟩
  | word w =>
      simp only [step] at h
      split at h
      · obtain ⟨t, hword, h⟩ := Option.map_eq_some_iff.mp h
        obtain ⟨hheld, hstr⟩ := outStep_cost u
        obtain ⟨rfl, rfl⟩ := Prod.mk.inj h
        refine ⟨fun s hs => ?_, .inr hheld⟩
        rcases List.mem_cons.mp hs with hs | hs
        · exact absurd hs (str_ne_wordToken hword s)
        · exact absurd hs (hstr s)
      · obtain ⟨rfl, rfl⟩ := Prod.mk.inj (Option.some.inj h)
        exact ⟨nofun, .inr rfl⟩
  | str s =>
      simp only [step] at h
      split at h
      · obtain ⟨rfl, rfl⟩ := Prod.mk.inj (Option.some.inj h)
        refine ⟨fun s' hs => ?_, .inr rfl⟩
        rw [Token.str.inj (List.mem_singleton.mp hs)]
        exact Nat.le_refl _
      · next quote =>
          split at h
          · obtain ⟨rfl, rfl⟩ := Prod.mk.inj (Option.some.inj h)
            exact ⟨nofun, .inl ⟨rfl, Nat.le_refl _⟩⟩
          · next backslash =>
              split at h
              · cases h
              · next control =>
                  obtain ⟨rfl, rfl⟩ := Prod.mk.inj (Option.some.inj h)
                  have plain : ¬ Special u := by
                    simp only [Special, quote, backslash, control, or_self, not_false_eq_true]
                  exact ⟨nofun, .inl ⟨rfl, Nat.le_of_eq (cost_snoc_plain plain s)⟩⟩
  | esc s =>
      simp only [step] at h
      split at h
      · obtain ⟨rfl, rfl⟩ := Prod.mk.inj (Option.some.inj h)
        exact ⟨nofun, .inl ⟨rfl, Nat.le_refl _⟩⟩
      · obtain ⟨c, -, h⟩ := Option.map_eq_some_iff.mp h
        obtain ⟨rfl, rfl⟩ := Prod.mk.inj h
        exact ⟨nofun, .inl ⟨rfl, cost_snoc_le s c⟩⟩
  | hex s left v =>
      cases left with
      | zero =>
          obtain ⟨d, -, h⟩ := Option.map_eq_some_iff.mp h
          obtain ⟨rfl, rfl⟩ := Prod.mk.inj h
          exact ⟨nofun, .inl ⟨rfl, Nat.le_succ_of_le (cost_snoc_le s _)⟩⟩
      | succ left =>
          obtain ⟨d, -, h⟩ := Option.map_eq_some_iff.mp h
          obtain ⟨rfl, rfl⟩ := Prod.mk.inj h
          exact ⟨nofun, .inl ⟨rfl, Nat.le_succ _⟩⟩

/-- A segment: a string completed in it needs fewer units than were held before and
read since, and so does what is held at its end; strictly fewer if a token was
completed. -/
theorem feed_cost {m m' : Mode} {us : List UInt16} {ts : List Token}
    (h : feed m us = some (ts, m')) :
    (∀ s, .str s ∈ ts → cost s < held m + us.length) ∧
      (ts = [] ∧ held m' ≤ held m + us.length ∨ held m' < held m + us.length) := by
  induction us generalizing m ts with
  | nil =>
      obtain ⟨rfl, rfl⟩ := Prod.mk.inj (Option.some.inj h)
      exact ⟨nofun, .inl ⟨rfl, Nat.le_refl _⟩⟩
  | cons u us ih =>
      obtain ⟨ts₁, m₁, ts₂, hstep, hrest, rfl⟩ := feed_cons_eq_some.mp h
      obtain ⟨hstr₁, hheld₁⟩ := step_cost hstep
      obtain ⟨hstr₂, hheld₂⟩ := ih hrest
      have grows : held m₁ ≤ held m + 1 := by
        rcases hheld₁ with ⟨-, hle⟩ | hzero <;> omega
      simp only [List.length_cons]
      refine ⟨fun s hs => ?_, ?_⟩
      · rcases List.mem_append.mp hs with hs | hs
        · have := hstr₁ s hs
          omega
        · have := hstr₂ s hs
          omega
      · rcases hheld₁ with ⟨rfl, hle⟩ | hzero
        · rcases hheld₂ with ⟨rfl, hle'⟩ | hlt
          · exact .inl ⟨rfl, by omega⟩
          · exact .inr (by omega)
        · rcases hheld₂ with ⟨-, hle'⟩ | hlt <;> exact .inr (by omega)

/-- A segment that starts and ends inside a string literal: if it holds a quote, the
strings after its first one need fewer units than it has, and it is not plain. -/
theorem feed_str_cost {us s : List UInt16} {ts : List Token}
    (h : feed (.str []) us = some (ts, .str s)) :
    (∀ s', Token.str s' ∈ ts ++ [Token.str s] → cost s' ≤ us.length) ∧
      ∀ s', Token.str s' ∈ (ts ++ [Token.str s]).tail → cost s' < us.length ∧ ¬ Plain us := by
  obtain ⟨hstr, hheld⟩ := feed_cost h
  simp only [held, show cost [] = 0 from rfl, Nat.zero_add] at hstr hheld
  refine ⟨fun s' hs => ?_, fun s' hs => ?_⟩
  · rcases List.mem_append.mp hs with hs | hs
    · exact Nat.le_of_lt (hstr s' hs)
    · rw [Token.str.inj (List.mem_singleton.mp hs)]
      rcases hheld with ⟨-, hle⟩ | hlt <;> omega
  · cases ts with
    | nil => cases hs
    | cons t ts =>
        have notPlain : ¬ Plain us := by
          intro plain
          rw [feed_plain plain] at h
          cases h
        refine ⟨?_, notPlain⟩
        rcases List.mem_append.mp hs with hs | hs
        · exact hstr s' (List.mem_cons_of_mem _ hs)
        · rw [Token.str.inj (List.mem_singleton.mp hs)]
          rcases hheld with ⟨hnil, -⟩ | hlt
          · cases hnil
          · exact hlt

/-! ### Where a quote is read

A quote closes a literal, and from any other mode it opens or continues one. So a
text that goes on as it would after a literal tells that it was read inside one. -/

theorem step_quote {m m' : Mode} {ts : List Token} (notStr : ∀ s, m ≠ .str s)
    (h : step m 0x22 = some (ts, m')) : ∃ s, m' = .str s := by
  cases m with
  | out =>
      obtain ⟨-, rfl⟩ := Prod.mk.inj (Option.some.inj h)
      exact ⟨[], rfl⟩
  | word w =>
      obtain ⟨t, -, h⟩ := Option.map_eq_some_iff.mp h
      obtain ⟨-, rfl⟩ := Prod.mk.inj h
      exact ⟨[], rfl⟩
  | str s => exact absurd rfl (notStr s)
  | esc s =>
      obtain ⟨-, rfl⟩ := Prod.mk.inj (Option.some.inj h)
      exact ⟨s ++ [0x22], rfl⟩
  | hex s left v => cases left <;> cases h

theorem feed_word {w : List UInt16} (inner : w.any isDelimiter = false)
    (v : List UInt16) : feed (.word v) w = some ([], .word (v ++ w)) := by
  induction w generalizing v with
  | nil => rw [feed_nil, List.append_nil]
  | cons u w ih =>
      obtain ⟨hu, hw⟩ := Bool.or_eq_false_iff.mp inner
      have hstep : step (.word v) u = some ([], .word (v ++ [u])) := by
        simp only [step, hu, Bool.false_eq_true, if_false]
      rw [feed_cons, hstep, Option.bind_some, ih hw, Option.map_some, List.append_assoc]
      rfl

/-- After a literal may come `,"w"`; read in another mode, the letters of `w` would
stand outside the quotes, which they may not if they are no word. -/
theorem str_of_feed_key {m m' : Mode} {w us : List UInt16} {ts : List Token}
    (inner : w.any isDelimiter = false) (nonempty : w ≠ []) (noWord : wordToken w = none)
    (h : feed m (0x22 :: 0x2C :: 0x22 :: (w ++ 0x22 :: us)) = some (ts, m')) :
    ∃ s, m = .str s := by
  by_contra notStr
  obtain ⟨ts₁, m₁, _, hquote, hrest, -⟩ := feed_cons_eq_some.mp h
  obtain ⟨s, rfl⟩ := step_quote (fun s hs => notStr ⟨s, hs⟩) hquote
  obtain ⟨_, m₂, _, hcomma, hrest, -⟩ := feed_cons_eq_some.mp hrest
  obtain ⟨-, rfl⟩ := Prod.mk.inj (Option.some.inj hcomma)
  obtain ⟨_, m₃, _, hclose, hrest, -⟩ := feed_cons_eq_some.mp hrest
  obtain ⟨-, rfl⟩ := Prod.mk.inj (Option.some.inj hclose)
  cases w with
  | nil => exact nonempty rfl
  | cons u w =>
      obtain ⟨hu, hw⟩ := Bool.or_eq_false_iff.mp inner
      obtain ⟨_, m₄, _, hfirst, hrest, -⟩ := feed_cons_eq_some.mp hrest
      obtain ⟨_, m₅, _, hword, hrest, -⟩ := feed_append_eq_some.mp hrest
      have first : outStep u = ([], .word [u]) := by
        simp only [isDelimiter, Bool.or_eq_false_iff, beq_eq_false_iff_ne] at hu
        obtain ⟨⟨hquote, hpunct⟩, hspace⟩ := hu
        rw [Option.isSome_eq_false_iff, Option.isNone_iff_eq_none] at hpunct
        simp only [outStep, if_neg hquote, hpunct, hspace, Bool.false_eq_true, if_false]
      rw [step, first] at hfirst
      obtain ⟨-, rfl⟩ := Prod.mk.inj (Option.some.inj hfirst)
      rw [feed_word hw] at hword
      obtain ⟨-, rfl⟩ := Prod.mk.inj (Option.some.inj hword)
      obtain ⟨_, _, _, hend, -, -⟩ := feed_cons_eq_some.mp hrest
      have refused : step (.word ([u] ++ w)) 0x22 = none := by
        have delimiter : isDelimiter 0x22 = true := by decide
        simp only [step, delimiter, if_true, List.singleton_append, noWord, Option.map_none]
      rw [refused] at hend
      cases hend

/-- A text that ends with a quote and plain units was in a literal before them. -/
theorem str_of_feed_end {m m' : Mode} {us : List UInt16} {ts ts' : List Token}
    (plain : Plain us) (h : feed m (0x22 :: us) = some (ts, m')) (hend : finish m' = some ts') :
    ∃ s, m = .str s := by
  by_contra notStr
  obtain ⟨ts₁, m₁, _, hquote, hrest, -⟩ := feed_cons_eq_some.mp h
  obtain ⟨s, rfl⟩ := step_quote (fun s hs => notStr ⟨s, hs⟩) hquote
  rw [feed_plain plain] at hrest
  obtain ⟨-, rfl⟩ := Prod.mk.inj (Option.some.inj hrest)
  cases hend

end JsonText
