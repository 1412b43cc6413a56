import ThreadJs.Lib.Json.Lex

/-!
`class Json` of `tools.h`: a JSON text written attribute by attribute.

Parent and child objects share one output stream and count their attributes apart.
Nothing is escaped, except by `setMultLine`.

* `feed_multLine` — read inside a string literal, what `setMultLine` writes stands for
  the value written, unless that holds a control character other than `\n` and `\r`.
-/

namespace ThreadJs.Report

open JsonText

abbrev Text := List Char

/-- What a `char*` points to. -/
structure CString where
  chars : Text
  noNul : '\x00' ∉ chars

/-! ### The builder -/

/-- The stream that `buf` points to. -/
abbrev Stream := StateM Text

def write (s : Text) : Stream Unit := modify (· ++ s)

theorem Stream.run_bind {α β : Type} (m : Stream α) (f : α → Stream β) (s : Text) :
    (m >>= f).run s = (f (m.run s).1).run (m.run s).2 := rfl

/-- `buf` is the state of `Stream`; `isroot` only decides who deletes it. The attributes
are counted in ℕ: the `int` overflows after 2^31 of one object, which C++ leaves undefined. -/
structure Json where
  attrCount : Nat
  deriving DecidableEq, Repr

namespace Json

def init : Stream Json := do
  write ['\x7b']
  return ⟨0⟩

/-- `Json()`. -/
def new : Stream Json := init

def writeKey (j : Json) (k : Text) : Stream Json := do
  if 0 < j.attrCount then
    write [',']
  write ('"' :: k ++ ['"', ':'])
  return ⟨j.attrCount + 1⟩

/-- The copy of the parent that `init` resets is the child. -/
def childen (j : Json) (name : Text) : Stream (Json × Json) := do
  let j ← j.writeKey name
  let child ← init
  return (j, child)

def set (j : Json) (k v : Text) : Stream Json := do
  let j ← j.writeKey k
  write ('"' :: v ++ ['"'])
  return j

/-- One round of the loop of `setMultLine`. -/
def escaped (c : Char) : Text :=
  match c with
  | '\n' => ['\\', 'n']
  | '\r' => ['\\', 'r']
  | '"' => ['\\', '"']
  | '\\' => ['\\', '\\']
  | c => [c]

/-- The loop: it ends at the first NUL. -/
def multLine : Text → Text
  | [] => []
  | c :: v => if c = '\x00' then [] else escaped c ++ multLine v

def setMultLine (j : Json) (k v : Text) : Stream Json := do
  let j ← j.writeKey k
  write ('"' :: multLine v ++ ['"'])
  return j

/-- `end()` closes the object and counts nothing. -/
def end' (j : Json) : Stream Json := do
  write ['\x7d']
  return j

/-! Each call appends to the stream and counts on. -/

/-- A key, with the comma before it. -/
def keyText (j : Json) (k : Text) : Text :=
  (if 0 < j.attrCount then [','] else []) ++ '"' :: k ++ ['"', ':']

theorem run_new (s : Text) : new.run s = (⟨0⟩, s ++ ['\x7b']) := rfl

theorem run_writeKey (j : Json) (k s : Text) :
    (j.writeKey k).run s = (⟨j.attrCount + 1⟩, s ++ j.keyText k) := by
  unfold writeKey keyText
  split
  · rw [List.append_assoc, ← List.append_assoc]
    rfl
  · rfl

theorem run_set (j : Json) (k v s : Text) :
    (j.set k v).run s = (⟨j.attrCount + 1⟩, s ++ j.keyText k ++ ('"' :: v ++ ['"'])) := by
  unfold set
  rw [Stream.run_bind, run_writeKey]
  rfl

theorem run_setMultLine (j : Json) (k v s : Text) :
    (j.setMultLine k v).run s =
      (⟨j.attrCount + 1⟩, s ++ j.keyText k ++ ('"' :: multLine v ++ ['"'])) := by
  unfold setMultLine
  rw [Stream.run_bind, run_writeKey]
  rfl

theorem run_childen (j : Json) (k s : Text) :
    (j.childen k).run s = ((⟨j.attrCount + 1⟩, ⟨0⟩), s ++ j.keyText k ++ ['\x7b']) := by
  unfold childen
  rw [Stream.run_bind, run_writeKey]
  rfl

theorem run_end' (j : Json) (s : Text) : j.end'.run s = (j, s ++ ['\x7d']) := rfl

end Json

/-- `ostream << int`. -/
def decimal : Int → Text
  | .ofNat n => Nat.toDigits 10 n
  | .negSucc n => '-' :: Nat.toDigits 10 (n + 1)

theorem decimal_plain {n : Int} {c : Char} (h : c ∈ decimal n) : ¬ SpecialChar c := by
  have digits : ∀ n, c ∈ Nat.toDigits 10 n → ¬ SpecialChar c := by
    intro n hc
    have hdigit : c.isDigit = true :=
      Nat.isDigit_of_mem_toDigits (by decide) (by decide) hc
    simp only [Char.isDigit, Bool.and_eq_true, decide_eq_true_eq, ge_iff_le,
      UInt32.le_iff_toNat_le] at hdigit
    rw [specialChar_iff_toNat]
    have lower : 48 ≤ c.toNat := hdigit.1
    have upper : c.toNat ≤ 57 := hdigit.2
    omega
  cases n with
  | ofNat n => exact digits n h
  | negSucc n =>
      rcases List.mem_cons.mp h with rfl | h
      · decide
      · exact digits _ h

/-! ### What `setMultLine` carries over -/

/-- Not a control character, or one of the two that are escaped. -/
def Carried (c : Char) : Prop := c < ' ' → c = '\n' ∨ c = '\r'

instance : DecidablePred Carried := fun c =>
  inferInstanceAs (Decidable (c < ' ' → c = '\n' ∨ c = '\r'))

/-- A raw control character is refused inside a literal. -/
theorem feed_control {c : Char} (control : c < ' ') (s : List UInt16) :
    feed (.str s) (charUnits c) = none := by
  have small : c.toNat < 0x20 := UInt32.lt_iff_toNat_lt.mp (Char.lt_def.mp control)
  have one : charUnits c = [UInt16.ofNat c.toNat] := if_pos (by omega)
  have value : (UInt16.ofNat c.toNat).toNat = c.toNat := by
    rw [UInt16.toNat_ofNat', Nat.mod_eq_of_lt (by omega)]
  have refused : step (.str s) (UInt16.ofNat c.toNat) = none := by
    have below : UInt16.ofNat c.toNat < 0x20 := by
      rw [UInt16.lt_iff_toNat_lt, value]
      exact small
    have quote : UInt16.ofNat c.toNat ≠ 0x22 := by
      intro h
      rw [h] at below
      exact absurd below (by decide)
    have backslash : UInt16.ofNat c.toNat ≠ 0x5C := by
      intro h
      rw [h] at below
      exact absurd below (by decide)
    simp only [step, if_neg quote, if_neg backslash, if_pos below]
  rw [one, feed_cons, refused, Option.bind_none]

/-- One character. -/
theorem feed_escaped (c : Char) (s : List UInt16) :
    feed (.str s) (units (Json.escaped c)) =
      if Carried c then some ([], .str (s ++ charUnits c)) else none := by
  unfold Json.escaped
  split
  · rfl
  · rfl
  · rfl
  · rfl
  · next newline return' quote backslash =>
      have alone : units [c] = charUnits c := List.append_nil _
      rw [alone]
      by_cases control : c < ' '
      · have lost : ¬ Carried c := by
          intro h
          rcases h control with h | h
          · exact newline h
          · exact return' h
        rw [if_neg lost, feed_control control]
      · have plain : ¬ SpecialChar c := by
          rintro (h | h | h)
          · exact quote h
          · exact backslash h
          · exact control h
        have kept : Carried c := fun h => absurd h control
        rw [if_pos kept, feed_plain (plain_charUnits.mpr plain)]

/-- The whole loop. -/
theorem feed_multLine {v : Text} (noNul : '\x00' ∉ v) (s : List UInt16) :
    feed (.str s) (units (Json.multLine v)) =
      if v.all (decide <| Carried ·) then some ([], .str (s ++ units v)) else none := by
  induction v generalizing s with
  | nil => simp [Json.multLine, units]
  | cons c v ih =>
      obtain ⟨hc, hv⟩ := not_or.mp (mt List.mem_cons.mpr noNul)
      rw [Json.multLine, if_neg (Ne.symm hc), units_append]
      have first := feed_escaped c s
      by_cases carried : Carried c
      · rw [if_pos carried] at first
        rw [feed_append_of_silent first, ih hv, units_cons, List.append_assoc]
        simp only [List.all_cons, carried, decide_true, Bool.true_and]
      · rw [if_neg carried] at first
        rw [feed_append_of_refused first]
        simp only [List.all_cons, carried, decide_false, Bool.false_and, Bool.false_eq_true,
          if_false]

end ThreadJs.Report
