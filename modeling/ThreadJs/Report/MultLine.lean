import ThreadJs.Lib.Json.Parse
import ThreadJs.Lib.Utf8
import ThreadJs.Report.Builder

/-!
The literal of `setMultLine`, as it is written byte for byte and as a JSON reader takes it.

* `multLine_bytes` — the loop over the bytes writes the bytes of `Json.multLine`.
* `literal_faithful_iff` — which strings the reader gets back.
-/

namespace ThreadJs.Report

open JsonText

/-! ### The loop over the bytes -/

namespace Bytes

/-- One round of the loop of `setMultLine`, `v[i]` being a `char`. -/
def escaped (b : UInt8) : List UInt8 :=
  if b = 0x0A then [0x5C, 0x6E]
  else if b = 0x0D then [0x5C, 0x72]
  else if b = 0x22 then [0x5C, 0x22]
  else if b = 0x5C then [0x5C, 0x5C]
  else [b]

/-- The loop from `v[i]` on. The `int` that counts it is taken as a number of ℕ. -/
def multLine : List UInt8 → List UInt8
  | [] => []
  | b :: v => if b = 0 then [] else escaped b ++ multLine v

/-- What `setMultLine` writes behind the key. -/
def literal (v : List UInt8) : List UInt8 := 0x22 :: multLine v ++ [0x22]

theorem multLine_cons {b : UInt8} (nonzero : b ≠ 0) (v : List UInt8) :
    multLine (b :: v) = escaped b ++ multLine v :=
  if_neg nonzero

/-- A byte above ASCII has no case of its own. -/
theorem multLine_cons_above {b : UInt8} (above : 0x80 ≤ b.toNat) (v : List UInt8) :
    multLine (b :: v) = b :: multLine v := by
  have away : ∀ a : UInt8, a.toNat < 0x80 → b ≠ a := by
    rintro a small rfl
    omega
  rw [multLine_cons (away 0 (by decide)), escaped, if_neg (away 0x0A (by decide)),
    if_neg (away 0x0D (by decide)), if_neg (away 0x22 (by decide)), if_neg (away 0x5C (by decide))]
  rfl

theorem multLine_append_above {bs : List UInt8} (above : ∀ b ∈ bs, 0x80 ≤ b.toNat)
    (v : List UInt8) : multLine (bs ++ v) = bs ++ multLine v := by
  induction bs with
  | nil => rfl
  | cons b bs ih =>
      rw [List.cons_append, multLine_cons_above (above b List.mem_cons_self),
        ih fun b' hb' => above b' (List.mem_cons_of_mem _ hb')]
      rfl

end Bytes

/-! ### The loop over the characters -/

/-- The bytes of a text. -/
def bytes (cs : Text) : List UInt8 := cs.flatMap String.utf8EncodeChar

theorem escaped_above {c : Char} (above : 0x80 ≤ c.toNat) : Json.escaped c = [c] := by
  unfold Json.escaped
  split
  · exact absurd above (by decide)
  · exact absurd above (by decide)
  · exact absurd above (by decide)
  · exact absurd above (by decide)
  · rfl

/-- A byte is one of the four exactly if the character is. -/
theorem escaped_ascii {c : Char} (ascii : c.toNat < 0x80) :
    Bytes.escaped (UInt8.ofNat c.toNat) = bytes (Json.escaped c) := by
  have differs : ∀ d : Char, c ≠ d → d.toNat < 0x80 →
      UInt8.ofNat c.toNat ≠ UInt8.ofNat d.toNat := by
    intro d other small same
    apply other
    have value := congrArg UInt8.toNat same
    rw [UInt8.toNat_ofNat_of_lt' (Nat.lt_trans ascii (by decide)),
      UInt8.toNat_ofNat_of_lt' (Nat.lt_trans small (by decide))] at value
    exact Char.toNat_inj.mp value
  unfold Json.escaped
  split
  · rfl
  · rfl
  · rfl
  · rfl
  · next newline return' quote backslash =>
      have one : UInt8.ofNat c.toNat ≠ 0x0A := differs '\n' newline (by decide)
      have two : UInt8.ofNat c.toNat ≠ 0x0D := differs '\r' return' (by decide)
      have three : UInt8.ofNat c.toNat ≠ 0x22 := differs '"' quote (by decide)
      have four : UInt8.ofNat c.toNat ≠ 0x5C := differs '\\' backslash (by decide)
      rw [Bytes.escaped, if_neg one, if_neg two, if_neg three, if_neg four, bytes,
        List.flatMap_singleton, Utf8.utf8EncodeChar_of_lt ascii]

/-- **Bytes and characters.** In memory the value is followed by a NUL and by whatever
comes next. -/
theorem multLine_bytes {v : Text} (noNul : '\x00' ∉ v) (rest : List UInt8) :
    Bytes.multLine (bytes v ++ 0 :: rest) = bytes (Json.multLine v) := by
  induction v with
  | nil => rfl
  | cons c v ih =>
      obtain ⟨hc, hv⟩ := not_or.mp (mt List.mem_cons.mpr noNul)
      rw [Json.multLine, if_neg (Ne.symm hc), bytes, bytes, List.flatMap_cons, List.flatMap_append,
        List.append_assoc]
      rcases Nat.lt_or_ge c.toNat 0x80 with ascii | above
      · have nonzero : UInt8.ofNat c.toNat ≠ 0 := by
          intro zero
          apply Utf8.zero_notMem_utf8EncodeChar (Ne.symm hc)
          rw [Utf8.utf8EncodeChar_of_lt ascii, zero]
          exact List.mem_singleton_self _
        rw [Utf8.utf8EncodeChar_of_lt ascii, List.singleton_append, Bytes.multLine_cons nonzero,
          escaped_ascii ascii]
        exact congrArg _ (ih hv)
      · rw [Bytes.multLine_append_above (fun b => Utf8.le_of_mem_utf8EncodeChar above),
          escaped_above above, List.flatMap_singleton]
        exact congrArg _ (ih hv)

/-- What follows the key in the stream. -/
theorem literal_bytes (v : CString) (rest : List UInt8) :
    Bytes.literal (bytes v.chars ++ 0 :: rest) =
      bytes ('"' :: Json.multLine v.chars ++ ['"']) := by
  rw [Bytes.literal, multLine_bytes v.noNul, bytes, bytes, List.flatMap_append]
  rfl

/-! ### The reader -/

/-- `JSON.parse` of bytes in UTF-8. -/
def parseBytes (bs : List UInt8) : Option Value := parse (units (Utf8.decode bs).toList)

theorem parse_str {us s : List UInt16} (h : feed (.str []) us = some ([], .str s)) :
    parse (0x22 :: us ++ [0x22]) = some (.str s) := by
  have opening : feed .out [0x22] = some ([], .str []) := rfl
  have closing : feed (.str s) [0x22] = some ([.str s], .out) := rfl
  have tokens : lex (0x22 :: us ++ [0x22]) = some [.str s] := by
    have all : feed .out ([0x22] ++ (us ++ [0x22])) = some ([.str s], .out) :=
      feed_append opening (feed_append h closing)
    exact lex_eq_some.mpr ⟨_, _, _, all, rfl, rfl⟩
  rw [parse, tokens]
  rfl

theorem parse_refused {us vs : List UInt16} (h : feed (.str []) us = none) :
    parse (0x22 :: us ++ vs) = none := by
  have opening : feed .out [0x22] = some ([], .str []) := rfl
  have refused : feed .out (0x22 :: us ++ vs) = none := by
    have all := feed_append_of_silent opening (us ++ vs)
    rw [feed_append_of_refused h] at all
    exact all
  rw [parse, lex, refused]
  rfl

/-- What the reader makes of a literal. -/
theorem parseBytes_literal (v : CString) (rest : List UInt8) :
    parseBytes (Bytes.literal (bytes v.chars ++ 0 :: rest)) =
      if v.chars.all (decide <| Carried ·) then some (.str (units v.chars)) else none := by
  have quoted : units ('"' :: Json.multLine v.chars ++ ['"']) =
      0x22 :: units (Json.multLine v.chars) ++ [0x22] := units_append _ _
  have loop := feed_multLine v.noNul []
  rw [parseBytes, literal_bytes, bytes, Utf8.decode_flatMap, String.toList_ofList, quoted]
  split
  · next carried =>
      rw [if_pos carried] at loop
      exact parse_str loop
  · next lost =>
      rw [if_neg lost] at loop
      exact parse_refused loop

/-- **The literal of `setMultLine` stands for the value exactly if that has no control
character other than `\n` and `\r`.** -/
theorem literal_faithful_iff (v : CString) (rest : List UInt8) :
    parseBytes (Bytes.literal (bytes v.chars ++ 0 :: rest)) = some (.str (units v.chars)) ↔
      ∀ c ∈ v.chars, Carried c := by
  rw [parseBytes_literal]
  constructor
  · intro faithful c hc
    by_contra lost
    have refused : ¬ v.chars.all (decide <| Carried ·) = true := fun all =>
      lost (of_decide_eq_true (List.all_eq_true.mp all c hc))
    rw [if_neg refused] at faithful
    cases faithful
  · intro carried
    exact if_pos (List.all_eq_true.mpr fun c hc => decide_eq_true (carried c hc))

/-- A tab, which is written as it is. -/
theorem tab_literal_refused :
    parseBytes (Bytes.literal (bytes ['\t'] ++ [0])) = none ∧
      ¬ parseBytes (Bytes.literal (bytes ['\t'] ++ [0])) = some (.str (units ['\t'])) := by
  have refused := parseBytes_literal ⟨['\t'], by decide⟩ []
  have lost : ¬ ['\t'].all (decide <| Carried ·) = true := by decide
  rw [if_neg lost] at refused
  rw [refused]
  exact ⟨rfl, by simp⟩

end ThreadJs.Report
