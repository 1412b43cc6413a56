import Mathlib.Data.List.TakeWhile

/-!
UTF-8 texts in byte buffers, with an explicit length or NUL-terminated.

* `decode_encode` — decoding is left inverse to encoding.
* `decode_untilNul` — a NUL-terminated reader sees the text up to its first NUL, that
  is all of it if it has none (`cut_eq_self`).
-/

namespace Utf8

/-- The bytes of a text. -/
def encode (s : String) : List UInt8 := s.toList.flatMap String.utf8EncodeChar

/-- The text of a sequence of bytes; bytes that are no UTF-8 give the empty text. -/
def decode (bytes : List UInt8) : String :=
  match bytes.toByteArray.utf8Decode? with
  | some cs => String.ofList cs.toList
  | none => ""

/-- What a reader of a C string sees: everything before the first NUL byte. -/
def untilNul (bytes : List UInt8) : List UInt8 := bytes.takeWhile (· != 0)

/-- The text up to its first U+0000. -/
def cut (s : String) : String := String.ofList (s.toList.takeWhile (· != '\x00'))

theorem decode_flatMap (cs : List Char) :
    decode (cs.flatMap String.utf8EncodeChar) = String.ofList cs := by
  have h : (cs.flatMap String.utf8EncodeChar).toByteArray.utf8Decode? = some cs.toArray :=
    List.utf8Decode?_utf8Encode
  simp only [decode, h]

theorem decode_encode (s : String) : decode (encode s) = s := by
  rw [encode, decode_flatMap, String.ofList_toList]

theorem ofNat_ne_zero {n : Nat} (pos : 0 < n) (small : n < 256) : (0 : UInt8) ≠ UInt8.ofNat n := by
  intro h
  have hn := congrArg UInt8.toNat h
  rw [UInt8.toNat_ofNat_of_lt' small] at hn
  exact absurd hn.symm (Nat.ne_of_gt pos)

/-- Only U+0000 has a NUL byte in its encoding. -/
theorem zero_notMem_utf8EncodeChar {c : Char} (hc : c ≠ '\x00') :
    0 ∉ String.utf8EncodeChar c := by
  have pos : 0 < c.val.toNat := by
    apply Nat.pos_of_ne_zero
    intro h
    exact hc (Char.ext (UInt32.toNat_inj.mp h))
  unfold String.utf8EncodeChar
  dsimp only
  split
  · next h =>
      intro hmem
      exact ofNat_ne_zero pos (Nat.lt_of_le_of_lt h (by decide)) (List.mem_singleton.mp hmem)
  · split
    · simp only [List.mem_cons, List.not_mem_nil, or_false, not_or]
      exact ⟨ofNat_ne_zero (by omega) (by omega), ofNat_ne_zero (by omega) (by omega)⟩
    · split
      · simp only [List.mem_cons, List.not_mem_nil, or_false, not_or]
        exact ⟨ofNat_ne_zero (by omega) (by omega), ofNat_ne_zero (by omega) (by omega),
          ofNat_ne_zero (by omega) (by omega)⟩
      · simp only [List.mem_cons, List.not_mem_nil, or_false, not_or]
        exact ⟨ofNat_ne_zero (by omega) (by omega), ofNat_ne_zero (by omega) (by omega),
          ofNat_ne_zero (by omega) (by omega), ofNat_ne_zero (by omega) (by omega)⟩

/-- A character below U+0080 is one byte. -/
theorem utf8EncodeChar_of_lt {c : Char} (ascii : c.toNat < 0x80) :
    String.utf8EncodeChar c = [UInt8.ofNat c.toNat] :=
  if_pos (Nat.le_of_lt_succ ascii)

theorem le_toNat_ofNat {n : Nat} (low : 0x80 ≤ n) (small : n < 256) :
    0x80 ≤ (UInt8.ofNat n).toNat := by
  rw [UInt8.toNat_ofNat_of_lt' small]
  exact low

/-- The bytes of any other character are no ASCII. -/
theorem le_of_mem_utf8EncodeChar {c : Char} (above : 0x80 ≤ c.toNat) {b : UInt8}
    (hb : b ∈ String.utf8EncodeChar c) : 0x80 ≤ b.toNat := by
  unfold String.utf8EncodeChar at hb
  dsimp only at hb
  split at hb
  · next h => exact absurd above (Nat.not_le_of_lt (Nat.lt_succ_of_le h))
  · split at hb
    · simp only [List.mem_cons, List.not_mem_nil, or_false] at hb
      rcases hb with rfl | rfl
      all_goals exact le_toNat_ofNat (by omega) (by omega)
    · split at hb
      · simp only [List.mem_cons, List.not_mem_nil, or_false] at hb
        rcases hb with rfl | rfl | rfl
        all_goals exact le_toNat_ofNat (by omega) (by omega)
      · simp only [List.mem_cons, List.not_mem_nil, or_false] at hb
        rcases hb with rfl | rfl | rfl | rfl
        all_goals exact le_toNat_ofNat (by omega) (by omega)

/-- Cutting the bytes of a text at the first NUL byte cuts the text at the first
U+0000. -/
theorem untilNul_flatMap (cs : List Char) (rest : List UInt8) :
    untilNul (cs.flatMap String.utf8EncodeChar ++ 0 :: rest) =
      (cs.takeWhile (· != '\x00')).flatMap String.utf8EncodeChar := by
  induction cs with
  | nil => rfl
  | cons c cs ih =>
      by_cases hc : c = '\x00'
      · subst hc
        rfl
      · have keep : ∀ b ∈ String.utf8EncodeChar c, (b != 0) = true := by
          intro b hb
          apply bne_iff_ne.mpr
          rintro rfl
          exact zero_notMem_utf8EncodeChar hc hb
        have first : (c :: cs).takeWhile (· != '\x00') = c :: cs.takeWhile (· != '\x00') :=
          List.takeWhile_cons_of_pos (bne_iff_ne.mpr hc)
        rw [first, List.flatMap_cons, List.flatMap_cons, List.append_assoc, untilNul,
          List.takeWhile_append_of_pos keep]
        exact congrArg _ ih

/-- Reading the terminated bytes of a text as a C string. -/
theorem decode_untilNul (s : String) (rest : List UInt8) :
    decode (untilNul (encode s ++ 0 :: rest)) = cut s := by
  rw [encode, untilNul_flatMap, decode_flatMap, cut]

theorem nul_notMem_cut (s : String) : '\x00' ∉ (cut s).toList := by
  intro h
  rw [cut, String.toList_ofList] at h
  exact absurd (List.mem_takeWhile_imp h) (by decide)

/-- A text without U+0000 is read back whole. -/
theorem cut_eq_self {s : String} (h : '\x00' ∉ s.toList) : cut s = s := by
  have all : ∀ c ∈ s.toList, (c != '\x00') = true := by
    intro c hc
    apply bne_iff_ne.mpr
    rintro rfl
    exact h hc
  rw [cut, List.takeWhile_eq_self_iff.mpr all, String.ofList_toList]

/-- The terminated bytes of such a text are its own. -/
theorem untilNul_encode {s : String} (h : '\x00' ∉ s.toList) (rest : List UInt8) :
    untilNul (encode s ++ 0 :: rest) = encode s := by
  have whole := congrArg String.toList (cut_eq_self h)
  rw [cut, String.toList_ofList] at whole
  rw [encode, untilNul_flatMap, whole]

end Utf8
