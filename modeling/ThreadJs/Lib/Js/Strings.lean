import ThreadJs.Lib.Js.Source

/-!
Where the string literals of a program stand in its text.

* `Occurs.of_program` — every string that is an argument of a call is read behind a quote of the
  text.
* `scan_behind_identifier` — no name follows a literal, and no other literal.
-/

namespace Js.Source

/-- What is behind a literal is the rest of the text. -/
theorem literal_suffix {us v rest : List UInt16} (h : literal us = some (v, rest)) :
    rest <:+ us := by
  induction us using literal.induct generalizing v rest with
  | case1 => simp [literal] at h
  | case2 us =>
      rw [literal_quote] at h
      obtain ⟨-, rfl⟩ := Prod.mk.inj (Option.some.inj h)
      exact List.suffix_cons _ _
  | case3 us refused _ =>
      rw [literal_escape, refused] at h
      cases h
  | case4 us e behind escaped _ ih =>
      rw [literal_escape, escaped, Option.bind_some] at h
      obtain ⟨r, read, eq⟩ := Option.map_eq_some_iff.mp h
      obtain ⟨-, rfl⟩ := Prod.mk.inj eq
      obtain ⟨used, taken⟩ := escaped_escape escaped
      have later : behind <:+ us := ⟨used, taken.split.symm⟩
      exact (ih read).trans (later.trans (List.suffix_cons _ _))
  | case5 u us _ _ newLine =>
      rw [literal_newLine newLine] at h
      cases h
  | case6 u us quote backslash newLine ih =>
      have plain : ¬ Special u := by simp [Special, quote, backslash, newLine]
      rw [literal_cons plain] at h
      obtain ⟨r, read, eq⟩ := Option.map_eq_some_iff.mp h
      obtain ⟨-, rfl⟩ := Prod.mk.inj eq
      exact (ih read).trans (List.suffix_cons _ _)

/-- A string literal in a text, after which the text goes on like behind an argument. -/
def Occurs (text s : List UInt16) : Prop :=
  ∃ us rest done f args, 0x22 :: us <:+ text ∧ literal us = some (s, rest) ∧
    (scan (done, .behind f args) rest).isSome = true

theorem Occurs.append {text s : List UInt16} (front : List UInt16) (h : Occurs text s) :
    Occurs (front ++ text) s := by
  obtain ⟨us, rest, done, f, args, suffix, read, goesOn⟩ := h
  exact ⟨us, rest, done, f, args, suffix.trans (List.suffix_append front text), read, goesOn⟩

/-- The quote of a literal is in one of two texts, or in the other. -/
theorem Occurs.split {front back s : List UInt16} (h : Occurs (front ++ back) s) :
    (∃ before inside rest done f args, front = before ++ 0x22 :: inside ∧
      literal (inside ++ back) = some (s, rest) ∧
        (scan (done, .behind f args) rest).isSome = true) ∨ Occurs back s := by
  obtain ⟨us, rest, done, f, args, ⟨before, whole⟩, read, goesOn⟩ := h
  rcases List.append_eq_append_iff.mp whole with ⟨more, rfl, quote⟩ | ⟨more, rfl, quote⟩
  · cases more with
    | nil =>
        exact .inr ⟨us, rest, done, f, args, ⟨[], quote⟩, read, goesOn⟩
    | cons d more =>
        obtain ⟨rfl, rfl⟩ := List.cons.inj quote
        exact .inl ⟨before, more, rest, done, f, args, rfl, read, goesOn⟩
  · exact .inr ⟨us, rest, done, f, args, ⟨more, quote.symm⟩, read, goesOn⟩

/-- No literal begins in a text without quotes. -/
theorem Occurs.skip {front back s : List UInt16} (h : Occurs (front ++ back) s)
    (noQuote : 0x22 ∉ front) : Occurs back s := by
  rcases h.split with ⟨before, inside, -, -, -, -, rfl, -⟩ | h
  · exact absurd (List.mem_append_right before List.mem_cons_self) noQuote
  · exact h

/-- One unit, which may be the quote of the literal. -/
theorem Occurs.cons {u : UInt16} {us s : List UInt16} (h : Occurs (u :: us) s) :
    (u = 0x22 ∧ ∃ rest, literal us = some (s, rest)) ∨ Occurs us s := by
  obtain ⟨us', rest, done, f, args, suffix, read, goesOn⟩ := h
  rcases List.suffix_cons_iff.mp suffix with same | suffix
  · obtain ⟨rfl, rfl⟩ := List.cons.inj same
    exact .inl ⟨rfl, rest, read⟩
  · exact .inr ⟨us', rest, done, f, args, suffix, read, goesOn⟩

/-! ### The strings that have been read -/

/-- The string is an argument that has been read. -/
def Place.Holds (s : List UInt16) (r : List Call × Place) : Prop :=
  (∃ c ∈ r.1, .string s ∈ c.args) ∨
    match r.2 with
    | .argument _ args | .behind _ args => .string s ∈ args
    | _ => False

variable {s : List UInt16} {r r' : List Call × Place} {t : Token}

/-- The call that has just been read is the last of the calls. -/
theorem Place.Holds.called {done : List Call} {f : List UInt16} {args : List Literal}
    (h : Holds s (done ++ [⟨f, args⟩], .close)) :
    (∃ c ∈ done, .string s ∈ c.args) ∨ .string s ∈ args := by
  rcases h with ⟨c, hc, member⟩ | no
  · rcases List.mem_append.mp hc with hc | last
    · exact .inl ⟨c, hc, member⟩
    · rw [List.mem_singleton.mp last] at member
      exact .inr member
  · exact no.elim

/-- A token is the string itself, or adds none. -/
theorem Place.Holds.of_step (h : Holds s r') (hs : Place.step r t = some r') :
    Holds s r ∨ t = .string s ∧ ∃ f args, r'.2 = .behind f args := by
  obtain ⟨done, place⟩ := r
  have literal : ∀ l : Literal, t.literal = some l → l = .string s → t = .string s := by
    rintro l value rfl
    cases t with
    | word w =>
        simp only [Token.literal, wordLiteral] at value
        repeat (first | split at value | cases value)
    | string s' =>
        cases value
        rfl
    | punctuator u => cases value
  cases place with
  | start =>
      cases t with
      | word f =>
          obtain ⟨-, hs⟩ := Option.ite_none_right_eq_some.mp hs
          obtain rfl := Option.some.inj hs
          exact .inl (h.imp_right False.elim)
      | string s => cases hs
      | punctuator u => cases hs
  | callee f =>
      obtain ⟨-, hs⟩ := Option.ite_none_right_eq_some.mp hs
      obtain rfl := Option.some.inj hs
      exact .inl h
  | first f =>
      simp only [step] at hs
      split at hs
      · obtain rfl := Option.some.inj hs
        rcases h.called with known | no
        · exact .inl (.inl known)
        · cases no
      · obtain ⟨l, value, rfl⟩ := Option.map_eq_some_iff.mp hs
        rcases h with known | new
        · exact .inl (.inl known)
        · exact .inr ⟨literal l value (List.mem_singleton.mp new).symm, f, _, rfl⟩
  | argument f args =>
      obtain ⟨l, value, rfl⟩ := Option.map_eq_some_iff.mp hs
      rcases h with known | new
      · exact .inl (.inl known)
      · rcases List.mem_append.mp new with old | new
        · exact .inl (.inr old)
        · exact .inr ⟨literal l value (List.mem_singleton.mp new).symm, f, _, rfl⟩
  | behind f args =>
      simp only [step] at hs
      split at hs
      · obtain rfl := Option.some.inj hs
        exact .inl h
      · obtain ⟨-, hs⟩ := Option.ite_none_right_eq_some.mp hs
        obtain rfl := Option.some.inj hs
        exact .inl h.called
  | close =>
      obtain ⟨-, hs⟩ := Option.ite_none_right_eq_some.mp hs
      obtain rfl := Option.some.inj hs
      exact .inl h

/-- Behind a token that is no string, nothing is read that was not there or comes later. -/
theorem Occurs.of_token {front us text : List UInt16} (whole : text = front ++ us)
    (lexed : lex text = (lex us).map (t :: ·)) (notString : t ≠ .string s)
    (ih : ∀ {r}, scan r us = some r' → Place.Holds s r ∨ Occurs us s)
    (h : scan r text = some r') : Place.Holds s r ∨ Occurs text s := by
  rw [scan_token lexed] at h
  obtain ⟨next, hs, h⟩ := Option.bind_eq_some_iff.mp h
  rcases ih h with known | later
  · rcases known.of_step hs with known | ⟨string, -⟩
    · exact .inl known
    · exact absurd string notString
  · rw [whole]
    exact .inr (later.append front)

/-- What has been read was there before or stands in the text. -/
theorem Occurs.of_scan {text : List UInt16} (h : scan r text = some r')
    (holds : Place.Holds s r') : Place.Holds s r ∨ Occurs text s := by
  induction text using lex.induct generalizing r with
  | case1 =>
      rw [scan_nil] at h
      obtain rfl := Option.some.inj h
      exact .inl holds
  | case2 u us space ih =>
      rw [scan, lex_space space, ← scan] at h
      exact (ih h).imp_right (·.append [u])
  | case3 u us _ punctuator ih =>
      have whole : u :: us = [u] ++ us := rfl
      exact Occurs.of_token whole (lex_punctuator punctuator) (by simp) ih h
  | case4 us refused _ _ =>
      rw [scan_string, refused] at h
      cases h
  | case5 us v rest read _ _ ih =>
      rw [scan_string, read, Option.bind_some] at h
      obtain ⟨next, hs, h⟩ := Option.bind_eq_some_iff.mp h
      have goesOn : (scan next rest).isSome = true := by rw [h]; rfl
      rcases ih h with known | later
      · rcases known.of_step hs with known | ⟨same, f, args, place⟩
        · exact .inl known
        · obtain rfl := Token.string.inj same
          obtain ⟨done, place'⟩ := next
          obtain rfl : place' = .behind f args := place
          exact .inr ⟨us, rest, done, f, args, List.suffix_refl _, read, goesOn⟩
      · obtain ⟨us', rest', done, f, args, suffix, read', goesOn'⟩ := later
        have behind := (literal_suffix read).trans (List.suffix_cons 0x22 us)
        exact .inr ⟨us', rest', done, f, args, suffix.trans behind, read', goesOn'⟩
  | case6 u us notSpace notPunctuator notQuote word ih =>
      have whole : u :: us = (u :: us.takeWhile isWordUnit) ++ us.dropWhile isWordUnit := by
        rw [List.cons_append, List.takeWhile_append_dropWhile]
      have lexed : lex (u :: us) = (lex (us.dropWhile isWordUnit)).map
          (.word (u :: us.takeWhile isWordUnit) :: ·) := by
        rw [lex, if_neg notSpace, if_neg notPunctuator, if_neg notQuote, if_pos word]
      exact Occurs.of_token whole lexed (by simp) ih h
  | case7 u us notSpace notPunctuator notQuote notWord =>
      rw [scan, lex, if_neg notSpace, if_neg notPunctuator, if_neg notQuote, if_neg notWord] at h
      cases h

/-- Every string among the arguments stands in the text. -/
theorem Occurs.of_program {text : List UInt16} {calls : List Call} (h : program text = some calls)
    {c : Call} (hc : c ∈ calls) (argument : .string s ∈ c.args) : Occurs text s := by
  have holds : Place.Holds s (calls, .start) := .inl ⟨c, hc, argument⟩
  rcases Occurs.of_scan (program_eq_some.mp h) holds with (⟨c, no, -⟩ | no) | occurs
  · cases no
  · exact no.elim
  · exact occurs

/-! ### Behind a literal -/

/-- A unit of an identifier, or another one that is not ASCII and no white space. -/
def isIdentifierUnit (u : UInt16) : Bool := isNameUnit u || (0x80 ≤ u && !isSpace u)

theorem plain_of_isIdentifierUnit {u : UInt16} (h : isIdentifierUnit u = true) : ¬ Special u := by
  rintro (rfl | rfl | newLine)
  · cases h
  · cases h
  · simp only [isLineTerminator, Bool.or_eq_true, beq_iff_eq] at newLine
    rcases newLine with ((rfl | rfl) | rfl) | rfl <;> cases h

/-- No identifier follows a literal, nor another literal. -/
theorem scan_behind_identifier {w : List UInt16} (identifier : w.all isIdentifierUnit = true)
    (done : List Call) (f : List UInt16) (args : List Literal) (us : List UInt16) :
    scan (done, .behind f args) (w ++ 0x22 :: us) = none := by
  have refused : ∀ (t : Token) (us' : List UInt16), (∀ u, t ≠ .punctuator u) →
      lex (w ++ 0x22 :: us) = (lex us').map (t :: ·) →
      scan (done, .behind f args) (w ++ 0x22 :: us) = none := by
    intro t us' notPunctuator lexed
    rw [scan_token lexed]
    simp only [Place.step, if_neg (notPunctuator _), Option.bind_none]
  cases w with
  | nil =>
      rw [List.nil_append, scan_string]
      cases literal us with
      | none => rfl
      | some l => rfl
  | cons u w =>
      obtain ⟨first, -⟩ := Bool.and_eq_true_iff.mp identifier
      by_cases word : isWordUnit u = true
      · obtain ⟨notSpace, notPunctuator, notQuote⟩ := begins_word word
        refine refused (.word (u :: (w ++ 0x22 :: us).takeWhile isWordUnit))
          ((w ++ 0x22 :: us).dropWhile isWordUnit) (by simp) ?_
        rw [List.cons_append, lex, if_neg (by simp [notSpace]), if_neg (by simp [notPunctuator]),
          if_neg notQuote, if_pos word]
      · have notName : isNameUnit u = false := by
          simp only [isWordUnit, Bool.or_eq_true, not_or, Bool.not_eq_true] at word
          exact word.1.1.1
        simp only [isIdentifierUnit, notName, Bool.false_or, Bool.and_eq_true, decide_eq_true_eq,
          Bool.not_eq_true'] at first
        obtain ⟨high, notSpace⟩ := first
        have notPunctuator : isPunctuator u = false := by
          simp only [isPunctuator, decide_eq_false_iff_not, List.mem_cons,
            List.not_mem_nil, or_false]
          rintro (rfl | rfl | rfl | rfl) <;> exact absurd high (by decide)
        have notQuote : u ≠ 0x22 := by
          rintro rfl
          exact absurd high (by decide)
        rw [List.cons_append, scan, lex, if_neg (by simp [notSpace]),
          if_neg (by simp [notPunctuator]),
          if_neg notQuote, if_neg word]
        rfl

end Js.Source
