import ThreadJs.Lib.Js.Source

/-!
The lines of a source text as an engine numbers them. `\r\n` ends one line, and so does each
other line terminator.

* `lineOf_append`, `lineOf_left` — positions in a text that is put together.
* `lines_eq_count_iff` — where it is enough to count `\n`; `lfOnly_append`.
-/

namespace Js.Source

/-- The unit ends a line; `next` stands behind it. -/
def endsLine (u : UInt16) (next : Option UInt16) : Bool :=
  isLineTerminator u && !(u == 0x0D && next == some 0x0A)

/-- The line of a position, counted from 0: how many lines end before it. -/
def lineOf : List UInt16 → Nat → Nat
  | _, 0 => 0
  | [], _ + 1 => 0
  | u :: us, n + 1 => (endsLine u us.head?).toNat + lineOf us n

/-- How many lines end in a text. -/
def lines (us : List UInt16) : Nat := lineOf us us.length

/-- The text has no line terminator but `\n` and `\r\n`. -/
def LfOnly (us : List UInt16) : Prop :=
  ∀ front u rest, us = front ++ u :: rest → isLineTerminator u = true →
    u = 0x0A ∨ u = 0x0D ∧ rest.head? = some 0x0A

theorem lines_cons (u : UInt16) (us : List UInt16) :
    lines (u :: us) = (endsLine u us.head?).toNat + lines us := rfl

theorem endsLine_newLine (next : Option UInt16) : endsLine 0x0A next = true := rfl

/-- Only of `\r` it matters what is behind it. -/
theorem endsLine_of_ne {u : UInt16} (other : u ≠ 0x0D) (next : Option UInt16) :
    endsLine u next = isLineTerminator u := by
  rw [endsLine, beq_eq_false_iff_ne.mpr other, Bool.false_and, Bool.not_false, Bool.and_true]

section Append

variable {us vs : List UInt16}

/-- A position in the second of two texts. -/
theorem lineOf_append (last : us.getLast? ≠ some 0x0D) (i : Nat) :
    lineOf (us ++ vs) (us.length + i) = lines us + lineOf vs i := by
  induction us with
  | nil => rw [List.nil_append, List.length_nil, Nat.zero_add, lines, List.length_nil, lineOf,
      Nat.zero_add]
  | cons u us ih =>
      have next : endsLine u (us ++ vs).head? = endsLine u us.head? := by
        cases us with
        | nil =>
            have other : u ≠ 0x0D := fun same => last (same ▸ rfl)
            rw [endsLine_of_ne other, endsLine_of_ne other]
        | cons v us => rfl
      have rest : us.getLast? ≠ some 0x0D := by
        intro same
        apply last
        rw [List.getLast?_cons, same]
        rfl
      have length : (u :: us).length + i = us.length + i + 1 := by
        rw [List.length_cons]
        omega
      rw [List.cons_append, length, lineOf, next, ih rest, lines_cons, Nat.add_assoc]

/-- A position in the first of two texts. -/
theorem lineOf_left {i : Nat} (inside : i < us.length) :
    lineOf (us ++ vs) i = lineOf us i := by
  induction us generalizing i with
  | nil => exact absurd inside (Nat.not_lt_zero i)
  | cons u us ih =>
      cases i with
      | zero => rw [lineOf, lineOf]
      | succ i =>
          have inside : i < us.length := Nat.lt_of_succ_lt_succ inside
          have next : (us ++ vs).head? = us.head? := by
            cases us with
            | nil => exact absurd inside (Nat.not_lt_zero i)
            | cons v us => rfl
          rw [List.cons_append, lineOf, lineOf, next, ih inside]

theorem lines_append (last : us.getLast? ≠ some 0x0D) :
    lines (us ++ vs) = lines us + lines vs := by
  rw [lines, List.length_append, lineOf_append last, ← lines]

end Append

theorem lfOnly_cons {u : UInt16} {us : List UInt16} :
    LfOnly (u :: us) ↔ (isLineTerminator u = true → u = 0x0A ∨ u = 0x0D ∧ us.head? = some 0x0A) ∧
      LfOnly us := by
  constructor
  · intro h
    refine ⟨h [] u us rfl, fun front v rest split => ?_⟩
    exact h (u :: front) v rest (by rw [split, List.cons_append])
  · rintro ⟨first, rest⟩ front v back split
    cases front with
    | nil =>
        obtain ⟨rfl, rfl⟩ := List.cons.inj split
        exact first
    | cons w front => exact rest front v back (List.cons.inj split).2

/-- Counting `\n` gives no more than the lines, and gives them exactly if nothing else ends
one. -/
theorem lines_spec (us : List UInt16) :
    us.count 0x0A ≤ lines us ∧ (lines us = us.count 0x0A ↔ LfOnly us) := by
  induction us with
  | nil => exact ⟨Nat.le_refl _, iff_of_true rfl (by simp [LfOnly])⟩
  | cons u us ih =>
      obtain ⟨le, same⟩ := ih
      rw [lines_cons, lfOnly_cons, ← same]
      by_cases newLine : u = 0x0A
      · subst newLine
        rw [List.count_cons_self, endsLine_newLine]
        simp only [Bool.toNat_true, true_or, implies_true, true_and]
        omega
      · rw [List.count_cons_of_ne newLine]
        cases ends : endsLine u us.head? with
        | false =>
            have allowed : isLineTerminator u = true →
                u = 0x0A ∨ u = 0x0D ∧ us.head? = some 0x0A := by
              intro terminator
              exact .inr (by simpa [endsLine, terminator] using ends)
            rw [and_iff_right allowed, Bool.toNat_false, Nat.zero_add]
            exact ⟨le, Iff.rfl⟩
        | true =>
            obtain ⟨terminator, single⟩ := Bool.and_eq_true_iff.mp ends
            have not : ¬ (isLineTerminator u = true →
                u = 0x0A ∨ u = 0x0D ∧ us.head? = some 0x0A) := by
              intro h
              rcases h terminator with newLine' | ⟨rfl, next⟩
              · exact newLine newLine'
              · rw [next] at single
                cases single
            simp only [not, false_and, iff_false, Bool.toNat_true]
            omega

theorem lines_eq_count_iff {us : List UInt16} : lines us = us.count 0x0A ↔ LfOnly us :=
  (lines_spec us).2

theorem lfOnly_append {us vs : List UInt16} (last : us.getLast? ≠ some 0x0D) :
    LfOnly (us ++ vs) ↔ LfOnly us ∧ LfOnly vs := by
  rw [← lines_eq_count_iff, ← lines_eq_count_iff, ← lines_eq_count_iff, lines_append last,
    List.count_append]
  have left := (lines_spec us).1
  have right := (lines_spec vs).1
  omega

theorem LfOnly.of_newLines {us : List UInt16}
    (newLines : ∀ u ∈ us, isLineTerminator u = true → u = 0x0A) : LfOnly us := by
  intro front u rest split terminator
  refine .inl (newLines u ?_ terminator)
  rw [split]
  exact List.mem_append_right _ List.mem_cons_self

end Js.Source
