import Mathlib.Data.List.Nodup

/-!
Association lists as finite maps.

Where no key occurs twice, `List.lookup` is membership.
-/

namespace Table

variable {κ α : Type} [BEq κ] [LawfulBEq κ] {l : List (κ × α)}

theorem lookup_eq_some_iff (once : (l.map Prod.fst).Nodup) {k : κ} {a : α} :
    l.lookup k = some a ↔ (k, a) ∈ l := by
  induction l with
  | nil => simp
  | cons e rest ih =>
      obtain ⟨k', a'⟩ := e
      obtain ⟨fresh, once⟩ := List.nodup_cons.mp once
      by_cases same : k = k'
      · subst same
        rw [List.lookup_cons_self, List.mem_cons, Prod.mk.injEq]
        constructor
        · intro found
          exact .inl ⟨rfl, (Option.some.inj found).symm⟩
        · rintro (⟨-, rfl⟩ | known)
          · rfl
          · exact absurd (List.mem_map_of_mem known) fresh
      · rw [List.lookup_cons, beq_eq_false_iff_ne.mpr same, ih once, List.mem_cons, Prod.mk.injEq]
        simp [same]

/-- Entries of one key can be removed without a trace at another key. -/
theorem lookup_filter_ne {k other : κ} (h : other ≠ k) :
    (l.filter (·.1 != k)).lookup other = l.lookup other := by
  induction l with
  | nil => rfl
  | cons e rest ih =>
      by_cases he : e.1 = k
      · have miss : (other == e.1) = false := beq_eq_false_iff_ne.mpr (he ▸ h)
        rw [List.filter_cons_of_neg (by simpa using he), ih, List.lookup_cons, miss]
      · rw [List.filter_cons_of_pos (by simpa using he), List.lookup_cons, List.lookup_cons, ih]

theorem mem_of_lookup {k : κ} {a : α} (found : l.lookup k = some a) : (k, a) ∈ l := by
  obtain ⟨before, after, rfl, -⟩ := List.lookup_eq_some_iff.mp found
  exact List.mem_append_right _ List.mem_cons_self

omit [LawfulBEq κ] in
/-- The values are mapped. -/
theorem lookup_map {β : Type} (f : α → β) (k : κ) :
    (l.map fun e => (e.1, f e.2)).lookup k = (l.lookup k).map f := by
  induction l with
  | nil => rfl
  | cons e rest ih =>
      rw [List.map_cons, List.lookup_cons, List.lookup_cons]
      cases k == e.1 with
      | true => rfl
      | false => exact ih

end Table
