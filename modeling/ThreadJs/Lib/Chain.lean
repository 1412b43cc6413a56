import Mathlib.Data.List.Basic
import Mathlib.Data.List.Nodup

/-!
Singly linked chains in an address space of natural numbers.

`Chain next h as` says that following `next` from `h` visits the addresses `as`,
in order, and then stops. A write away from the list does not change it
(`Chain.frame`), and a write at its last cell appends (`Chain.snoc`). `Reach next h a`
says that the address `a` is among them, whether or not the links come to an end.
-/

/-- Following `next` from the head visits exactly the listed addresses. -/
inductive Chain (next : Nat → Option Nat) : Option Nat → List Nat → Prop where
  | nil : Chain next none []
  | cons {a : Nat} {as : List Nat} : Chain next (next a) as → Chain next (some a) (a :: as)

namespace Chain

variable {next next' : Nat → Option Nat} {h : Option Nat} {as : List Nat}

@[simp] theorem nil_iff : Chain next h [] ↔ h = none := by
  constructor
  · rintro ⟨⟩
    rfl
  · rintro rfl
    exact .nil

@[simp] theorem cons_iff {a : Nat} :
    Chain next h (a :: as) ↔ h = some a ∧ Chain next (next a) as := by
  constructor
  · rintro (_ | hrest)
    exact ⟨rfl, hrest⟩
  · rintro ⟨rfl, hrest⟩
    exact .cons hrest

theorem head?_eq (c : Chain next h as) : as.head? = h := by
  cases c with
  | nil => rfl
  | cons _ => rfl

/-- Only the links of the visited cells matter. -/
theorem frame (c : Chain next h as) (agree : ∀ a ∈ as, next' a = next a) : Chain next' h as := by
  induction c with
  | nil => exact .nil
  | cons _ ih =>
      rename_i a as _
      apply Chain.cons
      rw [agree a List.mem_cons_self]
      exact ih fun b hb => agree b (List.mem_cons_of_mem _ hb)

/-- Every suffix of a chain is a chain from its own first cell. -/
theorem suffix {bs : List Nat} (c : Chain next h as) (hs : bs <:+ as) : Chain next bs.head? bs := by
  induction c generalizing bs with
  | nil =>
      rw [List.suffix_nil.mp hs]
      exact .nil
  | @cons a as hrest ih =>
      rcases List.suffix_cons_iff.mp hs with rfl | hs
      · exact .cons hrest
      · exact ih hs

/-- Linking a fresh last cell to the old last cell appends it. -/
theorem snoc {t b : Nat} (c : Chain next h as) (last : as.getLast? = some t) (nodup : as.Nodup)
    (fresh : b ∉ as) (stop : next' b = none) (link : next' t = some b)
    (agree : ∀ a ∈ as, a ≠ t → next' a = next a) : Chain next' h (as ++ [b]) := by
  induction c with
  | nil => simp at last
  | @cons a as hrest ih =>
      apply Chain.cons
      rw [List.nodup_cons] at nodup
      cases as with
      | nil =>
          obtain rfl : a = t := by simpa using last
          rw [link]
          exact .cons (stop ▸ .nil)
      | cons a' as =>
          have last' : (a' :: as).getLast? = some t := by simpa [List.getLast?_cons_cons] using last
          have ht : t ∈ a' :: as := List.mem_of_getLast? last'
          have hat : a ≠ t := fun e => nodup.1 (e ▸ ht)
          rw [agree a List.mem_cons_self hat]
          exact ih last' nodup.2 (fun hb => fresh (List.mem_cons_of_mem _ hb))
            fun x hx => agree x (List.mem_cons_of_mem _ hx)

end Chain

/-- The addresses that at most `n` links lead to. -/
def path (next : Nat → Option Nat) : Nat → Option Nat → List Nat
  | _, none | 0, some _ => []
  | n + 1, some a => a :: path next n (next a)

/-- Following `next` from the head comes to the address. -/
inductive Reach (next : Nat → Option Nat) : Option Nat → Nat → Prop where
  | here {a : Nat} : Reach next (some a) a
  | onwards {a b : Nat} : Reach next (next a) b → Reach next (some a) b

theorem Chain.mem_iff {next : Nat → Option Nat} {h : Option Nat} {as : List Nat}
    (c : Chain next h as) {a : Nat} : a ∈ as ↔ Reach next h a := by
  induction c with
  | nil =>
      constructor
      · intro mem
        cases mem
      · intro reach
        cases reach
  | @cons b as _ ih =>
      constructor
      · intro mem
        rcases List.mem_cons.mp mem with rfl | mem
        · exact .here
        · exact .onwards (ih.mp mem)
      · intro reach
        cases reach with
        | here => exact List.mem_cons_self
        | onwards later => exact List.mem_cons_of_mem b (ih.mpr later)

namespace Reach

variable {next next' : Nat → Option Nat} {h : Option Nat} {a b c : Nat}

theorem link (reach : Reach next h a) (hb : next a = some b) : Reach next h b := by
  induction reach with
  | here => exact .onwards (hb ▸ .here)
  | onwards _ ih => exact .onwards (ih hb)

theorem of_ne (reach : Reach next (some a) b) (ne : b ≠ a) : Reach next (next a) b := by
  cases reach with
  | here => exact absurd rfl ne
  | onwards later => exact later

/-- Stepping over a first cell loses nothing else. -/
theorem skip (reach : Reach next h b) (ne : b ≠ a) :
    Reach next (if some a = h then next a else h) b := by
  split
  · next isFirst =>
      rw [← isFirst] at reach
      exact reach.of_ne ne
  · exact reach

theorem of_skip (reach : Reach next (if some a = h then next a else h) b) : Reach next h b := by
  split at reach
  · next isFirst =>
      rw [← isFirst]
      exact .onwards reach
  · exact reach

/-- Only the links on the way matter. -/
theorem frame (reach : Reach next h a) (agree : ∀ b, Reach next h b → next' b = next b) :
    Reach next' h a := by
  induction reach with
  | here => exact .here
  | onwards _ ih =>
      apply Reach.onwards
      rw [agree _ .here]
      exact ih fun b later => agree b (.onwards later)

/-- New links to a fresh last cell lead to nothing else that is new. -/
theorem grow {d : Nat} (reach : Reach next' h a)
    (links : ∀ a b, next' a = some b → next a = some b ∨ b = d) (stop : next' d = none) :
    Reach next h a ∨ a = d := by
  induction reach with
  | here => exact .inl .here
  | @onwards a b later ih =>
      cases hc : next' a with
      | none =>
          rw [hc] at later
          cases later
      | some c =>
          rw [hc] at later ih
          rcases links a c hc with old | rfl
          · exact ih.imp_left fun reach => .onwards (old ▸ reach)
          · cases later with
            | here => exact .inr rfl
            | onwards beyond =>
                rw [stop] at beyond
                cases beyond

section Upwards

variable (up : ∀ a b, next a = some b → a < b)

include up

theorem le (reach : Reach next (some a) b) : a ≤ b := by
  generalize hh : some a = h at reach
  induction reach generalizing a with
  | here => exact Nat.le_of_eq (Option.some.inj hh)
  | @onwards c b later ih =>
      obtain rfl := Option.some.inj hh
      cases hc : next a with
      | none =>
          rw [hc] at later
          cases later
      | some c => exact Nat.le_trans (Nat.le_of_lt (up a c hc)) (ih hc.symm)

/-- The links behind the address do not matter. -/
theorem frame_lt (reach : Reach next h a) (agree : ∀ b < a, next' b = next b) :
    Reach next' h a := by
  induction reach with
  | here => exact .here
  | @onwards c a later ih =>
      have before : c < a := by
        cases hd : next c with
        | none =>
            rw [hd] at later
            cases later
        | some d =>
            rw [hd] at later
            exact Nat.lt_of_lt_of_le (up c d hd) (later.le up)
      apply Reach.onwards
      rw [agree c before]
      exact ih agree

/-- Nothing lies between the two ends of a link. -/
theorem le_of_link (ha : Reach next h a) (hb : Reach next h b) (link : next b = some c)
    (lt : a < c) : a ≤ b := by
  induction hb with
  | here =>
      cases ha with
      | here => exact Nat.le_refl _
      | onwards later =>
          rw [link] at later
          exact absurd (later.le up) (Nat.not_le.mpr lt)
  | onwards later ih =>
      cases ha with
      | here => exact Reach.le up (.onwards later)
      | onwards later' => exact ih later' link

end Upwards

end Reach

/-- Links that lead upwards visit the addresses in increasing order. -/
theorem Chain.sorted {next : Nat → Option Nat} (up : ∀ a b, next a = some b → a < b)
    {h : Option Nat} {as : List Nat} (c : Chain next h as) : as.Pairwise (· < ·) := by
  induction c with
  | nil => exact .nil
  | @cons a as rest ih =>
      refine .cons (fun b hb => ?_) ih
      have later := rest.mem_iff.mp hb
      cases hc : next a with
      | none =>
          rw [hc] at later
          cases later
      | some c =>
          rw [hc] at later
          exact Nat.lt_of_lt_of_le (up a c hc) (later.le up)

/-- Where the links lead upwards below a bound, the path is the whole chain. -/
theorem path_chain {next : Nat → Option Nat} {bound : Nat}
    (up : ∀ a b, next a = some b → a < b ∧ b < bound) (n : Nat) {h : Option Nat}
    (fits : ∀ a, h = some a → a < bound ∧ bound ≤ n + a) : Chain next h (path next n h) := by
  induction n generalizing h with
  | zero =>
      cases h with
      | none => exact .nil
      | some a =>
          have := fits a rfl
          omega
  | succ n ih =>
      cases h with
      | none => exact .nil
      | some a =>
          have := fits a rfl
          refine .cons (ih fun b hb => ?_)
          have := up a b hb
          omega
