import Mathlib.Data.Finset.Card
import Mathlib.Logic.Relation

/-!
Following the edges of a graph to their ends, without marks on the vertices.

* `not_fits_of_reachesCycle` — a walk that comes to a cycle does not end.
* `all_fits_iff` — without one it ends, after as many edges as there are vertices with
  successors.
* `isSome_mapM` — a partial function is applied to all members of a list.
-/

namespace Graph

open Relation

variable {V : Type*} {succ : V → List V} {v w : V}

def Edge (succ : V → List V) (v w : V) : Prop := w ∈ succ v

/-- The walk from `v` ends where it may pass through `depth` vertices. -/
def fits (succ : V → List V) : (depth : ℕ) → V → Bool
  | 0, _ => false
  | depth + 1, v => (succ v).all (fits succ depth)

def ReachesCycle (succ : V → List V) (v : V) : Prop :=
  ∃ w, ReflTransGen (Edge succ) v w ∧ TransGen (Edge succ) w w

theorem fits_succ {depth : ℕ} :
    fits succ (depth + 1) v = true ↔ ∀ w ∈ succ v, fits succ depth w = true := by
  rw [fits, List.all_eq_true]

theorem fits_mono {depth more : ℕ} (le : depth ≤ more) (h : fits succ depth v = true) :
    fits succ more v = true := by
  induction depth generalizing v more with
  | zero => cases h
  | succ depth ih =>
      obtain ⟨rest, rfl⟩ := Nat.exists_eq_add_of_le' (Nat.le_trans (Nat.succ_pos depth) le)
      exact fits_succ.mpr fun w hw => ih (Nat.le_of_succ_le_succ le) (fits_succ.mp h w hw)

theorem fits_of_edge {depth : ℕ} (edge : Edge succ v w) (h : fits succ depth v = true) :
    fits succ depth w = true := by
  cases depth with
  | zero => cases h
  | succ depth => exact fits_mono (Nat.le_succ depth) (fits_succ.mp h w edge)

theorem fits_of_reaches {depth : ℕ} (path : ReflTransGen (Edge succ) v w)
    (h : fits succ depth v = true) : fits succ depth w = true := by
  induction path with
  | refl => exact h
  | tail _ edge ih => exact fits_of_edge edge ih

/-- A walk around a cycle does not end. -/
theorem not_fits_of_cycle (cycle : TransGen (Edge succ) v v) (depth : ℕ) :
    ¬ fits succ depth v = true := by
  induction depth with
  | zero => exact Bool.false_ne_true
  | succ depth ih =>
      intro h
      obtain ⟨w, edge, back⟩ := TransGen.head'_iff.mp cycle
      exact ih (fits_of_reaches back (fits_succ.mp h w edge))

theorem not_fits_of_reachesCycle (h : ReachesCycle succ v) (depth : ℕ) :
    ¬ fits succ depth v = true := by
  obtain ⟨w, path, cycle⟩ := h
  exact fun fit => not_fits_of_cycle cycle depth (fits_of_reaches path fit)

/-- The vertices of a walk that has not ended. -/
theorem exists_path {depth : ℕ} (h : ¬ fits succ depth v = true) :
    ∃ path : List V, path.length = depth ∧ path.Pairwise (TransGen (Edge succ)) ∧
      ∀ u ∈ path, ReflTransGen (Edge succ) v u ∧ succ u ≠ [] := by
  induction depth generalizing v with
  | zero => exact ⟨[], rfl, .nil, fun u none => absurd none List.not_mem_nil⟩
  | succ depth ih =>
      rw [fits_succ, not_forall] at h
      obtain ⟨w, h⟩ := h
      obtain ⟨edge, unfit⟩ := Classical.not_imp.mp h
      obtain ⟨path, length, apart, along⟩ := ih unfit
      refine ⟨v :: path, congrArg Nat.succ length, .cons ?_ apart, ?_⟩
      · intro u hu
        exact .head' edge (along u hu).1
      · intro u hu
        rcases List.mem_cons.mp hu with rfl | later
        · exact ⟨.refl, List.ne_nil_of_mem edge⟩
        · exact ⟨.head edge (along u later).1, (along u later).2⟩

section Finite

variable {support : Finset V} (inside : ∀ u, succ u ≠ [] → u ∈ support)
include inside

/-- Without a cycle the walk meets each vertex with successors once at most. -/
theorem fits_card (acyclic : ¬ ReachesCycle succ v) :
    fits succ (support.card + 1) v = true := by
  by_contra unfit
  obtain ⟨path, length, apart, along⟩ := exists_path unfit
  have nodup : path.Nodup := by
    refine apart.imp_of_mem fun {a b} ha _ far same => ?_
    subst same
    exact acyclic ⟨a, (along a ha).1, far⟩
  have subset : (⟨path, nodup⟩ : Finset V) ⊆ support := fun u hu => inside u (along u hu).2
  have le : path.length ≤ support.card := Finset.card_le_card subset
  rw [length] at le
  exact absurd le (Nat.not_succ_le_self _)

end Finite

/-- From none of the vertices a cycle is reached, where those with successors are below `n`. -/
theorem all_fits_iff {succ : ℕ → List ℕ} {n : ℕ} (inside : ∀ u, succ u ≠ [] → u < n)
    (vs : List ℕ) : vs.all (fits succ (n + 1)) = true ↔ ¬ ∃ v ∈ vs, ReachesCycle succ v := by
  have support : ∀ u, succ u ≠ [] → u ∈ Finset.range n := fun u leads =>
    Finset.mem_range.mpr (inside u leads)
  rw [List.all_eq_true, not_exists]
  refine forall_congr' fun v => ?_
  rw [not_and]
  refine imp_congr_right fun _ => ⟨fun fit cycle => not_fits_of_reachesCycle cycle _ fit, ?_⟩
  intro acyclic
  have fit := fits_card support acyclic
  rwa [Finset.card_range] at fit

/-! ### All at once -/

section Lists

variable {α β : Type*} {f : α → Option β}

theorem isSome_mapM (as : List α) : (as.mapM f).isSome = as.all fun a => (f a).isSome := by
  induction as with
  | nil => rfl
  | cons a as ih =>
      rw [List.mapM_cons, List.all_cons, ← ih]
      cases f a with
      | none => rfl
      | some b => cases as.mapM f with
        | none => rfl
        | some bs => rfl

theorem mapM_eq_map {g : α → β} {as : List α} (total : ∀ a ∈ as, f a = some (g a)) :
    as.mapM f = some (as.map g) := by
  induction as with
  | nil => rfl
  | cons a as ih =>
      obtain ⟨first, later⟩ := List.forall_mem_cons.mp total
      rw [List.mapM_cons, first, ih later]
      rfl

end Lists

end Graph
