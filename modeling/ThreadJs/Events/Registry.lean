import Mathlib.Data.List.TakeWhile
import ThreadJs.Events.Emitter

/-!
What an event emitter is for: a map from event names to ordered lists of
(callback, once?) entries.

`Registry.step` is the intended meaning of each operation, with no node, link or
counter in it. `HeadRemoval` singles out the operations that the linked lists of
`lib/events.js` carry out as intended: those that take out a leading block of
the list of the name.
-/

namespace ThreadJs.Events

/-- One registration. -/
structure Entry (Cb : Type) where
  cb : Cb
  once : Bool
deriving DecidableEq, Repr

abbrev Registry (Name Cb : Type) := Name → List (Entry Cb)

/-! ### Leading blocks -/

/-- The elements that satisfy `p` form a leading block of the list. -/
def Leading {α : Type} (p : α → Bool) (l : List α) : Prop := ∀ x ∈ l.dropWhile p, p x = false

instance {α : Type} (p : α → Bool) (l : List α) : Decidable (Leading p l) := by
  unfold Leading; infer_instance

theorem leading_of_all {α : Type} {p : α → Bool} {l : List α} (h : ∀ x ∈ l, p x = true) :
    Leading p l := by
  intro x hx
  rw [List.dropWhile_eq_nil_iff.mpr h] at hx
  cases hx

/-- Dropping a leading block is filtering. -/
theorem dropWhile_eq_filter_iff {α : Type} {p : α → Bool} {l : List α} :
    l.dropWhile p = l.filter (fun x => !p x) ↔ Leading p l := by
  constructor
  · intro h x hx
    rw [h] at hx
    simpa using List.of_mem_filter hx
  · intro h
    induction l with
    | nil => rfl
    | cons a l ih =>
        unfold Leading at h
        cases ha : p a with
        | true =>
            rw [List.dropWhile_cons_of_pos ha] at h ⊢
            rw [List.filter_cons_of_neg (by simp [ha]), ih h]
        | false =>
            rw [List.dropWhile_cons_of_neg (by simp [ha])] at h ⊢
            refine (List.filter_eq_self.mpr fun x hx => ?_).symm
            simpa using h x hx

/-- Filtering takes out at least the leading block. -/
theorem filter_sublist_dropWhile {α : Type} (p : α → Bool) (l : List α) :
    (l.filter fun x => !p x).Sublist (l.dropWhile p) := by
  induction l with
  | nil => exact .slnil
  | cons a l ih =>
      cases ha : p a with
      | true =>
          rw [List.dropWhile_cons_of_pos ha, List.filter_cons_of_neg (by simp [ha])]
          exact ih
      | false =>
          rw [List.dropWhile_cons_of_neg (by simp [ha])]
          exact List.filter_sublist

theorem leading_of_length_eq {α : Type} {p : α → Bool} {l : List α}
    (h : (l.dropWhile p).length = (l.filter fun x => !p x).length) : Leading p l :=
  dropWhile_eq_filter_iff.mp ((filter_sublist_dropWhile p l).eq_of_length h.symm).symm

theorem leading_map {α β : Type} {p : β → Bool} {f : α → β} {l : List α} :
    Leading p (l.map f) ↔ Leading (p ∘ f) l := by
  unfold Leading
  rw [List.dropWhile_map]
  simp

/-- What is left is as long as the number of entries that were to stay exactly
when a leading block was taken out. -/
theorem leading_iff_length {α : Type} {p : α → Bool} {l : List α} :
    Leading p l ↔ ((l.dropWhile p).length : Int) = l.length - l.countP p := by
  have split := l.length_eq_countP_add_countP p
  simp only [Bool.not_eq_true, Bool.decide_eq_false] at split
  rw [List.countP_eq_length_filter (p := fun a => !p a)] at split
  constructor
  · intro lead
    rw [dropWhile_eq_filter_iff.mpr lead]
    omega
  · intro length
    exact leading_of_length_eq (by omega)

/-! ### The abstract emitter -/

namespace Registry

variable {Name Cb Data : Type}

def empty : Registry Name Cb := fun _ => []

def register [DecidableEq Name] (r : Registry Name Cb) (name : Name) (e : Entry Cb) :
    Registry Name Cb :=
  Function.update r name (r name ++ [e])

/-- Take out the entries of a name that satisfy `takes`, and no other. -/
def takeOut [DecidableEq Name] (r : Registry Name Cb) (name : Name) (takes : Entry Cb → Bool) :
    Registry Name Cb :=
  Function.update r name ((r name).filter fun e => !takes e)

/-- The entries that `removeListener(name, cb)` is asked to take out. -/
def listens [DecidableEq Cb] (cb : Option Cb) (e : Entry Cb) : Bool :=
  match cb with
  | some c => decide (e.cb = c)
  | none => true

/-- The intended step. `emit` calls the entries of the name in order, each once,
and takes out the once entries among them. -/
def step [DecidableEq Name] [DecidableEq Cb] (r : Registry Name Cb) :
    Op Name Cb Data → Registry Name Cb × List (Call Cb Data)
  | .on name cb => (r.register name ⟨cb, false⟩, [])
  | .once name cb => (r.register name ⟨cb, true⟩, [])
  | .removeListener name cb => (r.takeOut name (listens cb), [])
  | .removeAllListeners => (empty, [])
  | .emit name data => (r.takeOut name Entry.once, (r name).map fun e => (e.cb, data))

end Registry

section Condition

variable {Name Cb Data : Type} [DecidableEq Cb]

/-- No entry that the operation takes out stands behind an entry that it keeps.
It restricts `removeListener(name, cb)` and `emit` only. -/
def HeadRemoval (r : Registry Name Cb) : Op Name Cb Data → Prop
  | .removeListener name cb => Leading (Registry.listens cb) (r name)
  | .emit name _ => Leading Entry.once (r name)
  | _ => True

/-- Taking out every listener of a name is never restricted. -/
theorem headRemoval_removeListener_all (r : Registry Name Cb) (name : Name) :
    HeadRemoval r (.removeListener name none : Op Name Cb Data) :=
  leading_of_all fun _ _ => rfl

end Condition

end ThreadJs.Events
