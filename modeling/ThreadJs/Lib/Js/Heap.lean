import Mathlib.Data.List.Basic
import ThreadJs.Lib.Js.Number

/-!
Objects with identity, and `JSON.stringify` of what they hold.

A value is a primitive or the address of an object in a heap, so that what a value
reads as depends on the heap. `stringify` yields the tree of which the text is the
notation.
-/

namespace Js

/-- A value. Objects are known by their address. -/
inductive Value where
  | undefined
  | null
  | boolean (b : Bool)
  | number (n : Number)
  | string (s : String)
  | function
  | ref (address : ℕ)

/-- `Boolean(v)` -/
def Value.isTruthy : Value → Bool
  | .undefined | .null | .number .nan => false
  | .boolean b => b
  | .number (.infinity _) | .function | .ref _ => true
  | .number (.finite q) => q != 0
  | .string s => s != ""

inductive Node where
  | array (elems : List Value)
  | object (members : List (String × Value))

/-- Addresses beyond the end hold empty objects. -/
abbrev Heap := List Node

def Heap.node (h : Heap) (address : ℕ) : Node := h.getD address (.object [])

/-- The values that JSON can denote. -/
inductive Json where
  | null
  | boolean (b : Bool)
  | number (value : ℚ)
  | string (s : String)
  | array (elems : List Json)
  | object (members : List (String × Json))

/-- What stands for a value in an array. -/
def Json.orNull : Option Json → Json := (·.getD .null)

/-- `SerializeJSONProperty`: `some none` where the value is left out, and `none` where
the exception for a circular structure is thrown. `depth` is the number of objects that
a path may still pass through. -/
def serialize (h : Heap) : ℕ → Value → Option (Option Json)
  | _, .undefined | _, .function => some none
  | _, .null => some (some .null)
  | _, .boolean b => some (some (.boolean b))
  | _, .number (.finite q) => some (some (.number q))
  | _, .number _ => some (some .null)
  | _, .string s => some (some (.string s))
  | 0, .ref _ => none
  | depth + 1, .ref address =>
      match h.node address with
      | .array elems => do
          let js ← elems.mapM (serialize h depth)
          return some (.array (js.map Json.orNull))
      | .object members => do
          let js ← members.mapM fun m => (serialize h depth m.2).map fun j => j.map (m.1, ·)
          return some (.object (js.filterMap id))

/-- `JSON.stringify` of a value. A path through more objects than the heap has comes back to one of
them. Not every value is among these: objects with a `toJSON`, and boxed primitives, which are read
as the primitives in them (`new Number(0)` as 0), are left out. -/
def stringify (h : Heap) (v : Value) : Option (Option Json) := serialize h (h.length + 1) v

/-! ### What is kept of an object -/

/-- A member as it is kept, or left out. -/
def serializeMember (h : Heap) (depth : ℕ) (m : String × Value) : Option (Option (String × Json)) :=
  (serialize h depth m.2).map fun j => j.map (m.1, ·)

theorem stringify_ref (h : Heap) (address : ℕ) : stringify h (.ref address) =
    match h.node address with
    | .array elems => (elems.mapM (serialize h h.length)).map fun js =>
        some (.array (js.map Json.orNull))
    | .object members => (members.mapM (serializeMember h h.length)).map fun js =>
        some (.object (js.filterMap id)) := by
  rw [stringify, serialize]
  cases h.node address with
  | array elems => simp [Option.map_eq_bind]
  | object members =>
      change (members.mapM (serializeMember h h.length)).bind _ = _
      exact Option.map_eq_bind.symm

section Members

variable {h : Heap} {depth : ℕ} {members : List (String × Value)}
  {js : List (Option (String × Json))}

theorem mapM_serializeMember_cons {m : String × Value}
    (done : (m :: members).mapM (serializeMember h depth) = some js) :
    ∃ j rest, serialize h depth m.2 = some j ∧
      members.mapM (serializeMember h depth) = some rest ∧ js = j.map (m.1, ·) :: rest := by
  rw [List.mapM_cons, serializeMember] at done
  cases first : serialize h depth m.2 with
  | none => simp [first] at done
  | some j =>
      obtain ⟨rest, later, eq⟩ : ∃ rest, members.mapM (serializeMember h depth) = some rest ∧
          j.map (m.1, ·) :: rest = js := by
        simpa [first, Option.bind_eq_some_iff] using done
      exact ⟨j, rest, rfl, later, eq.symm⟩

/-- No key appears from nowhere. -/
theorem lookup_serialized_eq_none {key : String} (absent : key ∉ members.map Prod.fst)
    (done : members.mapM (serializeMember h depth) = some js) :
    (js.filterMap id).lookup key = none := by
  induction members generalizing js with
  | nil =>
      obtain rfl := Option.some.inj done
      rfl
  | cons m members ih =>
      obtain ⟨j, rest, -, later, rfl⟩ := mapM_serializeMember_cons done
      rw [List.map_cons, List.mem_cons, not_or] at absent
      have ne : (key == m.1) = false := beq_eq_false_iff_ne.mpr absent.1
      cases j with
      | none => simpa using ih absent.2 later
      | some j => simpa [List.lookup_cons, ne] using ih absent.2 later

/-- A member that is a string stays what it is. -/
theorem lookup_serialized_string {key text : String}
    (present : members.lookup key = some (.string text))
    (done : members.mapM (serializeMember h depth) = some js) :
    (js.filterMap id).lookup key = some (.string text) := by
  induction members generalizing js with
  | nil => cases present
  | cons m members ih =>
      obtain ⟨j, rest, first, later, rfl⟩ := mapM_serializeMember_cons done
      rw [List.lookup_cons] at present
      cases same : key == m.1 with
      | true =>
          rw [same] at present
          rw [Option.some.inj present] at first
          obtain rfl : some (.string text) = j := by simpa [serialize] using first
          simp [List.lookup_cons, same]
      | false =>
          rw [same] at present
          cases j with
          | none => simpa using ih present later
          | some j => simpa [List.lookup_cons, same] using ih present later

end Members

end Js
