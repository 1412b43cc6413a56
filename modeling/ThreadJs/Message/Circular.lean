import ThreadJs.Lib.Graph
import ThreadJs.Message.CreateNode

/-!
Data that come back to themselves (`send` of `context.js`).

`JSON.stringify` has no mark on the objects that it has entered but the path it is on, and
`send` passes on the exception that it throws on that path. `send_throws_iff_circular` says for
which data, over the graph that they are a part of.
-/

namespace ThreadJs.Message

open Js Graph

/-- The objects that a value leads to at once. -/
def refs : Js.Value → List ℕ
  | .ref address => [address]
  | _ => []

/-- The objects that an object leads to at once. -/
def successors (h : Heap) (address : ℕ) : List ℕ :=
  match h.node address with
  | .array elems => elems.flatMap refs
  | .object members => members.flatMap fun m => refs m.2

/-- Following members and elements leads around in a circle. -/
def Circular (h : Heap) (v : Js.Value) : Prop :=
  ∃ address ∈ refs v, ReachesCycle (successors h) address

variable {h : Heap} {v : Js.Value} {depth : ℕ}

/-- The path of `JSON.stringify` is a walk in the graph. -/
theorem isSome_serialize (h : Heap) (depth : ℕ) (v : Js.Value) :
    (serialize h depth v).isSome = (refs v).all (fits (successors h) depth) := by
  induction depth generalizing v with
  | zero =>
      cases v with
      | number n => cases n with
        | finite | infinity | nan => rfl
      | undefined | null | boolean | string | function | ref => rfl
  | succ depth ih =>
      cases v with
      | number n => cases n with
        | finite | infinity | nan => rfl
      | undefined | null | boolean | string | function => rfl
      | ref address =>
          have single : (refs (.ref address)).all (fits (successors h) (depth + 1)) =
              (successors h address).all (fits (successors h) depth) := by
            rw [refs, List.all_cons, List.all_nil, Bool.and_true, fits]
          rw [single, successors, serialize]
          cases h.node address with
          | array elems =>
              have all := isSome_mapM (f := serialize h depth) elems
              simp only [ih] at all
              rw [List.all_flatMap, ← all]
              change ((elems.mapM (serialize h depth)).bind _).isSome = _
              cases elems.mapM (serialize h depth) with
              | none => rfl
              | some js => rfl
          | object members =>
              have all := isSome_mapM (f := serializeMember h depth) members
              simp only [serializeMember, Option.isSome_map, ih] at all
              rw [List.all_flatMap, ← all]
              change ((members.mapM (serializeMember h depth)).bind _).isSome = _
              cases members.mapM (serializeMember h depth) with
              | none => rfl
              | some js => rfl

/-- Beyond the end of the heap there are empty objects. -/
theorem lt_of_successors {address : ℕ} (leads : successors h address ≠ []) :
    address < h.length := by
  by_contra outside
  have empty : h.node address = .object [] := by
    rw [Heap.node, List.getD, List.getElem?_eq_none (Nat.le_of_not_lt outside), Option.getD_none]
  exact leads (by rw [successors, empty]; rfl)

/-- `JSON.stringify` throws exactly at data that are circular. -/
theorem stringify_eq_none_iff : stringify h v = none ↔ Circular h v := by
  rw [← Option.not_isSome_iff_eq_none, stringify, isSome_serialize,
    all_fits_iff fun _ => lt_of_successors, not_not, Circular]

variable {Value Err : Type}

/-- **`send` throws for a circle exactly if there is one**: with a constructor id that it takes,
it throws a TypeError if following the elements and members of the data leads around in a
circle, and otherwise hands a message to `_send`; with another id it throws an Error. Data with a
`toJSON` are left out, as in `stringify`. -/
theorem send_throws_iff_circular (side : Side Json Value Err) (heap : Heap) (c : Call) :
    ((∃ text, message side heap c = .error ⟨"TypeError", text⟩) ↔
      (∃ w, send side c.name c.data c.constructorId = .ok w) ∧ Circular heap c.data) ∧
    ((∃ w, message side heap c = .ok w) ↔
      (∃ w, send side c.name c.data c.constructorId = .ok w) ∧ ¬ Circular heap c.data) := by
  have same : ∀ w, send side c.name c.data c.constructorId = .ok w → w.data = c.data := by
    intro w sent
    unfold send at sent
    split at sent
    · cases sent
      rfl
    · dsimp only at sent
      split at sent
      · cases sent
      · split at sent
        · cases sent
          rfl
        · cases sent
  rw [message]
  cases sent : send side c.name c.data c.constructorId with
  | error err => simp
  | ok w =>
      have circular := stringify_eq_none_iff (h := heap) (v := c.data)
      rw [← same w sent] at circular ⊢
      cases text : stringify heap w.data with
      | none => simp [text, circular.mp text]
      | some json =>
          have straight : ¬ Circular heap w.data := fun circle =>
            absurd (circular.mpr circle) (text ▸ nofun)
          simp [text, straight]

end ThreadJs.Message
