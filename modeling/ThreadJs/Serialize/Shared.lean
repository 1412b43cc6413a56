import ThreadJs.Lib.Graph
import ThreadJs.Serialize.Normal

/-!
Saving values that share objects or lead back to themselves (`serialize.cc`).

`create_data_with_type` follows elements and properties, and keeps no account of the objects
that it has been at. So an object that is reached twice is saved twice, and the recursion does
not end where a way leads around in a circle (`js_save_returns_iff`).
-/

namespace ThreadJs.Serialize.Shared

open Graph

/-- A value that is neither an array nor an object with properties. -/
structure Atom (D : Type) where
  value : JsValue D
  leaf : value.isLeaf = true

/-- What stands in an element or a property. -/
inductive Slot (D : Type) where
  | atom (v : Atom D)
  | ref (address : ℕ)

inductive Node (D : Type) where
  /-- The elements, where `none` is a hole. -/
  | array (elems : List (Option (Slot D)))
  /-- The enumerable properties, own and of the prototypes. -/
  | object (own inherited : List (String × Slot D))

/-- Addresses beyond the end hold empty objects. -/
abbrev Heap (D : Type) := List (Node D)

variable {D : Type}

def Heap.node (h : Heap D) (address : ℕ) : Node D := h.getD address (.object [] [])

def undefined : Slot D := .atom ⟨.undefined, rfl⟩

section Properties

variable (own inherited : List (String × Slot D))

/-- `obj->GetPropertyNames()`. -/
def names : List Name :=
  getPropertyNames (D := D) (own.map fun p => (p.1, .undefined))
    (inherited.map fun p => (p.1, .undefined))

/-- `obj->Get(k)`. -/
def get (key : String) : Slot D := ((own ++ inherited).lookup key).getD undefined

end Properties

/-- `create_data_with_type`, with room for `depth` calls inside one another. -/
def createDataWithType (h : Heap D) : (depth : ℕ) → Slot D → Option (JData D)
  | _, .atom v => some (set v.value [] [])
  | 0, .ref _ => none
  | depth + 1, .ref address =>
      match h.node address with
      | .array elems =>
          (elems.mapM fun e => createDataWithType h depth (e.getD undefined)).map .array
      | .object own inherited =>
          ((names own inherited).mapM fun name =>
            (createDataWithType h depth (get own inherited name.key)).map (name.toChar, ·)).map
              .object

/-! ### The tree of a value -/

/-- The value with every object in all its places, down to `depth` objects. -/
def unfold (h : Heap D) : (depth : ℕ) → Slot D → JsValue D
  | _, .atom v => v.value
  | 0, .ref _ => .undefined
  | depth + 1, .ref address =>
      match h.node address with
      | .array elems => .array (elems.map fun e => e.map (unfold h depth)) []
      | .object own inherited =>
          .object (own.map fun p => (p.1, unfold h depth (get own inherited p.1)))
            (inherited.map fun p => (p.1, unfold h depth (get own inherited p.1)))

/-- The value as a tree, if it is none that leads back to itself. -/
def tree (h : Heap D) (v : Slot D) : JsValue D := unfold h (h.length + 1) v

/-- The objects that a value leads to at once. -/
def refs : Slot D → List ℕ
  | .atom _ => []
  | .ref address => [address]

/-- The objects that `set` goes to from an object. -/
def successors (h : Heap D) (address : ℕ) : List ℕ :=
  match h.node address with
  | .array elems => elems.flatMap fun e => refs (e.getD undefined)
  | .object own inherited =>
      (names own inherited).flatMap fun name => refs (get own inherited name.key)

/-- Following elements and properties leads around in a circle. -/
def Circular (h : Heap D) (v : Slot D) : Prop :=
  ∃ address ∈ refs v, ReachesCycle (successors h) address

/-- The recursion ends within the depth. -/
def ends (h : Heap D) (depth : ℕ) (v : Slot D) : Bool := (refs v).all (fits (successors h) depth)

variable {h : Heap D} {v : Slot D} {depth : ℕ}

theorem ends_ref (h : Heap D) (depth address : ℕ) : ends h (depth + 1) (.ref address) =
    (successors h address).all (fits (successors h) depth) := by
  rw [ends, refs, List.all_cons, List.all_nil, Bool.and_true, fits]

/-! ### Properties -/

section Properties

variable {own inherited : List (String × Slot D)} (f : Slot D → JsValue D)

theorem getPropertyNames_map : getPropertyNames
    (own.map fun p => (p.1, f (get own inherited p.1)))
    (inherited.map fun p => (p.1, f (get own inherited p.1))) = names own inherited := by
  simp only [names, getPropertyNames, List.map_map, Function.comp_def]

theorem lookup_keys (g : String → JsValue D) (ps : List (String × Slot D)) (key : String) :
    (ps.map fun p => (p.1, g p.1)).lookup key = (ps.lookup key).map fun _ => g key := by
  induction ps with
  | nil => rfl
  | cons p ps ih =>
      rw [List.map_cons, List.lookup_cons, List.lookup_cons, ih]
      cases same : key == p.1 with
      | true => rw [beq_iff_eq.mp same]; rfl
      | false => rfl

/-- A name is one of a property. -/
theorem lookup_of_mem_names {name : Name} (h : name ∈ names own inherited) :
    ∃ slot, (own ++ inherited).lookup name.key = some slot := by
  have member := mem_getPropertyNames _ _ h
  rw [← List.map_append, List.map_map] at member
  obtain ⟨p, hp, key⟩ := List.mem_map.mp member
  rw [← key]
  exact Option.isSome_iff_exists.mp (List.lookup_isSome_iff.mpr ⟨p, hp, beq_self_eq_true p.1⟩)

/-- Every property has a name. -/
theorem exists_name {p : String × Slot D} (hp : p ∈ own ++ inherited) :
    ∃ name ∈ names own inherited, name.key = p.1 := by
  have named : p.1 ∈ (names own inherited).map Name.key := by
    rw [names, getPropertyNames, List.map_append, List.mem_append, (names_perm _).mem_iff,
      (names_perm _).mem_iff, List.map_map, List.map_map]
    simp only [Function.comp_def]
    by_cases isOwn : p.1 ∈ own.map Prod.fst
    · exact .inl isOwn
    · have there : p ∈ inherited :=
        (List.mem_append.mp hp).resolve_left fun here => isOwn (List.mem_map_of_mem here)
      exact .inr (List.mem_filter.mpr ⟨List.mem_map_of_mem there, decide_eq_true isOwn⟩)
  exact List.mem_map.mp named

theorem valueAt_map {name : Name} (h : name ∈ names own inherited) : valueAt
    (own.map fun p => (p.1, f (get own inherited p.1)))
    (inherited.map fun p => (p.1, f (get own inherited p.1))) name.key =
      f (get own inherited name.key) := by
  obtain ⟨slot, found⟩ := lookup_of_mem_names h
  rw [valueAt, ← List.map_append, lookup_keys fun k => f (get own inherited k), found]
  rfl

end Properties

/-! ### What is saved -/

theorem save_atom (v : Atom D) : set v.value [] [] = jsSave v.value := by
  obtain ⟨v, leaf⟩ := v
  cases v with
  | array | object => cases leaf
  | _ => rfl

/-- A partial function on a list is the total one where it is total. -/
theorem mapM_ite {α β : Type} {f : α → Option β} {c : α → Bool} {g : α → β} {l : List α}
    (h : ∀ a ∈ l, f a = if c a then some (g a) else none) :
    l.mapM f = if l.all c then some (l.map g) else none := by
  cases all : l.all c with
  | true =>
      refine mapM_eq_map fun a ha => ?_
      rw [h a ha, if_pos (List.all_eq_true.mp all a ha)]
  | false =>
      have stuck : (l.mapM f).isSome = false := by
        rw [isSome_mapM, ← all]
        rw [Bool.eq_iff_iff, List.all_eq_true, List.all_eq_true]
        refine forall₂_congr fun a ha => ?_
        rw [h a ha]
        cases c a with
        | true => exact iff_of_true rfl rfl
        | false => exact iff_of_false Bool.false_ne_true Bool.false_ne_true
      exact Option.not_isSome_iff_eq_none.mp (Bool.eq_false_iff.mp stuck)

/-- Every object is saved in each of its places, where the recursion ends. -/
theorem createDataWithType_eq (h : Heap D) (depth : ℕ) (v : Slot D) :
    createDataWithType h depth v =
      if ends h depth v then some (jsSave (unfold h depth v)) else none := by
  induction depth generalizing v with
  | zero =>
      cases v with
      | atom v => exact congrArg some (save_atom v)
      | ref address => rfl
  | succ depth ih =>
      cases v with
      | atom v => exact congrArg some (save_atom v)
      | ref address =>
          rw [ends_ref, createDataWithType, successors, unfold]
          cases h.node address with
          | array elems =>
              dsimp only
              have each := mapM_ite (f := fun e => createDataWithType h depth (e.getD undefined))
                (l := elems) fun e _ => ih (e.getD undefined)
              rw [each, List.all_flatMap, save_array, List.map_map]
              have saved : ∀ e : Option (Slot D), jsSave (unfold h depth (e.getD undefined)) =
                  jsSave ((e.map (unfold h depth)).getD .undefined) := by
                intro e
                cases e with
                | none => cases depth with
                  | zero => rfl
                  | succ depth => rfl
                | some slot => rfl
              simp only [saved]
              rw [apply_ite (Option.map JData.array)]
              rfl
          | object own inherited =>
              dsimp only
              have each := mapM_ite (f := fun name : Name =>
                  (createDataWithType h depth (get own inherited name.key)).map (name.toChar, ·))
                (c := fun name => ends h depth (get own inherited name.key))
                (g := fun name =>
                  (name.toChar, jsSave (unfold h depth (get own inherited name.key))))
                (l := names own inherited) fun name _ => by
                  rw [ih]
                  split
                  · rfl
                  · rfl
              rw [each, List.all_flatMap, save_object, getPropertyNames_map]
              have saved : ∀ name ∈ names own inherited,
                  (name.toChar, jsSave (unfold h depth (get own inherited name.key))) =
                    (name.toChar, jsSave (valueAt
                      (own.map fun p => (p.1, unfold h depth (get own inherited p.1)))
                      (inherited.map fun p => (p.1, unfold h depth (get own inherited p.1)))
                      name.key)) := by
                intro name member
                rw [valueAt_map (unfold h depth) member]
              rw [List.map_congr_left saved, apply_ite (Option.map JData.object)]
              rfl

/-- With more room the tree stays the same. -/
theorem unfold_of_ends {more : ℕ} (le : depth ≤ more) (fit : ends h depth v = true) :
    unfold h more v = unfold h depth v := by
  induction depth generalizing v more with
  | zero =>
      cases v with
      | atom v => cases more with
        | zero => rfl
        | succ more => rfl
      | ref address => cases fit
  | succ depth ih =>
      obtain ⟨more, rfl⟩ := Nat.exists_eq_add_of_le' (Nat.le_trans (Nat.succ_pos depth) le)
      have le := Nat.le_of_succ_le_succ le
      cases v with
      | atom v => rfl
      | ref address =>
          rw [ends_ref, successors] at fit
          rw [unfold, unfold]
          cases node : h.node address with
          | array elems =>
              rw [node] at fit
              rw [List.all_flatMap, List.all_eq_true] at fit
              dsimp only
              congr 1
              refine List.map_congr_left fun e he => ?_
              cases e with
              | none => rfl
              | some slot => exact congrArg some (ih le (fit _ he))
          | object own inherited =>
              rw [node] at fit
              rw [List.all_flatMap, List.all_eq_true] at fit
              have same : ∀ p ∈ own ++ inherited, (p.1, unfold h more (get own inherited p.1)) =
                  (p.1, unfold h depth (get own inherited p.1)) := by
                intro p hp
                obtain ⟨name, member, key⟩ := exists_name hp
                have fits := fit name member
                rw [key] at fits
                rw [ih le fits]
              dsimp only
              congr 1
              · exact List.map_congr_left fun p hp => same p (List.mem_append_left _ hp)
              · exact List.map_congr_left fun p hp => same p (List.mem_append_right _ hp)

/-! ### Where it ends -/

/-- Beyond the end of the heap there are empty objects. -/
theorem lt_of_successors {address : ℕ} (leads : successors h address ≠ []) :
    address < h.length := by
  by_contra outside
  have empty : h.node address = .object [] [] := by
    rw [Heap.node, List.getD, List.getElem?_eq_none (Nat.le_of_not_lt outside), Option.getD_none]
  exact leads (by rw [successors, empty]; rfl)

theorem ends_iff : ends h (h.length + 1) v = true ↔ ¬ Circular h v :=
  all_fits_iff (fun _ => lt_of_successors) _

theorem not_circular_of_ends (fit : ends h depth v = true) : ¬ Circular h v := by
  intro ⟨address, member, cycle⟩
  exact not_fits_of_reachesCycle cycle depth (List.all_eq_true.mp fit address member)

/-- The depth does not matter where it suffices. -/
theorem unfold_eq_tree (fit : ends h depth v = true) : unfold h depth v = tree h v := by
  have whole := ends_iff.mpr (not_circular_of_ends fit)
  rcases Nat.le_total depth (h.length + 1) with le | le
  · exact (unfold_of_ends le fit).symm
  · exact unfold_of_ends le whole

/-- **`js_save` returns exactly for values that do not lead back to themselves, and then it has
saved the tree of the value**: an object that can be reached in several ways is saved once for
each of them, so the copy that `js_load` makes shares nothing. -/
theorem js_save_returns_iff (h : Heap D) (v : Slot D) :
    ((∃ depth data, createDataWithType h depth v = some data) ↔ ¬ Circular h v) ∧
      ∀ depth data, createDataWithType h depth v = some data → data = jsSave (tree h v) := by
  refine ⟨⟨?_, ?_⟩, ?_⟩
  · rintro ⟨depth, data, saved⟩
    rw [createDataWithType_eq] at saved
    split at saved
    · next fit => exact not_circular_of_ends fit
    · cases saved
  · intro straight
    exact ⟨h.length + 1, _, by rw [createDataWithType_eq, if_pos (ends_iff.mpr straight)]⟩
  · intro depth data saved
    rw [createDataWithType_eq] at saved
    split at saved
    · next fit => rw [← Option.some.inj saved, unfold_eq_tree fit]
    · cases saved

end ThreadJs.Serialize.Shared
