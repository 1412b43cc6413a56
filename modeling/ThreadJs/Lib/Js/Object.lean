import ThreadJs.Lib.Table

/-!
Ordinary ECMAScript objects as tables of own properties over `Object.prototype`.

A property is looked up among the own properties first and then on the prototype,
where it is found for the names of `objectPrototype`, with a function or an object as
its value.
-/

namespace Js

/-- The properties that every ordinary object inherits. -/
def objectPrototype : List String :=
  ["constructor", "toString", "toLocaleString", "valueOf", "hasOwnProperty", "isPrototypeOf",
    "propertyIsEnumerable", "__defineGetter__", "__lookupGetter__", "__defineSetter__",
    "__lookupSetter__", "__proto__"]

/-- What a lookup finds. -/
inductive Found (α : Type) where
  | own (a : α)
  | inherited
  | undefined
  deriving DecidableEq

/-- The own properties of an object. -/
structure Object (α : Type) where
  own : List (String × α)

namespace Object

variable {α : Type}

def empty : Object α := ⟨[]⟩

def get (o : Object α) (name : String) : Found α :=
  match o.own.lookup name with
  | some a => .own a
  | none => if name ∈ objectPrototype then .inherited else .undefined

/-- Assignment of a name other than `__proto__`. -/
def set (o : Object α) (name : String) (a : α) : Object α :=
  ⟨(name, a) :: o.own.filter (·.1 != name)⟩

@[simp] theorem get_set_self (o : Object α) (name : String) (a : α) :
    (o.set name a).get name = .own a := by
  simp [get, set]

theorem get_set_of_ne (o : Object α) {name other : String} (h : other ≠ name) (a : α) :
    (o.set name a).get other = o.get other := by
  have miss : (other == name) = false := beq_eq_false_iff_ne.mpr h
  rw [get, get, set, List.lookup_cons, miss]
  simp only [Table.lookup_filter_ne h]

end Object

end Js
