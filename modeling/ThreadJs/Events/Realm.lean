import ThreadJs.Events.Emitter
import ThreadJs.Lib.Chain
import ThreadJs.Lib.Js.Object

/-!
The emitters of one realm, with names that are any strings.

`event_handles` and `event_count` are ordinary objects, so a lookup may find what
`Object.prototype` has under the name, and this is one object for all emitters. A `Holder`
is an object that such a lookup finds and whose properties `s` and `e` are then used as
the list of the name. Where they are set on `Object.prototype` itself, every object
inherits them, and tables find entries for the names `s` and `e`.
-/

namespace ThreadJs.Events

open Js (objectPrototype)

inductive Holder where
  /-- The object `{ s, e }` that an emitter has stored under a name. -/
  | entry (A : ℕ) (name : String)
  /-- What `Object.prototype` has under a name: a function, or for `__proto__` itself. -/
  | member (name : String)
  /-- A node, found as the inherited `s` or `e`. -/
  | dat (a : ℕ)
  deriving DecidableEq

/-- The own properties `s` and `e`: not there, or `null` and `undefined`, or a node. -/
structure Slots where
  s : Option (Option ℕ)
  e : Option (Option ℕ)

/-- A value of `event_count`. What is not a number counts as `nan`, unless it is an
object, which `listenerCount` returns as it is. -/
inductive Count where
  | number (n : Int)
  | nan
  | object
  deriving DecidableEq

structure Realm (Cb : Type) where
  /-- The nodes of all lists. -/
  heap : List (Dat Cb)
  slots : Holder → Slots
  /-- The own properties of `event_handles`. -/
  entries : ℕ → String → Bool
  /-- The own properties of `event_count`. -/
  eventCount : ℕ → String → Option Count
  allCount : ℕ → Int

namespace Realm

variable {Cb Data : Type}

/-- No emitter has been used. -/
def new : Realm Cb := ⟨[], fun _ => ⟨none, none⟩, fun _ _ => false, fun _ _ => none, fun _ => 0⟩

/-- `Object.prototype`. -/
abbrev proto : Holder := .member "__proto__"

def next (R : Realm Cb) (h : ℕ) : Option ℕ := R.heap[h]?.bind Dat.next

/-- The property `s` or `e` of an object, with `null` for `undefined`. -/
def get (R : Realm Cb) (o : Holder) (field : Slots → Option (Option ℕ)) : Option ℕ :=
  match field (R.slots o) with
  | some v => v
  | none => (field (R.slots proto)).join

def setS (R : Realm Cb) (o : Holder) (v : Option ℕ) : Realm Cb :=
  { R with slots := Function.update R.slots o { R.slots o with s := some v } }

def setE (R : Realm Cb) (o : Holder) (v : Option ℕ) : Realm Cb :=
  { R with slots := Function.update R.slots o { R.slots o with e := some v } }

/-- `this.event_handles[name]` in the emitter `A`, if it counts as true. -/
def holder (R : Realm Cb) (A : ℕ) (name : String) : Option Holder :=
  if R.entries A name then some (.entry A name)
  else if name ∈ objectPrototype then some (.member name)
  else if name = "s" then (R.get proto Slots.s).map .dat
  else if name = "e" then (R.get proto Slots.e).map .dat
  else none

/-- The count that is inherited as a node or as `null`. -/
def inheritedCount (R : Realm Cb) (name : String) : Count :=
  if name ∈ objectPrototype then .object
  else
    match
      if name = "s" then (R.slots proto).s
      else if name = "e" then (R.slots proto).e
      else none with
    | some (some _) => .object
    | some none => if name = "s" then .number 0 else .nan
    | none => .nan

/-- `this.event_count[name]`. -/
def count (R : Realm Cb) (A : ℕ) (name : String) : Count :=
  (R.eventCount A name).getD (R.inheritedCount name)

/-- `this.event_count[name] = c` for a number: `__proto__` cannot be set to one. -/
def setCount (R : Realm Cb) (A : ℕ) (name : String) (c : Count) : Realm Cb :=
  if name = "__proto__" then R
  else
    { R with
      eventCount :=
        Function.update R.eventCount A (Function.update (R.eventCount A) name (some c)) }

/-- `on(name, cb, _remove)`: the part that links the new node. -/
def link (R : Realm Cb) (A : ℕ) (name : String) (cb : Cb) (remove : Bool) : Realm Cb :=
  let dat := R.heap.length
  let R : Realm Cb := { R with heap := R.heap ++ [⟨cb, none, remove⟩] }
  match R.holder A name with
  | none =>
      { R with
        slots := Function.update R.slots (.entry A name) ⟨some (some dat), some (some dat)⟩
        entries := Function.update R.entries A (Function.update (R.entries A) name true) }
  | some o =>
      match R.get o Slots.e with
      | some t =>
          ({ R with heap := EventEmitter.setNext R.heap t dat } : Realm Cb).setE o (some dat)
      | none => (R.setS o (some dat)).setE o (some dat)

/-- `on(name, cb, _remove)`. -/
def on (R : Realm Cb) (A : ℕ) (name : String) (cb : Cb) (remove : Bool) : Realm Cb :=
  let R := R.link A name cb remove
  let R : Realm Cb := { R with allCount := Function.update R.allCount A (R.allCount A + 1) }
  R.setCount A name <|
    match R.count A name with
    | .number n => .number (n + 1)
    | .nan | .object => .number 1

/-- The closure `_remove(h, p)` of `_iterator`. -/
def remove (R : Realm Cb) (A : ℕ) (name : String) (h : ℕ) (p : Option ℕ) :
    Except Fault (Realm Cb) :=
  match R.holder A name with
  | none => .error .typeError
  | some o =>
      let R := if some h = R.get o Slots.s then R.setS o (R.next h) else R
      let R := if some h = R.get o Slots.e then R.setE o p else R
      let R := R.setCount A name <|
        match R.count A name with
        | .number n => .number (n - 1)
        | .nan | .object => .nan
      .ok { R with allCount := Function.update R.allCount A (R.allCount A - 1) }

/-- The function handed to `_iterator`, as in `EventEmitter.visit`. -/
def visit (A : ℕ) (name : String) (takes : Dat Cb → Bool) (pred : Option ℕ → Option ℕ)
    (calls : Dat Cb → List (Call Cb Data)) (st : Realm Cb × List (Call Cb Data))
    (h : ℕ) (p : Option ℕ) : Except Fault ((Realm Cb × List (Call Cb Data)) × Bool) :=
  match st.1.heap[h]? with
  | none => .error .typeError
  | some d =>
      if takes d then do
        let R ← st.1.remove A name h (pred p)
        return ((R, st.2 ++ calls d), true)
      else return ((st.1, st.2 ++ calls d), false)

/-- `_iterator` over the list of a name. -/
def walk (R : Realm Cb) (A : ℕ) (name : String) (takes : Dat Cb → Bool)
    (pred : Option ℕ → Option ℕ) (calls : Dat Cb → List (Call Cb Data)) :
    Except Fault (Realm Cb × List (Call Cb Data)) :=
  match R.holder A name with
  | none => .ok (R, [])
  | some o => EventEmitter.iterator (fun st => st.1.next) (visit A name takes pred calls)
      R.heap.length (R, []) (R.get o Slots.s) none

/-- `emit(name, data)`. -/
def emit (R : Realm Cb) (A : ℕ) (name : String) (data : Data) :
    Except Fault (Realm Cb × List (Call Cb Data)) :=
  R.walk A name Dat.remove (fun _ => none) fun d => [(d.cb, data)]

/-- `removeAllListeners()`. -/
def removeAllListeners (R : Realm Cb) (A : ℕ) : Realm Cb :=
  { R with
    entries := Function.update R.entries A fun _ => false
    eventCount := Function.update R.eventCount A fun _ => none
    allCount := Function.update R.allCount A 0 }

/-- `listenerCount(name)`. -/
def listenerCount (R : Realm Cb) (A : ℕ) (name : String) : Count :=
  if name = "" then .number (R.allCount A)
  else
    match R.count A name with
    | .number n => .number n
    | .nan => .number 0
    | .object => .object

/-- One operation on the emitter `A`. -/
def step [DecidableEq Cb] (R : Realm Cb) (A : ℕ) :
    Op String Cb Data → Except Fault (Realm Cb × List (Call Cb Data))
  | .on name cb => .ok (R.on A name cb false, [])
  | .once name cb => .ok (R.on A name cb true, [])
  | .removeListener name cb => R.walk A name (EventEmitter.matchesListener cb) id fun _ => []
  | .removeAllListeners => .ok (R.removeAllListeners A, [])
  | .emit name data => R.emit A name data

end Realm

end ThreadJs.Events
