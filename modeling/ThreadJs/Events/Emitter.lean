import Mathlib.Logic.Function.Basic
import Mathlib.Data.Int.Notation
import ThreadJs.Lib.Machine

/-!
The `EventEmitter` of `lib/events.js`, the event library of the sub threads.

Each name owns a hand-written singly linked list `{ s, e }` of nodes `dat`, kept
beside two counters. Nodes are never freed, so a node is an address into a heap
that only grows. `Name` stands for the ordinary names: strings that are not
properties of `Object.prototype`, for which a plain object used as a table has
an entry exactly when one was stored. `Cb` stands for callbacks, compared by
identity (`===`).

`emit` and `removeListener` share `_iterator` and differ in three places: which
nodes they take out, which predecessor they hand to `_remove`, and whether they
call the node. `visit` has these three as parameters. Callbacks here do not use
the emitter themselves.
-/

namespace ThreadJs.Events

/-- A list node `dat` as `on` builds it. -/
structure Dat (Cb : Type) where
  cb : Cb
  next : Option Nat
  remove : Bool
deriving DecidableEq, Repr

/-- The pair `{ s, e }` of first and last node that a name owns. -/
structure Handles where
  s : Option Nat
  e : Option Nat
deriving DecidableEq, Repr

structure EventEmitter (Name Cb : Type) where
  heap : List (Dat Cb)
  eventHandles : Name → Option Handles
  allCount : Int
  eventCount : Name → Option Int

/-- `typeError`: a property of `undefined` is read. `outOfFuel`: the walk was cut
off before it came to an end. -/
inductive Fault where
  | typeError
  | outOfFuel
deriving DecidableEq, Repr

/-- A callback invocation `h.cb(data)`. -/
abbrev Call (Cb Data : Type) := Cb × Data

namespace EventEmitter

variable {Name Cb Data : Type}

/-- `new EventEmitter()`. -/
def new : EventEmitter Name Cb := ⟨[], fun _ => none, 0, fun _ => none⟩

/-- The field `next` of the node at an address. -/
def next (E : EventEmitter Name Cb) (h : Nat) : Option Nat :=
  E.heap[h]?.bind Dat.next

/-- `this.event_handles[name].s`, with `null` for a name that has no entry. -/
def first (E : EventEmitter Name Cb) (name : Name) : Option Nat :=
  (E.eventHandles name).bind Handles.s

/-- The assignment `t.next = dat`. -/
def setNext (heap : List (Dat Cb)) (t dat : Nat) : List (Dat Cb) :=
  heap.modify t fun d => { d with next := some dat }

section Tables

variable [DecidableEq Name]

/-- `on(name, cb, _remove)`. -/
def on (E : EventEmitter Name Cb) (name : Name) (cb : Cb) (remove : Bool) :
    EventEmitter Name Cb :=
  let dat := E.heap.length
  let heap := E.heap ++ [⟨cb, none, remove⟩]
  let linked : List (Dat Cb) × Handles :=
    match E.eventHandles name with
    | none => (heap, ⟨some dat, some dat⟩)
    | some hd =>
        match hd.e with
        | some t => (setNext heap t dat, { hd with e := some dat })
        | none => (heap, ⟨some dat, some dat⟩)
  { heap := linked.1
    eventHandles := Function.update E.eventHandles name (some linked.2)
    allCount := E.allCount + 1
    eventCount := Function.update E.eventCount name
      (some (match E.eventCount name with
        | none => 1
        | some n => n + 1)) }

/-- `once(name, cb)`. -/
def once (E : EventEmitter Name Cb) (name : Name) (cb : Cb) : EventEmitter Name Cb :=
  E.on name cb true

/-- The closure `_remove(h, p)` of `_iterator`. -/
def remove (E : EventEmitter Name Cb) (name : Name) (h : Nat) (p : Option Nat) :
    Except Fault (EventEmitter Name Cb) :=
  match E.eventHandles name with
  | none => .error .typeError
  | some hd =>
      let s := if some h = hd.s then E.next h else hd.s
      let e := if some h = hd.e then p else hd.e
      -- `if (p) { p.next == h.next; }` is a comparison: no link is written here
      .ok { E with
        eventHandles := Function.update E.eventHandles name (some ⟨s, e⟩)
        eventCount := Function.update E.eventCount name
          ((E.eventCount name).map fun n => n - 1)
        allCount := E.allCount - 1 }

end Tables

/-- The loop of `_iterator(name, cb)` from node `h` with predecessor `p`. `visit`
is the argument `cb` and reports whether it called `_remove`; the link to the
next node is read after `visit` ran. -/
def iterator {σ : Type} (next : σ → Nat → Option Nat)
    (visit : σ → Nat → Option Nat → Except Fault (σ × Bool)) :
    Nat → σ → Option Nat → Option Nat → Except Fault σ
  | _, st, none, _ => .ok st
  | 0, _, some _, _ => .error .outOfFuel
  | fuel + 1, st, some h, p => do
      let (st, rm) ← visit st h p
      iterator next visit fuel st (next st h) (if rm then p else some h)

section Walks

variable [DecidableEq Name]

/-- The function handed to `_iterator`: take out the nodes that satisfy `takes`,
naming `pred p` as the predecessor, then make the calls `calls`. -/
def visit (name : Name) (takes : Dat Cb → Bool) (pred : Option Nat → Option Nat)
    (calls : Dat Cb → List (Call Cb Data)) (st : EventEmitter Name Cb × List (Call Cb Data))
    (h : Nat) (p : Option Nat) :
    Except Fault ((EventEmitter Name Cb × List (Call Cb Data)) × Bool) :=
  match st.1.heap[h]? with
  | none => .error .typeError
  | some d =>
      if takes d then do
        let E ← st.1.remove name h (pred p)
        return ((E, st.2 ++ calls d), true)
      else return ((st.1, st.2 ++ calls d), false)

/-- `_iterator` over the list of a name. A walk visits every node at most once,
so the size of the heap bounds it. -/
def walk (E : EventEmitter Name Cb) (name : Name) (takes : Dat Cb → Bool)
    (pred : Option Nat → Option Nat) (calls : Dat Cb → List (Call Cb Data)) :
    Except Fault (EventEmitter Name Cb × List (Call Cb Data)) :=
  match E.eventHandles name with
  | none => .ok (E, [])
  | some hd => iterator (fun st => st.1.next) (visit name takes pred calls) E.heap.length
      (E, []) hd.s none

/-- Which nodes `removeListener(name, cb)` takes out: those with this callback,
or all of them when no callback is given. -/
def matchesListener [DecidableEq Cb] (cb : Option Cb) (d : Dat Cb) : Bool :=
  match cb with
  | some c => decide (d.cb = c)
  | none => true

/-- `removeListener(name, cb)`. -/
def removeListener [DecidableEq Cb] (E : EventEmitter Name Cb) (name : Name) (cb : Option Cb) :
    Except Fault (EventEmitter Name Cb × List (Call Cb Data)) :=
  E.walk name (matchesListener cb) id fun _ => []

/-- `emit(name, data)`: `_remove(h)` is called without its second argument. -/
def emit (E : EventEmitter Name Cb) (name : Name) (data : Data) :
    Except Fault (EventEmitter Name Cb × List (Call Cb Data)) :=
  E.walk name Dat.remove (fun _ => none) fun d => [(d.cb, data)]

end Walks

/-- `removeAllListeners()`. -/
def removeAllListeners (E : EventEmitter Name Cb) : EventEmitter Name Cb :=
  { E with eventHandles := fun _ => none, allCount := 0, eventCount := fun _ => none }

/-- `listenerCount(name)`; `none` is the call without a name. -/
def listenerCount (E : EventEmitter Name Cb) : Option Name → Int
  | none => E.allCount
  | some name => (E.eventCount name).getD 0

/-- `noListener()` of `lib/context.js`. -/
def noListener (E : EventEmitter Name Cb) : Bool := decide (E.listenerCount none ≤ 0)

end EventEmitter

/-- The operations of an emitter. -/
inductive Op (Name Cb Data : Type) where
  | on (name : Name) (cb : Cb)
  | once (name : Name) (cb : Cb)
  | removeListener (name : Name) (cb : Option Cb)
  | removeAllListeners
  | emit (name : Name) (data : Data)

variable {Name Cb Data : Type} [DecidableEq Name] [DecidableEq Cb]

/-- One operation, with the callback invocations it makes. -/
def EventEmitter.step (E : EventEmitter Name Cb) :
    Op Name Cb Data → Except Fault (EventEmitter Name Cb × List (Call Cb Data))
  | .on name cb => .ok (E.on name cb false, [])
  | .once name cb => .ok (E.once name cb, [])
  | .removeListener name cb => E.removeListener name cb
  | .removeAllListeners => .ok (E.removeAllListeners, [])
  | .emit name data => E.emit name data

end ThreadJs.Events
