import ThreadJs.Events.Refinement

/-!
An emitter whose callbacks use it.

The walks of `emit` that are in progress form a stack. Each stands at the node whose
callback it is running and reads the link to the next one when that returns, so it sees
what callbacks have done to the list. `removeListener` calls no callback of the user and
is one step.
-/

namespace ThreadJs.Events

variable {Name Cb : Type}

/-- An `emit` and what it has done. -/
structure Emission (Name : Type) where
  name : Name
  /-- The node whose callback is running. -/
  node : ℕ
  /-- The listeners of the name when it started, and the number of nodes then. -/
  start : List ℕ
  size : ℕ
  /-- The nodes it has called. -/
  called : List ℕ

/-- `live` are the listeners of a name: registered and not removed. -/
structure Reentrant (Name Cb : Type) where
  emitter : EventEmitter Name Cb
  live : Name → List ℕ
  /-- The innermost comes first. -/
  running : List (Emission Name)
  ended : List (Emission Name)
  /-- All calls so far. -/
  calls : List ℕ
  /-- A `TypeError` has been thrown in a walk. -/
  fault : Bool

inductive Use (Name Cb : Type) where
  | on (name : Name) (cb : Cb) (remove : Bool)
  | removeListener (name : Name) (cb : Option Cb)
  | removeAllListeners
  | emit (name : Name)
  /-- The callback that is running returns. -/
  | returns

namespace Reentrant

/-- The nodes that a walk comes to from `h` on, as things are. -/
def ahead (E : EventEmitter Name Cb) (h : Option ℕ) : List ℕ := path E.next E.heap.length h

def new : Reentrant Name Cb := ⟨.new, fun _ => [], [], [], [], false⟩

section Steps

variable [DecidableEq Name]

/-- The walk `f` comes to `h`: it returns, or takes the node out if that is for once, and
calls it. -/
def turn (s : Reentrant Name Cb) (f : Emission Name) (h : Option ℕ) : Reentrant Name Cb :=
  match h with
  | none => { s with ended := f :: s.ended }
  | some a =>
      let called : Reentrant Name Cb :=
        { s with
          running := { f with node := a, called := f.called ++ [a] } :: s.running
          calls := s.calls ++ [a] }
      if (s.emitter.heap[a]?).any Dat.remove then
        match s.emitter.remove f.name a none with
        | .ok E =>
            { called with
              emitter := E
              live := Function.update s.live f.name ((s.live f.name).filter (· != a)) }
        | .error _ => { s with fault := true }
      else called

def step [DecidableEq Cb] (s : Reentrant Name Cb) (u : Use Name Cb) : Option (Reentrant Name Cb) :=
  if s.fault then none
  else
    match u with
    | .on name cb remove =>
        some { s with
          emitter := s.emitter.on name cb remove
          live := Function.update s.live name (s.live name ++ [s.emitter.heap.length]) }
    | .removeListener name cb =>
        match s.emitter.walk name (EventEmitter.matchesListener cb) id
            (fun _ => ([] : List (Call Cb Unit))) with
        | .ok r =>
            some { s with
              emitter := r.1
              live := Function.update s.live name ((s.live name).filter fun a =>
                !(s.emitter.heap[a]?).any (EventEmitter.matchesListener cb)) }
        | .error _ => some { s with fault := true }
    | .removeAllListeners =>
        some { s with emitter := s.emitter.removeAllListeners, live := fun _ => [] }
    | .emit name =>
        match s.emitter.eventHandles name with
        | none => some s
        | some hd => some (s.turn ⟨name, 0, s.live name, s.emitter.heap.length, []⟩ hd.s)
    | .returns =>
        match s.running with
        | [] => none
        | f :: outer => some ({ s with running := outer }.turn f (s.emitter.next f.node))

/-- The node that a step comes to, with the name of the walk and the walks around it. -/
def coming (s : Reentrant Name Cb) : Use Name Cb → Option (Name × ℕ × List (Emission Name))
  | .emit name => (s.emitter.first name).map fun a => (name, a, s.running)
  | .returns =>
      match s.running with
      | [] => none
      | f :: outer => (s.emitter.next f.node).map fun a => (f.name, a, outer)
  | .on _ _ _ | .removeListener _ _ | .removeAllListeners => none

/-- A once listener can be taken out: its name has a table entry, and then neither this nor
a walk in progress leads to it any more. -/
def TakenOut (E : EventEmitter Name Cb) (name : Name) (a : ℕ)
    (outer : List (Emission Name)) : Prop :=
  match E.eventHandles name with
  | none => False
  | some hd => a ∉ ahead E (if some a = hd.s then E.next a else hd.s) ∧
      ∀ f ∈ outer, a ∉ ahead E (E.next f.node)

/-- No walk in progress has the end of the list before it when a listener is registered,
and once listeners are taken out for good. -/
def Orderly (s : Reentrant Name Cb) : Use Name Cb → Prop
  | .on name _ _ => ∀ t ∈ (s.emitter.eventHandles name).bind Handles.e, ∀ f ∈ s.running,
      t ∉ ahead s.emitter (some f.node)
  | u => ∀ c ∈ s.coming u, (s.emitter.heap[c.2.1]?).any Dat.remove = true →
      TakenOut s.emitter c.1 c.2.1 c.2.2

/-- On a fixed state both can be evaluated. -/
instance (E : EventEmitter Name Cb) (name : Name) (a : ℕ) (outer : List (Emission Name)) :
    Decidable (TakenOut E name a outer) :=
  match h : E.eventHandles name with
  | none => isFalse (by simp [TakenOut, h])
  | some hd => decidable_of_iff (a ∉ ahead E (if some a = hd.s then E.next a else hd.s) ∧
      ∀ f ∈ outer, a ∉ ahead E (E.next f.node)) (by simp [TakenOut, h])

instance (s : Reentrant Name Cb) : ∀ u, Decidable (Orderly s u)
  | .on name _ _ => inferInstanceAs (Decidable (∀ t ∈ (s.emitter.eventHandles name).bind Handles.e,
      ∀ f ∈ s.running, t ∉ ahead s.emitter (some f.node)))
  | .removeListener _ _ | .removeAllListeners => isTrue (by simp [Orderly, coming])
  | .emit name => inferInstanceAs (Decidable (∀ c ∈ s.coming (.emit name),
      (s.emitter.heap[c.2.1]?).any Dat.remove = true → TakenOut s.emitter c.1 c.2.1 c.2.2))
  | .returns => inferInstanceAs (Decidable (∀ c ∈ s.coming .returns,
      (s.emitter.heap[c.2.1]?).any Dat.remove = true → TakenOut s.emitter c.1 c.2.1 c.2.2))

end Steps

/-- Every `emit` calls the listeners that were registered when it started, each once, and
no other; a once listener is called once in all. -/
structure WellDefined (s : Reentrant Name Cb) : Prop where
  returns : s.fault = false
  old : ∀ f ∈ s.running ++ s.ended, ∀ a ∈ f.called, a < f.size
  nodup : ∀ f ∈ s.running ++ s.ended, f.called.Nodup
  /-- So the loop of `emit` comes to an end. -/
  bounded : ∀ f ∈ s.running ++ s.ended, f.called.length ≤ f.size
  all : ∀ f ∈ s.ended, ∀ a ∈ f.start, a ∈ f.called
  once : ∀ a, (s.emitter.heap[a]?).any Dat.remove = true → s.calls.count a ≤ 1

end Reentrant

end ThreadJs.Events
