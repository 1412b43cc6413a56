import ThreadJs.Events.Apart
import ThreadJs.Lib.Js.Number

/-!
Calls of library functions from the thread (`fn-proxy.js`) and their replies from the
main side (`bind_function_call` of `main-warp.js`).

A call with a callback takes the next id and registers the callback under an event
name of its own, `once` or `on`; the `next` of the main side sends the event of that
name. The thread runs the listeners of an event one after the other, and in a callback
it may do anything: make further calls, unbind, and use the emitter, `emit` included. So
the walks of `emit` that are in progress form a stack. `Respects` is what code does that
leaves the names of the calls alone.
-/

namespace ThreadJs.Rpc

open Events

/-- `'__function_back_call_'` -/
def backCall : String := "__function_back_call_"

/-- The event name of a call. -/
def key (retid : ℕ) : String := backCall ++ toString retid

/-- The names of the calls, and any that look like one. -/
def isBackCall (name : String) : Bool := backCall.toList.isPrefixOf name.toList

/-- The listeners: the one that a call registers, and any other. -/
inductive Listener (User : Type) where
  | reply (retid : ℕ)
  | user (u : User)
  deriving DecidableEq

def Listener.isReply {User : Type} : Listener User → Bool
  | .reply _ => true
  | .user _ => false

/-- What `next` is called with: `err` and `ret`. -/
structure Reply (Value : Type) where
  err : Value
  ret : Value

inductive Event (Value : Type) where
  /-- `next` of the call has been called. -/
  | given (retid : ℕ) (r : Reply Value)
  /-- The thread has received the reply. -/
  | delivered (retid : ℕ) (r : Reply Value)
  /-- The callback has been called. -/
  | invoked (retid : ℕ) (r : Reply Value)
  | unbound (retid : ℕ)

/-- A walk of `emit` whose node `h` is being called. -/
structure Frame (Value : Type) where
  name : String
  data : Reply Value
  h : ℕ

structure State (User Value : Type) where
  emitter : EventEmitter String (Listener User)
  /-- `id` of `fn-proxy.js`. -/
  id : ℕ
  /-- `_multiple` of the calls. -/
  multiple : ℕ → Bool
  /-- The innermost comes first. -/
  frames : List (Frame Value)
  /-- The messages '__direct_call_obj_func' on their way, by their `rid`. -/
  toMain : List ℕ
  /-- The calls whose function on the main side has got its `next`. -/
  started : List ℕ
  /-- The replies on their way. -/
  toThread : List (ℕ × Reply Value)
  log : List (Event Value)
  /-- What the rest of the code has added to `all_count`. -/
  others : ℤ

inductive Action (User Value : Type) where
  /-- The thread calls a function that takes a callback. -/
  | call (multiple : Bool)
  /-- The third argument of a callback is called. -/
  | unbind (retid : ℕ)
  /-- The other code of the thread. -/
  | on (name : String) (u : User) (remove : Bool)
  | off (name : String) (u : Option User)
  /-- `thread.emit`, or an event that arrives and is no reply of a `next`. -/
  | emit (name : String) (data : Reply Value)
  /-- The callback that was called last returns, or throws. -/
  | ret
  | throw
  /-- The main side receives a call and runs its function. -/
  | start
  | next (retid : ℕ) (r : Reply Value)
  /-- The thread receives a reply. -/
  | recv

variable {User Value : Type}

def init : State User Value where
  emitter := .new
  id := 0
  multiple := fun _ => false
  frames := []
  toMain := []
  started := []
  toThread := []
  log := []
  others := 0

/-- `if (h.remove) _remove(h)` of `emit`, and the callback that is called next. -/
def visitNode (E : EventEmitter String (Listener User)) (name : String) (h : ℕ) :
    Except Fault (EventEmitter String (Listener User) × Listener User) :=
  match E.heap[h]? with
  | none => .error .typeError
  | some d =>
      if d.remove then (E.remove name h none).map fun E => (E, d.cb)
      else .ok (E, d.cb)

/-- A walk goes on at `h`. -/
def State.walk (s : State User Value) (name : String) (data : Reply Value) :
    Option ℕ → State User Value
  | none => s
  | some h =>
      match visitNode s.emitter name h with
      -- The exception goes to the code around.
      | .error _ => s
      | .ok (E, cb) =>
          { s with
            emitter := E
            frames := ⟨name, data, h⟩ :: s.frames
            log := s.log ++ match cb with
              | .reply retid => [.invoked retid data]
              | .user _ => []
            others := if isBackCall name then s.others
              else s.others + (E.allCount - s.emitter.allCount) }

/-- A change of the emitter by the rest of the code. -/
def State.other (s : State User Value) (E : EventEmitter String (Listener User)) :
    State User Value :=
  { s with emitter := E, others := s.others + (E.allCount - s.emitter.allCount) }

section Log

variable (k : ℕ)

/-- The replies that `next` of the call was called with. -/
def given (log : List (Event Value)) : List (Reply Value) :=
  log.filterMap fun
    | .given j r => if j = k then some r else none
    | _ => none

def delivered (log : List (Event Value)) : List (Reply Value) :=
  log.filterMap fun
    | .delivered j r => if j = k then some r else none
    | _ => none

/-- The replies that the callback of the call was called with. -/
def invoked (log : List (Event Value)) : List (Reply Value) :=
  log.filterMap fun
    | .invoked j r => if j = k then some r else none
    | _ => none

def Event.unbinds : Event Value → Bool
  | .unbound j => j == k
  | _ => false

def isUnbound (log : List (Event Value)) : Bool := log.any (Event.unbinds k)

/-- What is delivered before the call is unbound. -/
def deliveredBefore (log : List (Event Value)) : List (Reply Value) :=
  delivered k (log.takeWhile fun e => !e.unbinds k)

/-- The replies to the call that are on their way. -/
def inFlight (toThread : List (ℕ × Reply Value)) : List (Reply Value) :=
  toThread.filterMap fun m => if m.1 = k then some m.2 else none

end Log

variable [DecidableEq User]

def step (s : State User Value) : Action User Value → Option (State User Value)
  | .call multiple =>
      let retid := s.id + 1
      some { s with
        emitter := s.emitter.on (key retid) (.reply retid) (!multiple)
        id := retid
        multiple := Function.update s.multiple retid multiple
        toMain := s.toMain ++ [retid] }
  | .unbind retid =>
      -- A callback gets `unbind` when it is called.
      if (invoked retid s.log).isEmpty then none
      else
        match (s.emitter.removeListener (key retid) none :
          Except Fault (_ × List (Call _ Unit))) with
        | .error _ => none
        | .ok (E, _) => some { s with emitter := E, log := s.log ++ [.unbound retid] }
  | .on name u remove => some (s.other (s.emitter.on name (.user u) remove))
  | .off name u =>
      match (s.emitter.removeListener name (u.map .user) :
        Except Fault (_ × List (Call _ Unit))) with
      | .error _ => none
      | .ok (E, _) => some (s.other E)
  | .emit name data => some (s.walk name data (s.emitter.first name))
  | .ret =>
      match s.frames with
      | [] => none
      | f :: rest => some ({ s with frames := rest }.walk f.name f.data (s.emitter.next f.h))
  | .throw =>
      match s.frames with
      | [] => none
      | _ :: rest => some { s with frames := rest }
  | .start =>
      match s.toMain with
      | [] => none
      | retid :: rest => some { s with toMain := rest, started := s.started ++ [retid] }
  | .next retid r =>
      if retid ∈ s.started then
        some { s with
          toThread := s.toThread ++ [(retid, r)]
          log := s.log ++ [.given retid r] }
      else none
  | .recv =>
      match s.frames, s.toThread with
      | [], (retid, r) :: rest =>
          some ({ s with toThread := rest, log := s.log ++ [Event.delivered retid r] }.walk
            (key retid) r (s.emitter.first (key retid)))
      | _, _ => none

/-- No listener is added or removed under the name of a call. -/
def KeepsListeners : Action User Value → Prop
  | .on name _ _ | .off name _ => isBackCall name = false
  | _ => True

/-- No listener is added or removed under the name of a call, and no event of such a name comes
from anywhere but the `next` of a call. -/
def Respects : Action User Value → Prop
  | .on name _ _ | .off name _ | .emit name _ => isBackCall name = false
  | _ => True

instance : DecidablePred (Respects : Action User Value → Prop) := fun a =>
  match a with
  | .on name _ _ | .off name _ | .emit name _ =>
      inferInstanceAs (Decidable (isBackCall name = false))
  | .call _ | .unbind _ | .ret | .throw | .start | .next _ _ | .recv => isTrue trivial

/-- The call waits for a reply: its first, or any until it is unbound. -/
def State.isOpen (s : State User Value) (k : ℕ) : Bool :=
  if s.multiple k then !isUnbound k s.log else (delivered k s.log).isEmpty

/-- Replies and callbacks are in step. -/
structure Correlated (s : State User Value) : Prop where
  /-- No reply is lost, repeated or exchanged on its way. -/
  channel : ∀ k, given k s.log = delivered k s.log ++ inFlight k s.toThread
  /-- A callback is called with what the `next` of its own call was given. -/
  own : ∀ k, (invoked k s.log).Sublist (given k s.log)
  /-- It is called with the first reply when this is delivered, and never again. -/
  single : ∀ k, s.multiple k = false → invoked k s.log = (delivered k s.log).take 1
  /-- It is called with every reply that is delivered before the call is unbound. -/
  multiple : ∀ k, s.multiple k = true → invoked k s.log = deliveredBefore k s.log
  /-- The calls that are answered or unbound have left no listener. -/
  count : (∀ k, 1 ≤ k → k ≤ s.id → s.isOpen k = false) → s.emitter.listenerCount none = s.others
  /-- `unbind` throws no exception. -/
  unbinds : ∀ k, invoked k s.log ≠ [] → (step s (.unbind k)).isSome

end ThreadJs.Rpc
