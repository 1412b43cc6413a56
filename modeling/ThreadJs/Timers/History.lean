import ThreadJs.Timers.Pool

/-!
The timers as JavaScript sees them: handles, callbacks, and what has happened so far.

The functions that create a timer return an object with its identifier as a hidden
value, and `j_clear_time` reads it back. A `History` is a state of the subsystem with
the reference that `push_tick` takes on `tick_event` and with a log of the calls.
-/

namespace ThreadJs.Timers

/-- The hidden value `id`: `Uint32::New(iso, timer->id())`. -/
def hiddenId (id : TimerId) : UInt32 := id.toUInt32

/-- `timer_id id = a0->ToUint32()->Value()`. -/
def readId (hidden : UInt32) : TimerId := hidden.toInt32

@[simp] theorem readId_hiddenId (id : TimerId) : readId (hiddenId id) = id := by
  simp [readId, hiddenId]

/-- What JavaScript and the loop can do. -/
inductive Move where
  | create (r : Request)
  /-- `clearTimeout`, `clearInterval` or `clearImmediate` with the handle of the timer `p`. -/
  | clear (p : Nat)
  | tickEvent
  | tick
  | fire (p : Nat)
  | returns
  | destroy
  deriving DecidableEq

/-- A handle keeps the identifier of its timer when this is gone. -/
def Move.action (s : State) : Move → Option Action
  | .create r => some (.create r)
  | .clear p => (s.heap p).map fun t => .clear (readId (hiddenId t.id))
  | .tickEvent => some .tickEvent
  | .tick => some .tick
  | .fire p => some (.fire p)
  | .returns => some .returns
  | .destroy => some .destroy

inductive Event where
  | created (p : Nat) (r : Request)
  /-- The handle of `p` has been cleared; `removed` is the timer that left the pool. -/
  | cleared (p : Nat) (removed : Option Nat)
  /-- `fn.call()` of the timer `p` begins. -/
  | started (p : Nat) (kind : Kind)
  | returned (p : Nat)
  /-- `do_tick` returns. -/
  | drained (left : List TimerId)
  deriving DecidableEq

/-- The timer whose uv callback has called `do_tick`. -/
def Caller.timer : Caller → Option Nat
  | .tickEvent => none
  | .oneShot p | .repeating p => some p

/-- `fn.call()` of the timer at `p`. -/
def State.start (s : State) (p : Nat) : List Event :=
  ((s.heap p).map fun t => Event.started p t.kind).toList

/-- What a move adds to the log. -/
def Move.events (s : State) : Move → List Event
  | .create r => [.created s.size r]
  | .clear p => [.cleared p ((s.heap p).bind fun t => s.pool (readId (hiddenId t.id)))]
  | .tickEvent => []
  | .tick =>
      match s.pc, s.tickQueue.getLast? with
      | .ticking _, some id => (s.pool id).toList.flatMap s.start
      | .ticking c, none => .drained s.tickQueue :: c.timer.toList.flatMap s.start
      | _, _ => []
  | .fire p => if (s.heap p).any Timer.pooled then [] else s.start p
  | .returns =>
      match s.pc with
      | .tickFn _ p => [.returned p]
      | .fireFn c => (c.timer.map Event.returned).toList
      | _ => []
  | .destroy => []

/-- The reference on `tick_event`: `push_tick` takes it, and `do_tick` gives it back
before it returns. -/
def Move.tickRef (s : State) (held : Bool) : Move → Bool
  | .create r => held || decide (r = .nextTick)
  | .tick =>
      match s.pc, s.tickQueue with
      | .ticking _, [] => false
      | _, _ => held
  | _ => held

structure History where
  state : State
  tickRef : Bool
  log : List Event

/-- `TimerPool::TimerPool` gives the reference of `uv_async_init` back. -/
def History.init : History := ⟨Timers.init, false, []⟩

def History.step (h : History) (m : Move) : Option History :=
  ((m.action h.state).bind (Timers.step h.state)).map fun s =>
    ⟨s, m.tickRef h.state h.tickRef, h.log ++ m.events h.state⟩

end ThreadJs.Timers
