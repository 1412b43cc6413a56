import ThreadJs.Lib.Machine

/-!
`do_script`, the body of a sub thread, as a machine.

One program counter follows the thread through set-up, the user script, the event
loop and teardown; `next` takes its steps. The behaviour that is not decided by
`do_script` is in the other actions: what the JavaScript run by a callback does
(`js`), which set-up step throws (`fail`), and what the main thread does (`wake`,
`stop`). The two runs of libuv in the loop are `poll` and `once` for
`UV_RUN_ONCE`, and `nowaitEntry` and `nowait` for `UV_RUN_NOWAIT`. The report of an
uncaught exception may crash; `step` goes as far as that, and `Process` adds the crash.
-/

namespace ThreadJs.Script

/-- The events that the sub thread queues on `main_event`. -/
inductive Event where
  /-- `thread.send(name, …)` or `thread.wait(name, …)`. -/
  | message (name : String)
  /-- A timer callback has thrown. -/
  | uncaught
  | compilerError
  /-- The report of the handler at the end of `do_script`. -/
  | failure (code : Nat) (message : String)
  /-- The event queued by `free_sub_loop`. -/
  | fin
  deriving DecidableEq

/-- The `name` field of the JSON text. -/
def Event.name : Event → String
  | .message name => name
  | .uncaught | .compilerError | .failure _ _ => "error"
  | .fin => "end"

/-- The message that the handler makes from the number of the last step. -/
def failureMessage (code : Nat) : String :=
  "Error: cannot create thread" ++
    match code with
    | 1 => ", v8 Fatal error in heap setup"
    | 2 => ", compiler js code fail."
    | 10 => ", LoadEnvironment() fail."
    | _ => ""

inductive Pc where
  | newIsolate
  | isolate
  | compile
  | initLoop
  | createEnvironment
  | loadEnvironment
  | bind
  | initTimers
  | script
  | preTest
  | loopHead
  /-- In `uv_run(UV_RUN_ONCE)`, where it may block. -/
  | poll
  /-- In `uv_run(UV_RUN_ONCE)`, running callbacks. -/
  | once
  | terminatedTest
  | microtasks
  | listenerTest
  /-- The answer of the listener test is known. In a node thread `MakeCallback` goes
  on to run the ticks. -/
  | tested (noListener : Bool)
  | beforeExit
  | nowaitEntry
  | nowait
  /-- The event loop has been skipped or left. -/
  | teardown
  | emitExit
  | uninstall
  | sendEnd
  | freeId
  | freeSubEvent
  | signalDel
  | drainLoop
  /-- The handler `catch(...)`. -/
  | caught
  | dispose
  | finished
  deriving DecidableEq

/-- The main thread in `j_stop`. -/
inductive StopPc where
  | idle
  | terminate
  | wake
  deriving DecidableEq

/-- The thread's `ReqData`, its loop and what it has sent. -/
structure State where
  pc : Pc
  /-- The thread has a node environment (`boot_node_file` is set). -/
  node : Bool
  /-- The number of the last `RUN_STEP`. -/
  code : Nat
  running : Bool
  terminated : Bool
  /-- `sub_loop` is set. -/
  subLoop : Bool
  /-- `sub_event` is set. -/
  subEvent : Bool
  /-- The handle `sub_event` is not closed. -/
  subOpen : Bool
  subRef : Bool
  subPending : Bool
  /-- `id_pool.notfree(thread_id)`. -/
  idLive : Bool
  mainEvents : List Event
  /-- How often `del_event` was signalled. -/
  delSignals : Nat
  /-- `event.listenerCount()`. -/
  listeners : Int
  /-- The timer functions are installed. -/
  timepool : Bool
  /-- Active handles of `setTimeout`, `setInterval` and `setImmediate`. -/
  timers : Nat
  /-- Length of `tick_queue`. -/
  ticks : Nat
  tickRef : Bool
  /-- Other active handles with a reference. -/
  others : Nat
  stop : StopPc
  deriving DecidableEq

/-- `j_create` has given the thread its id. -/
def init (node : Bool) : State where
  pc := .newIsolate
  node := node
  code := 0
  running := true
  terminated := false
  subLoop := false
  subEvent := false
  subOpen := false
  subRef := false
  subPending := false
  idLive := true
  mainEvents := []
  delSignals := 0
  listeners := 0
  timepool := false
  timers := 0
  ticks := 0
  tickRef := false
  others := 0
  stop := .idle

/-- `uv_loop_alive`: there is an active handle with a reference. -/
def State.alive (s : State) : Bool :=
  s.timers != 0 || s.others != 0 || (s.subOpen && s.subRef) || s.tickRef

/-- `noListener()` of `context.js`. -/
def State.noListener (s : State) : Bool := decide (s.listeners ≤ 0)

/-- Something makes `uv_run(UV_RUN_ONCE)` return. -/
def State.wakes (s : State) : Bool :=
  s.subPending || s.timers != 0 || s.others != 0 || s.ticks != 0

/-- `_send` is bound and the id is not freed. -/
def State.accepts (s : State) : Bool := s.subEvent && s.idLive

/-- The program counters of set-up, where a failure throws. -/
def Pc.setUp : Pc → Bool
  | .newIsolate | .isolate | .compile | .initLoop | .createEnvironment | .loadEnvironment
  | .bind | .initTimers => true
  | _ => false

/-- Code of the user may run. After 'end' this is so in a node thread only, whose
handles are still served by the last `uv_run`. -/
def State.jsRuns (s : State) : Bool :=
  match s.pc with
  | .script | .once | .microtasks | .beforeExit | .nowait | .emitExit => true
  | .tested _ | .drainLoop => s.node
  | _ => false

/-- The two runs of libuv, which call the timers back. -/
def Pc.callsBack : Pc → Bool
  | .once | .nowait => true
  | _ => false

/-- How a timer callback ends that does not return. -/
inductive Thrown where
  /-- An exception with a property `stack` that becomes a string. -/
  | error
  /-- Any other exception, as `throw 1`. -/
  | value
  /-- `stop()` has terminated the execution. -/
  | termination
  deriving DecidableEq

/-- What user code may do to the thread. -/
inductive Js where
  | send (name : String)
  /-- A timer callback does not return. -/
  | uncaught (thrown : Thrown)
  /-- Listeners are attached and removed. -/
  | listen (count : Int)
  | startTimer
  /-- A timer has fired or is cleared. -/
  | stopTimer
  | pushTick
  | popTick
  /-- `do_tick` has emptied the queue. -/
  | ticksDone
  | openHandle
  | closeHandle
  deriving DecidableEq

inductive Action where
  | next
  | fail
  | compileError
  /-- `LoadEnvironment` opens handles. -/
  | load (handles : Nat)
  /-- The call of `noListener`; termination may interrupt it. -/
  | test (interrupted : Bool)
  | js (op : Js)
  /-- The main thread signals `sub_event`. -/
  | wake
  /-- The next step of `j_stop`. -/
  | stop
  deriving DecidableEq

def js (s : State) : Js → Option State
  | .send name =>
      some { s with mainEvents := s.mainEvents ++ if s.accepts then [.message name] else [] }
  -- Without a `stack` there is no report, the process crashes (`crashes`).
  | .uncaught thrown =>
      if s.timepool && s.pc.callsBack && decide (thrown = .error) then
        some { s with mainEvents := s.mainEvents ++ [.uncaught] }
      else none
  | .listen count => some { s with listeners := count }
  | .startTimer => if s.timepool then some { s with timers := s.timers + 1 } else none
  | .stopTimer =>
      match s.timers with
      | n + 1 => some { s with timers := n }
      | 0 => none
  | .pushTick => if s.timepool then some { s with ticks := s.ticks + 1, tickRef := true } else none
  | .popTick =>
      match s.ticks with
      | n + 1 => some { s with ticks := n }
      | 0 => none
  | .ticksDone => if s.ticks = 0 then some { s with tickRef := false } else none
  | .openHandle => if s.node then some { s with others := s.others + 1 } else none
  | .closeHandle =>
      match s.others with
      | n + 1 => some { s with others := n }
      | 0 => none

/-- `SEND_V8_ERR_EVENT` follows a null pointer: without the text of a `stack`, `setMultLine` reads
at address 0, and a termination has left no `Message`. -/
def crashes (s : State) : Action → Bool
  | .js (.uncaught .value) => s.timepool && s.pc.callsBack
  | .js (.uncaught .termination) => s.timepool && s.pc.callsBack && s.terminated
  | _ => false

/-- The steps of `do_script` itself. -/
def next (s : State) : Option State :=
  match s.pc with
  | .newIsolate => some { s with pc := .isolate, code := 1 }
  | .isolate => some { s with pc := .compile, code := 2 }
  | .compile => some { s with pc := .initLoop, code := 3 }
  | .initLoop => some { s with pc := .createEnvironment, code := 9, subLoop := true }
  | .createEnvironment =>
      if s.node then some { s with pc := .loadEnvironment, code := 10 }
      else some { s with pc := .bind, code := 4 }
  | .loadEnvironment => some { s with pc := .bind, code := 4 }
  | .bind =>
      let s := { s with subEvent := true, subOpen := true, subRef := true, subPending := true }
      if s.node then some { s with pc := .script, code := 6 }
      else some { s with pc := .initTimers, code := 5 }
  | .initTimers => some { s with pc := .script, code := 6, timepool := true }
  | .script => some { s with pc := .preTest, code := 7 }
  | .loopHead => some { s with pc := if s.running then .poll else .teardown, code := 8 }
  | .poll =>
      if !s.alive then some { s with pc := .terminatedTest }
      else if s.wakes then some { s with pc := .once, subPending := false }
      else none
  | .once => some { s with pc := .terminatedTest }
  | .terminatedTest =>
      if s.terminated then some { s with pc := .teardown }
      else some { s with pc := if s.node then .listenerTest else .microtasks }
  | .microtasks => some { s with pc := .listenerTest }
  | .tested noListener =>
      some { s with
        subRef := !noListener
        pc := if noListener then (if s.node then .beforeExit else .nowaitEntry) else .loopHead }
  | .beforeExit => some { s with pc := .nowaitEntry }
  | .nowaitEntry =>
      if s.alive then some { s with pc := .nowait, subPending := false }
      else some { s with pc := .teardown }
  | .nowait => some { s with pc := if s.alive then .loopHead else .teardown }
  | .teardown => some { s with pc := if s.node then .emitExit else .uninstall }
  | .emitExit => some { s with pc := .sendEnd }
  | .uninstall =>
      some { s with pc := .sendEnd, timepool := false, timers := 0, ticks := 0, tickRef := false }
  | .sendEnd => some { s with pc := .freeId, mainEvents := s.mainEvents ++ [.fin] }
  | .freeId => some { s with pc := .freeSubEvent, idLive := false }
  | .freeSubEvent => some { s with pc := .signalDel, subOpen := false }
  | .signalDel => some { s with pc := .drainLoop, delSignals := s.delSignals + 1 }
  | .drainLoop => some { s with pc := .dispose }
  | .caught =>
      some { s with
        pc := .dispose
        mainEvents := s.mainEvents ++ [.failure s.code (failureMessage s.code)] }
  | .dispose => some { s with pc := .finished, idLive := false }
  | .preTest | .listenerTest | .finished => none

/-- `CALL_JS_OBJ_FN_RET_BOOL(noListener)`: false if termination interrupts the call. -/
def test (s : State) (interrupted : Bool) : Option State :=
  let answer := !interrupted && s.noListener
  if interrupted && !s.terminated then none
  else
    match s.pc with
    | .preTest => some { s with pc := if answer then .teardown else .loopHead }
    | .listenerTest => some { s with pc := .tested answer }
    | _ => none

def stop (s : State) : Option State :=
  match s.stop with
  | .idle => if s.idLive then some { s with running := false, stop := .terminate } else none
  | .terminate =>
      some { s with terminated := s.terminated || (s.subLoop && s.alive), stop := .wake }
  | .wake => some { s with subPending := s.subPending || s.subEvent, stop := .idle }

def step (s : State) : Action → Option State
  | .next => next s
  | .fail => if s.pc.setUp then some { s with pc := .caught } else none
  | .compileError =>
      if s.pc = .compile then
        some { s with pc := .caught, mainEvents := s.mainEvents ++ [.compilerError] }
      else none
  | .load handles => if s.pc = .loadEnvironment then some { s with others := handles } else none
  | .test interrupted => test s interrupted
  | .js op => if s.jsRuns then js s op else none
  | .wake => if s.subOpen then some { s with subPending := true } else none
  | .stop => stop s

/-! ### The whole process -/

/-- A thread and the process that it is in. -/
structure Process where
  thread : State
  /-- The handler of `SIGSEGV` has ended the process, all its threads included. -/
  crashed : Bool

namespace Process

def init (node : Bool) : Process := ⟨Script.init node, false⟩

def step (p : Process) (a : Action) : Option Process :=
  if p.crashed then none
  else if crashes p.thread a then some { p with crashed := true }
  else (Script.step p.thread a).map fun t => { p with thread := t }

/-- The thread takes no further step. -/
def halted (p : Process) : Prop := p.crashed = true ∨ p.thread.pc = .finished

end Process

end ThreadJs.Script
