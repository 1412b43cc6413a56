import ThreadJs.Lib.Machine

/-!
`thread.wait` and `th.notify` over `WaitThread` (`tools.h`), as a machine of the two
threads.

Every access to `locked`, `data` and the condition variable that the other thread
can see is a step of its own. `locked` is read by `is_locked` without the mutex, as
in the source. `unasked` allows notifications that do not answer a wait event, and
`spurious` allows the condition variable to return without a broadcast.
-/

namespace ThreadJs.Wait

/-- The sub thread in `j_wait`. It holds the mutex of `WaitThread` in `inLock`. -/
inductive SubPc where
  | running
  /-- `canwait` is true; the wait event is still to be sent. -/
  | canWait
  /-- The wait event is sent; `WaitThread::lock` is still to be entered. -/
  | sent
  /-- `locked` is set; `uv_cond_wait` is still to be called. -/
  | inLock
  | blocked
  | woken
  /-- `lock` has returned; `getData` is still to be called. -/
  | unlocked
  /-- An exception of `WaitThread` has left `j_wait`. -/
  | threw
  deriving DecidableEq

/-- The main thread in `j_notify`. It holds the mutex in `broadcasting`. -/
inductive MainPc (Data : Type) where
  | idle
  /-- `is_locked` was true and a string was passed. -/
  | settingData (d : Data)
  | unlocking (arg : Option Data)
  | broadcasting (arg : Option Data)
  | threw
  deriving DecidableEq

structure State (Data : Type) where
  sub : SubPc
  main : MainPc Data
  /-- `WaitThread::locked`. -/
  locked : Bool
  /-- `WaitThread::data`. -/
  data : Option Data
  /-- Wait events on their way to the main thread. -/
  waitEvents : Nat
  /-- A wait event has been received and its notification is still to be made. -/
  owed : Bool
  /-- What the calls of `_wait` that did wait have returned; `none` is `true`. -/
  returned : List (Option Data)
  /-- The arguments of the calls of `_notify` that have returned `true`. -/
  notified : List (Option Data)
  deriving DecidableEq

variable {Data : Type}

def init : State Data where
  sub := .running
  main := .idle
  locked := false
  data := none
  waitEvents := 0
  owed := false
  returned := []
  notified := []

structure Rules where
  unasked : Bool
  spurious : Bool

inductive Action (Data : Type) where
  /-- `j_wait` is entered and tests `is_locked`. -/
  | wait
  /-- `sendEvent(req->main_event, eventdata)`. -/
  | sendEvent
  /-- `WaitThread::lock` up to `uv_cond_wait`. -/
  | lock
  | condWait
  /-- `uv_cond_wait` returns without a broadcast. -/
  | spurious
  /-- `uv_cond_wait` has the mutex again, and `lock` returns. -/
  | reacquire
  | getData
  /-- The main thread receives the wait event. -/
  | receive
  /-- `j_notify` is entered and tests `is_locked`. -/
  | notify (arg : Option Data)
  | setData
  /-- `WaitThread::unlock` up to `uv_cond_broadcast`. -/
  | unlock
  | broadcast
  deriving DecidableEq

/-- One of the two threads holds `WaitThread::mutex`. -/
def State.mutexHeld (s : State Data) : Bool :=
  match s.sub, s.main with
  | .inLock, _ => true
  | _, .broadcasting _ => true
  | _, _ => false

/-- The steps of the sub thread. -/
def subStep (rules : Rules) (s : State Data) : Action Data → Option (State Data)
  | .wait =>
      match s.sub with
      | .running => some { s with sub := if s.locked then .running else .canWait }
      | _ => none
  | .sendEvent =>
      match s.sub with
      | .canWait => some { s with sub := .sent, waitEvents := s.waitEvents + 1 }
      | _ => none
  | .lock =>
      match s.sub, s.mutexHeld with
      | .sent, false =>
          if s.locked then some { s with sub := .threw }
          else some { s with sub := .inLock, locked := true }
      | _, _ => none
  | .condWait =>
      match s.sub with
      | .inLock => some { s with sub := .blocked }
      | _ => none
  | .spurious =>
      match s.sub, rules.spurious with
      | .blocked, true => some { s with sub := .woken }
      | _, _ => none
  | .reacquire =>
      match s.sub, s.mutexHeld with
      | .woken, false => some { s with sub := .unlocked }
      | _, _ => none
  | .getData =>
      match s.sub with
      | .unlocked =>
          if s.locked then some { s with sub := .threw }
          else some { s with sub := .running, data := none, returned := s.returned ++ [s.data] }
      | _ => none
  | _ => none

/-- The steps of the main thread. -/
def mainStep (rules : Rules) (s : State Data) : Action Data → Option (State Data)
  | .receive =>
      match s.main, s.waitEvents, s.owed with
      | .idle, n + 1, false => some { s with waitEvents := n, owed := true }
      | _, _, _ => none
  | .notify arg =>
      match s.main, s.owed || rules.unasked with
      | .idle, true =>
          if s.locked then
            some { s with
              owed := false
              main := match arg with
                | some d => .settingData d
                | none => .unlocking none }
          else some { s with owed := false }
      | _, _ => none
  | .setData =>
      match s.main with
      | .settingData d =>
          if s.locked then some { s with main := .unlocking (some d), data := some d }
          else some { s with main := .threw }
      | _ => none
  | .unlock =>
      match s.main, s.mutexHeld with
      | .unlocking arg, false =>
          if s.locked then some { s with main := .broadcasting arg, locked := false }
          else some { s with main := .threw }
      | _, _ => none
  | .broadcast =>
      match s.main with
      | .broadcasting arg => some { s with
          main := .idle
          sub := if s.sub = .blocked then .woken else s.sub
          notified := s.notified ++ [arg] }
      | _ => none
  | _ => none

def step (rules : Rules) (s : State Data) (a : Action Data) : Option (State Data) :=
  (subStep rules s a).or (mainStep rules s a)

/-! ### What a step can do -/

inductive Effect (rules : Rules) (s : State Data) : Action Data → State Data → Prop where
  | wait : s.sub = .running →
      Effect rules s .wait { s with sub := if s.locked then .running else .canWait }
  | sendEvent : s.sub = .canWait →
      Effect rules s .sendEvent { s with sub := .sent, waitEvents := s.waitEvents + 1 }
  | lock : s.sub = .sent → s.mutexHeld = false → s.locked = false →
      Effect rules s .lock { s with sub := .inLock, locked := true }
  | lockTwice : s.sub = .sent → s.mutexHeld = false → s.locked = true →
      Effect rules s .lock { s with sub := .threw }
  | condWait : s.sub = .inLock → Effect rules s .condWait { s with sub := .blocked }
  | spurious : s.sub = .blocked → rules.spurious = true →
      Effect rules s .spurious { s with sub := .woken }
  | reacquire : s.sub = .woken → s.mutexHeld = false →
      Effect rules s .reacquire { s with sub := .unlocked }
  | getData : s.sub = .unlocked → s.locked = false →
      Effect rules s .getData
        { s with sub := .running, data := none, returned := s.returned ++ [s.data] }
  | getDataLocked : s.sub = .unlocked → s.locked = true →
      Effect rules s .getData { s with sub := .threw }
  | receive (n : Nat) : s.main = .idle → s.waitEvents = n + 1 → s.owed = false →
      Effect rules s .receive { s with waitEvents := n, owed := true }
  | notifyData (d : Data) : s.main = .idle → (s.owed || rules.unasked) = true → s.locked = true →
      Effect rules s (.notify (some d)) { s with owed := false, main := .settingData d }
  | notifyNone : s.main = .idle → (s.owed || rules.unasked) = true → s.locked = true →
      Effect rules s (.notify none) { s with owed := false, main := .unlocking none }
  | notifyFree (arg : Option Data) : s.main = .idle → (s.owed || rules.unasked) = true →
      s.locked = false → Effect rules s (.notify arg) { s with owed := false }
  | setData (d : Data) : s.main = .settingData d → s.locked = true →
      Effect rules s .setData { s with main := .unlocking (some d), data := some d }
  | setDataFree (d : Data) : s.main = .settingData d → s.locked = false →
      Effect rules s .setData { s with main := .threw }
  | unlock (arg : Option Data) : s.main = .unlocking arg → s.mutexHeld = false →
      s.locked = true → Effect rules s .unlock { s with main := .broadcasting arg, locked := false }
  | unlockFree (arg : Option Data) : s.main = .unlocking arg → s.mutexHeld = false →
      s.locked = false → Effect rules s .unlock { s with main := .threw }
  | broadcast (arg : Option Data) : s.main = .broadcasting arg →
      Effect rules s .broadcast { s with
        main := .idle
        sub := if s.sub = .blocked then .woken else s.sub
        notified := s.notified ++ [arg] }

theorem effect_of_subStep {rules : Rules} {s t : State Data} {a : Action Data}
    (hs : subStep rules s a = some t) : Effect rules s a t := by
  cases a <;> simp only [subStep] at hs
  case lock =>
    split at hs
    · next hsub hmutex =>
        split at hs
        · next held => cases hs; exact .lockTwice hsub hmutex held
        · next free => cases hs; exact .lock hsub hmutex (Bool.eq_false_iff.mpr free)
    · cases hs
  case getData =>
    split at hs
    · next hsub =>
        split at hs
        · next held => cases hs; exact .getDataLocked hsub held
        · next free => cases hs; exact .getData hsub (Bool.eq_false_iff.mpr free)
    · cases hs
  case receive | notify | setData | unlock | broadcast => cases hs
  all_goals
    split at hs
    · cases hs; constructor <;> assumption
    · cases hs

theorem effect_of_mainStep {rules : Rules} {s t : State Data} {a : Action Data}
    (hs : mainStep rules s a = some t) : Effect rules s a t := by
  cases a <;> simp only [mainStep] at hs
  case receive =>
    split at hs
    · next n hmain hevents howed => cases hs; exact .receive n hmain hevents howed
    · cases hs
  case notify arg =>
    split at hs
    · next hmain allowed =>
        split at hs
        · next held =>
            cases arg with
            | none => cases hs; exact .notifyNone hmain allowed held
            | some d => cases hs; exact .notifyData d hmain allowed held
        · next free => cases hs; exact .notifyFree arg hmain allowed (Bool.eq_false_iff.mpr free)
    · cases hs
  case setData =>
    split at hs
    · next d hmain =>
        split at hs
        · next held => cases hs; exact .setData d hmain held
        · next free => cases hs; exact .setDataFree d hmain (Bool.eq_false_iff.mpr free)
    · cases hs
  case unlock =>
    split at hs
    · next arg hmain hmutex =>
        split at hs
        · next held => cases hs; exact .unlock arg hmain hmutex held
        · next free => cases hs; exact .unlockFree arg hmain hmutex (Bool.eq_false_iff.mpr free)
    · cases hs
  case broadcast =>
    split at hs
    · next arg hmain => cases hs; exact .broadcast arg hmain
    · cases hs
  all_goals cases hs

/-- Every step is one of the effects. -/
theorem effect_of_step {rules : Rules} {s t : State Data} {a : Action Data}
    (hs : step rules s a = some t) : Effect rules s a t := by
  rcases Option.or_eq_some_iff.mp hs with sub | ⟨-, main⟩
  · exact effect_of_subStep sub
  · exact effect_of_mainStep main

end ThreadJs.Wait
