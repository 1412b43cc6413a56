import ThreadJs.Lib.Simulation
import ThreadJs.Script.Idle
import ThreadJs.Script.StopLoop

/-!
Threads that sleep, and threads that end by themselves.

A thread without node enters `uv_run(UV_RUN_ONCE)` only if somebody listens or something is
pending in its loop. So it sleeps for a reason, and when there is no reason left it leaves the
loop and finishes, whoever else does nothing (`idle_thread_ends`). In a node thread this is not
so: a tick that runs after the listener test may remove the last listener, and the thread then
sleeps until the next message.
-/

namespace ThreadJs.Script

open Machine

/-- Something is pending in the loop. -/
def State.busy (s : State) : Bool := s.timers != 0 || s.others != 0 || s.ticks != 0 || s.tickRef

/-- Nobody listens and nothing is pending. -/
structure Idle (s : State) : Prop where
  silent : s.noListener = true
  calm : s.busy = false

/-- In `uv_run(UV_RUN_ONCE)`, from which it cannot return. -/
structure Asleep (s : State) : Prop where
  poll : s.pc = .poll
  stuck : next s = none

theorem not_idle_of_listener {s : State} (h : s.noListener = false) : ¬ Idle s := fun idle =>
  Bool.false_ne_true (h.symm.trans idle.silent)

theorem not_idle_of_busy {s : State} (h : s.busy = true) : ¬ Idle s := fun idle =>
  Bool.false_ne_true (idle.calm.symm.trans h)

/-- Without the reference of `sub_event` the loop is alive only if something is pending. -/
theorem busy_of_alive {s : State} (unref : s.subRef = false) (alive : s.alive = true) :
    s.busy = true := by
  simp only [State.alive, unref, Bool.and_false, Bool.or_false, Bool.or_eq_true] at alive
  rcases alive with (timers | others) | tick
  · simp [State.busy, timers]
  · simp [State.busy, others]
  · simp [State.busy, tick]

/-! ### Before sleep -/

/-- The loop is to be entered again. -/
def Pc.again : Pc → Bool
  | .tested false | .loopHead | .poll => true
  | _ => false

/-- `sub_event` has no reference. -/
def Pc.released : Pc → Bool
  | .beforeExit | .nowaitEntry | .nowait => true
  | _ => false

structure Reasoned (s : State) : Prop where
  plain : s.node = false
  released : s.pc.released = true → s.subRef = false
  again : s.pc.again = true → s.terminated = false → ¬ Idle s

/-- Where `sub_event` has its reference. -/
theorem Reasoned.held {s : State} (plain : s.node = false) (held : s.pc.released = false)
    (again : s.pc.again = true → s.terminated = false → ¬ Idle s) : Reasoned s :=
  ⟨plain, fun released => absurd (held.symm.trans released) Bool.false_ne_true, again⟩

/-- Where the loop is not to be entered again. -/
theorem Reasoned.onward {s : State} (plain : s.node = false) (onward : s.pc.again = false)
    (released : s.pc.released = true → s.subRef = false) : Reasoned s :=
  ⟨plain, released, fun again => absurd (onward.symm.trans again) Bool.false_ne_true⟩

/-- Elsewhere. -/
theorem Reasoned.of_place {s : State} (plain : s.node = false) (held : s.pc.released = false)
    (onward : s.pc.again = false) : Reasoned s :=
  .held plain held fun again => absurd (onward.symm.trans again) Bool.false_ne_true

theorem reasoned_init : Reasoned (init false) := .of_place rfl rfl rfl

theorem Asleep.calm {s : State} (h : Asleep s) : s.timers = 0 ∧ s.ticks = 0 ∧ s.others = 0 := by
  have stuck := h.stuck
  simp only [next, h.poll] at stuck
  split at stuck
  · cases stuck
  · split at stuck
    · cases stuck
    · next quiet =>
        simp only [State.wakes, Bool.or_eq_true, not_or, bne_iff_ne, not_not] at quiet
        obtain ⟨⟨⟨-, timers⟩, others⟩, ticks⟩ := quiet
        exact ⟨timers, ticks, others⟩

theorem Reasoned.asleep {s : State} (h : Reasoned s) (going : s.terminated = false)
    (asleep : Asleep s) : s.noListener = false ∨ s.tickRef = true := by
  obtain ⟨timers, ticks, others⟩ := asleep.calm
  have notIdle := h.again (by rw [asleep.poll]; rfl) going
  by_contra none
  obtain ⟨listens, tick⟩ := not_or.mp none
  refine notIdle ⟨eq_true_of_ne_false listens, ?_⟩
  simp [State.busy, timers, others, ticks, tick]

/-- What the thread has to do with its loop is left alone. -/
structure SameHandles (s t : State) : Prop where
  pc : t.pc = s.pc
  node : t.node = s.node
  subRef : t.subRef = s.subRef

theorem js_sameHandles {s t : State} {op : Js} (hs : js s op = some t) : SameHandles s t := by
  refine ⟨js_pc hs, ?_, ?_⟩
  all_goals
    cases op <;> simp only [js] at hs
    case send | listen => cases hs; rfl
    all_goals
      split at hs
      · cases hs; rfl
      · cases hs

theorem Reasoned.js {s t : State} {op : Js} (h : Reasoned s) (runs : s.jsRuns = true)
    (hs : js s op = some t) : Reasoned t := by
  obtain ⟨pc, node, subRef⟩ := js_sameHandles hs
  refine ⟨node.trans h.plain, fun released => ?_, fun again => ?_⟩
  · exact subRef.trans (h.released (pc ▸ released))
  · rw [pc] at again
    rw [State.jsRuns, h.plain] at runs
    cases hpc : s.pc <;> simp_all [Pc.again]

theorem Reasoned.next {s t : State} (h : Reasoned s) (hs : next s = some t) : Reasoned t := by
  cases hpc : s.pc <;> simp only [Script.next, hpc] at hs
  case loopHead =>
    have notIdle := h.again (by rw [hpc]; rfl)
    obtain rfl := Option.some.inj hs
    refine .held h.plain ?_ fun _ going idle => notIdle going ⟨idle.silent, idle.calm⟩
    cases s.running <;> rfl
  case tested answer =>
    obtain rfl := Option.some.inj hs
    cases answer with
    | false =>
        have notIdle := h.again (by rw [hpc]; rfl)
        exact .held h.plain rfl fun _ going idle => notIdle going ⟨idle.silent, idle.calm⟩
    | true =>
        refine ⟨h.plain, fun _ => rfl, ?_⟩
        simp [h.plain, Pc.again]
  case beforeExit =>
    obtain rfl := Option.some.inj hs
    exact .onward h.plain rfl fun _ => h.released (by rw [hpc]; rfl)
  case nowaitEntry =>
    have unref := h.released (by rw [hpc]; rfl)
    split at hs
    · obtain rfl := Option.some.inj hs
      exact .onward h.plain rfl fun _ => unref
    · obtain rfl := Option.some.inj hs
      exact .of_place h.plain rfl rfl
  case nowait =>
    -- Callbacks have run since the listener test; only what is pending keeps the loop alive.
    have unref := h.released (by rw [hpc]; rfl)
    obtain rfl := Option.some.inj hs
    cases alive : s.alive with
    | true =>
        exact .held h.plain rfl fun _ _ idle => not_idle_of_busy (busy_of_alive unref alive)
          ⟨idle.silent, idle.calm⟩
    | false => exact .of_place h.plain rfl rfl
  case createEnvironment | bind | poll | terminatedTest =>
    split at hs <;> (try split at hs) <;> cases hs <;> exact .of_place h.plain rfl rfl
  case teardown =>
    obtain rfl := Option.some.inj hs
    refine ⟨h.plain, ?_, ?_⟩
    · simp [h.plain, Pc.released]
    · simp [h.plain, Pc.again]
  all_goals
    cases hs
    try exact .of_place h.plain rfl rfl

theorem Reasoned.test {s t : State} {interrupted : Bool} (h : Reasoned s)
    (hs : test s interrupted = some t) : Reasoned t := by
  simp only [Script.test] at hs
  split at hs
  · cases hs
  · next honest =>
      -- The answer is that somebody listens, or the call has been interrupted.
      have heard : (!interrupted && s.noListener) = false → s.terminated = false → ¬ Idle s := by
        intro answer going
        cases interrupted with
        | true => simp [going] at honest
        | false => exact not_idle_of_listener answer
      split at hs
      · obtain rfl := Option.some.inj hs
        cases answer : !interrupted && s.noListener with
        | true => exact .of_place h.plain rfl rfl
        | false =>
            exact .held h.plain rfl fun _ going idle => heard answer going ⟨idle.1, idle.2⟩
      · obtain rfl := Option.some.inj hs
        cases answer : !interrupted && s.noListener with
        | true => exact .of_place h.plain rfl rfl
        | false =>
            exact .held h.plain rfl fun _ going idle => heard answer going ⟨idle.1, idle.2⟩
      · cases hs

theorem Reasoned.step {s t : State} {a : Action} (h : Reasoned s) (hs : Script.step s a = some t) :
    Reasoned t := by
  cases a with
  | next => exact h.next hs
  | test interrupted => exact h.test hs
  | js op =>
      obtain ⟨runs, hs⟩ := Option.ite_none_right_eq_some.mp hs
      exact h.js runs hs
  | fail | compileError =>
      obtain ⟨-, hs⟩ := Option.ite_none_right_eq_some.mp hs
      cases hs
      exact .of_place h.plain rfl rfl
  | load handles =>
      obtain ⟨loads, hs⟩ := Option.ite_none_right_eq_some.mp hs
      cases hs
      exact ⟨h.plain, h.released, fun again => by rw [loads] at again; cases again⟩
  | wake =>
      obtain ⟨-, hs⟩ := Option.ite_none_right_eq_some.mp hs
      cases hs
      exact ⟨h.plain, h.released, fun again going idle => h.again again going ⟨idle.1, idle.2⟩⟩
  | stop =>
      simp only [Script.step, stop] at hs
      split at hs
      · split at hs <;> cases hs
        exact ⟨h.plain, h.released, fun again going idle => h.again again going ⟨idle.1, idle.2⟩⟩
      · cases hs
        exact ⟨h.plain, h.released, fun again going idle =>
          h.again again (Bool.or_eq_false_iff.mp going).1 ⟨idle.1, idle.2⟩⟩
      · cases hs
        exact ⟨h.plain, h.released, fun again going idle => h.again again going ⟨idle.1, idle.2⟩⟩

/-! ### The way to the end -/

/-- From the user script to the end of the loop. -/
def Pc.inLoop : Pc → Bool
  | .script | .preTest | .loopHead | .poll | .once | .terminatedTest | .microtasks
  | .listenerTest | .tested _ | .nowaitEntry | .nowait => true
  | _ => false

/-- Behind the loop, in a thread without node. -/
def Pc.outside : Pc → Bool
  | .teardown | .uninstall | .sendEnd | .freeId | .freeSubEvent | .signalDel | .drainLoop
  | .dispose | .finished => true
  | _ => false

/-- The steps that are left, if the loop is left after the next listener test. -/
def Pc.left : Pc → ℕ
  | .once => 15
  | .terminatedTest => 14
  | .microtasks => 13
  | .listenerTest => 12
  | .tested _ | .script => 11
  | .preTest | .nowaitEntry | .nowait => 10
  | .teardown => 9
  | .uninstall => 8
  | .sendEnd => 7
  | .freeId => 6
  | .freeSubEvent => 5
  | .signalDel => 4
  | .drainLoop => 3
  | .dispose => 2
  | _ => 0

/-- The steps of a thread that is left alone. -/
def Action.alone : Action → Prop
  | .next | .test false => True
  | _ => False

/-- The thread has come from `s` to `t` on its way to the end. -/
structure OnWay (s t : State) : Prop extends Reasoned t where
  going : t.terminated = false
  place : t.pc.inLoop = true ∧ Idle t ∨ t.pc.outside = true
  events : t.mainEvents = s.mainEvents ++ if t.pc.afterEnd then [.fin] else []
  signals : t.delSignals = s.delSignals + t.pc.afterSignal.toNat
  freed : t.pc.afterFree = true → t.idLive = false

variable {s t u : State}

theorem onWay_start (reasoned : Reasoned s) (going : s.terminated = false)
    (inLoop : s.pc.inLoop = true) (idle : Idle s) : OnWay s s := by
  have early : s.pc.afterEnd = false ∧ s.pc.afterSignal = false ∧ s.pc.afterFree = false := by
    cases hpc : s.pc <;> simp_all [Pc.inLoop, Pc.afterEnd, Pc.afterSignal, Pc.afterFree]
  obtain ⟨notEnd, notSignal, notFree⟩ := early
  refine ⟨reasoned, going, .inl ⟨inLoop, idle⟩, ?_, ?_, ?_⟩
  · simp [notEnd]
  · simp [notSignal]
  · simp [notFree]

theorem OnWay.idle (h : OnWay s t) (inLoop : t.pc.inLoop = true) : Idle t := by
  rcases h.place with ⟨-, idle⟩ | outside
  · exact idle
  · cases hpc : t.pc <;> simp_all [Pc.inLoop, Pc.outside]

/-- The loop is not entered again. -/
theorem OnWay.not_again (h : OnWay s t) : t.pc.again = false := by
  by_contra again
  have again := eq_true_of_ne_false again
  refine h.toReasoned.again again h.going (h.idle ?_)
  cases hpc : t.pc <;> simp_all [Pc.again, Pc.inLoop]

/-- One step of `do_script` nearer to the end. -/
theorem OnWay.progress (h : OnWay s t) (hs : next t = some u) :
    (u.pc.inLoop = true ∧ Idle u ∨ u.pc.outside = true) ∧ u.pc.left < t.pc.left := by
  have again := h.not_again
  have idle := h.idle
  have unref := h.released
  have place := h.place
  cases hpc : t.pc <;> simp only [Script.next, hpc] at hs
  case loopHead | poll => simp [hpc, Pc.again] at again
  case script | once | microtasks =>
    obtain rfl := Option.some.inj hs
    have idle := idle (by rw [hpc]; rfl)
    exact ⟨.inl ⟨rfl, idle.silent, idle.calm⟩, by simp [Pc.left]⟩
  case terminatedTest =>
    have idle := idle (by rw [hpc]; rfl)
    simp only [h.going, h.plain] at hs
    obtain rfl := Option.some.inj hs
    exact ⟨.inl ⟨rfl, idle.silent, idle.calm⟩, by simp [Pc.left]⟩
  case tested answer =>
    obtain rfl := Option.some.inj hs
    have idle := idle (by rw [hpc]; rfl)
    cases answer with
    | false => simp [hpc, Pc.again] at again
    | true =>
        refine ⟨.inl ⟨?_, idle.silent, idle.calm⟩, ?_⟩
        · simp [h.plain, Pc.inLoop]
        · simp [h.plain, Pc.left]
  case nowaitEntry | nowait =>
    -- Nothing keeps the loop alive.
    have unref := unref (by rw [hpc]; rfl)
    have dead : t.alive = false := by
      by_contra alive
      have busy := busy_of_alive unref (eq_true_of_ne_false alive)
      exact not_idle_of_busy busy (idle (by rw [hpc]; rfl))
    simp only [dead] at hs
    obtain rfl := Option.some.inj hs
    exact ⟨.inr rfl, by simp [Pc.left]⟩
  case teardown =>
    obtain rfl := Option.some.inj hs
    refine ⟨.inr ?_, ?_⟩
    · simp [h.plain, Pc.outside]
    · simp [h.plain, Pc.left]
  case preTest | listenerTest | finished => cases hs
  case uninstall | sendEnd | freeId | freeSubEvent | signalDel | drainLoop | dispose =>
    obtain rfl := Option.some.inj hs
    exact ⟨.inr rfl, by simp [Pc.left]⟩
  all_goals simp [hpc, Pc.inLoop, Pc.outside] at place

theorem OnWay.next (h : OnWay s t) (hs : next t = some u) : OnWay s u ∧ u.pc.left < t.pc.left := by
  obtain ⟨place, less⟩ := h.progress hs
  have spec := next_spec hs
  have notCaught : t.pc ≠ .caught := by
    intro hpc
    have place := h.place
    simp [hpc, Pc.inLoop, Pc.outside] at place
  refine ⟨⟨h.toReasoned.next hs, (next_early hs).1.trans h.going, place, ?_, ?_, ?_⟩, less⟩
  · rw [spec.mainEvents, spec.afterEnd, h.events]
    by_cases hpc : t.pc = .sendEnd
    · simp [hpc, Pc.afterEnd]
    · simp [hpc, notCaught]
  · rw [spec.delSignals, spec.afterSignal, h.signals]
    by_cases hpc : t.pc = .signalDel
    · simp [hpc, Pc.afterSignal]
    · simp [hpc, notCaught]
  · rw [spec.idLive, spec.afterFree]
    intro free
    simp only [notCaught, decide_false, Bool.or_false, Bool.or_eq_true, decide_eq_true_eq] at free
    rcases free with before | hpc
    · simp [h.freed before]
    · simp [hpc]

/-- The listener test says that nobody listens. -/
theorem OnWay.test (h : OnWay s t) (hs : test t false = some u) :
    OnWay s u ∧ u.pc.left < t.pc.left := by
  have reasoned := h.toReasoned.test hs
  have idle := h.idle
  have events := h.events
  have signals := h.signals
  simp only [Script.test, Bool.not_false, Bool.true_and, Bool.false_and] at hs
  split at hs
  · cases hs
  split at hs
  · next hpc =>
      have idle := idle (by rw [hpc]; rfl)
      rw [idle.silent] at hs
      obtain rfl := Option.some.inj hs
      rw [hpc] at events signals ⊢
      refine ⟨⟨reasoned, h.going, .inr rfl, events, signals, ?_⟩, ?_⟩
      · simp [Pc.afterFree]
      · simp [Pc.left]
  · next hpc =>
      have idle := idle (by rw [hpc]; rfl)
      rw [idle.silent] at hs
      obtain rfl := Option.some.inj hs
      rw [hpc] at events signals ⊢
      refine ⟨⟨reasoned, h.going, .inl ⟨rfl, idle.silent, idle.calm⟩, events, signals, ?_⟩, ?_⟩
      · simp [Pc.afterFree]
      · simp [Pc.left]
  · cases hs

theorem OnWay.step {a : Action} (h : OnWay s t) (alone : a.alone)
    (hs : Script.step t a = some u) : OnWay s u ∧ u.pc.left < t.pc.left := by
  cases a with
  | next => exact h.next hs
  | test interrupted =>
      cases interrupted with
      | false => exact h.test hs
      | true => exact alone.elim
  | fail | compileError | load | js | wake | stop => exact alone.elim

/-- As long as the thread has not finished it can go on. -/
theorem OnWay.finished (h : OnWay s t) (rests : AtRest Script.step Action.alone t) :
    t.pc = .finished := by
  have next := rests .next trivial
  have test := rests (.test false) trivial
  have again := h.not_again
  have place := h.place
  simp only [Script.step] at next test
  cases hpc : t.pc <;> simp only [Script.next, Script.test, hpc] at next test
  case loopHead | poll => simp [hpc, Pc.again] at again
  case createEnvironment | bind | beforeExit => simp [hpc, Pc.inLoop, Pc.outside] at place
  case terminatedTest | nowaitEntry => split at next <;> cases next
  case preTest | listenerTest => simp at test
  case finished => rfl
  all_goals cases next

/-- What has become of a thread that has ended by itself. -/
structure Ended (s t : State) : Prop where
  finished : t.pc = .finished
  /-- The last event is 'end'. -/
  events : t.mainEvents = s.mainEvents ++ [.fin]
  signals : t.delSignals = s.delSignals + 1
  freed : t.idLive = false

theorem OnWay.ended (h : OnWay s t) (rests : AtRest Script.step Action.alone t) : Ended s t := by
  have hpc := h.finished rests
  have events := h.events
  have signals := h.signals
  have freed := h.freed
  rw [hpc] at events signals freed
  exact ⟨hpc, events, signals, freed rfl⟩

theorem OnWay.run (h : OnWay s t) {as : List Action} (alone : ∀ a ∈ as, a.alone)
    (hrun : Machine.run Script.step t as = some u) : OnWay s u :=
  run_keeps (fun _ _ _ h alone hs => (h.step alone hs).1) alone h hrun

theorem OnWay.ends (h : OnWay s t) : Ends Script.step Action.alone t :=
  .of_keeps (I := OnWay s) (fun t => t.pc.left) (fun _ _ _ h alone hs => h.step alone hs) h

/-- A thread sleeps for a reason, and ends without one. -/
structure EndsItself (s : State) : Prop where
  sleeps : Asleep s → s.noListener = false ∨ s.tickRef = true
  ends : s.pc.inLoop = true → Idle s → Ends step Action.alone s ∧
    ∀ as t, (∀ a ∈ as, a.alone) → run step s as = some t → AtRest step Action.alone t → Ended s t

theorem Reasoned.endsItself (h : Reasoned s) (going : s.terminated = false) : EndsItself s where
  sleeps := h.asleep going
  ends := by
    intro inLoop idle
    have start := onWay_start h going inLoop idle
    exact ⟨start.ends, fun as t alone hrun rests => (start.run alone hrun).ended rests⟩

end ThreadJs.Script
