import ThreadJs.Mailbox.Connection
import ThreadJs.Wait.Pairing

/-!
`thread.wait` and `th.notify` over the mailboxes.

The event of a wait goes through the mailbox of the main side, behind what the thread has sent
before, and while the thread waits it does not fetch anything. The main side may notify at any
time, also before it has received the event. Here `uv_cond_wait` returns after a broadcast only;
spurious returns are the subject of `Wait.Spurious`. A run goes on as long as neither side is torn
down.

* `waits_over_mailboxes` — waits and notifications are paired, and where the threads have come to
  rest, and neither is torn down, a thread that waits is released by the next notification.
* `wait_is_barrier` — where a notification is made only in answer to an event, the main side has
  received all that was sent before a wait when the wait is released.
-/

namespace ThreadJs.Wait.Barrier

open Machine Mailbox Mailbox.Steady Mailbox.Connection

/-- What goes through the mailboxes. -/
inductive Letter (Msg : Type) where
  | message (m : Msg)
  /-- The event of a call of `thread.wait`. -/
  | event (m : Msg)

structure State (Data Msg : Type) where
  /-- Its count of events that are on their way is that of all events. -/
  wait : Wait.State Data
  box : Steady.State (Letter Msg)
  /-- How often `notify` has been called. -/
  answers : ℕ

variable {Data Msg : Type}

/-- The side is not inside `_wait`, `_notify` or `_send`. -/
def State.free (s : State Data Msg) : Side → Bool
  | .sub =>
      match s.wait.sub, (s.box .main).sender with
      | .running, .none => true
      | _, _ => false
  | .main =>
      match s.wait.main, (s.box .sub).sender with
      | .idle, .none => true
      | _, _ => false

/-- `sendEvent` of `j_wait` has returned. -/
def State.eventSent (s : State Data Msg) : Bool :=
  match (s.box .main).sender with
  | .none => true
  | _ => false

/-- Whether `j_wait` and `j_notify` can take a step; the event is sent and received by the
mailbox. -/
def State.may (s : State Data Msg) : Wait.Action Data → Bool
  | .wait => s.free .sub
  | .notify _ => s.free .main
  | .lock => s.eventSent
  | .sendEvent | .receive => false
  | _ => true

inductive Action (Data Msg : Type) where
  /-- The code of a side sends a message. -/
  | send (side : Side) (m : Msg)
  /-- `sendEvent` of `j_wait`. -/
  | event (m : Msg)
  | wait (a : Wait.Action Data)
  | mail (side : Side) (a : Mail)
  | recv (side : Side)

def State.mail (s : State Data Msg) (side : Side) (a : Steady.Action (Letter Msg)) :
    Option (State Data Msg) :=
  ((s.box side).step a).map fun b => { s with box := Function.update s.box side b }

/-- The calls of `notify` among the steps. -/
def calls : Wait.Action Data → ℕ
  | .notify _ => 1
  | _ => 0

def State.follow (s : State Data Msg) (a : Wait.Action Data) : Option (State Data Msg) :=
  (Wait.step .exact s.wait a).map fun w => { s with wait := w, answers := s.answers + calls a }

def step (s : State Data Msg) : Action Data Msg → Option (State Data Msg)
  | .send side m => if s.free side then s.mail side.peer (.lock (.message m)) else none
  | .event m => (s.follow .sendEvent).bind fun t => t.mail .main (.lock (.event m))
  | .wait a => if s.may a then s.follow a else none
  | .mail side a => if a.fetches && !s.free side then none else s.mail side a.action
  | .recv side => if s.free side then s.mail side .recv else none

/-- The sides are bound, with the messages that were sent before. -/
def opened (before : Side → List Msg) : State Data Msg where
  wait := Wait.init
  box := bound fun side => (before side).map .message
  answers := 0

/-! ### What a step changes -/

variable {s t : State Data Msg}

theorem mail_cases {side : Side} {a : Steady.Action (Letter Msg)} (hs : s.mail side a = some t) :
    t.wait = s.wait ∧ t.answers = s.answers ∧ (s.box side).step a = some (t.box side) ∧
      t.box side.peer = s.box side.peer := by
  obtain ⟨b, hb, rfl⟩ := Option.map_eq_some_iff.mp hs
  refine ⟨rfl, rfl, ?_, Function.update_of_ne (peer_ne side) b s.box⟩
  simp only [Function.update_self]
  exact hb

theorem follow_cases {a : Wait.Action Data} (hs : s.follow a = some t) :
    Wait.step .exact s.wait a = some t.wait ∧ t.answers = s.answers + calls a ∧
      t.box = s.box := by
  obtain ⟨w, hw, rfl⟩ := Option.map_eq_some_iff.mp hs
  exact ⟨hw, rfl, rfl⟩

/-- The mailboxes do what `Box.step` says. -/
theorem step_box {a : Action Data Msg} (hs : step s a = some t) (side : Side) :
    t.box side = s.box side ∨ ∃ a, (s.box side).step a = some (t.box side) := by
  have mail : ∀ {u : State Data Msg} {other a}, u.mail other a = some t → u.box = s.box →
      t.box side = s.box side ∨ ∃ a, (s.box side).step a = some (t.box side) := by
    intro u other a hs same
    obtain ⟨-, -, here, there⟩ := mail_cases hs
    rw [same] at here there
    rcases eq_or_eq_peer other side with rfl | rfl
    · exact .inr ⟨a, here⟩
    · exact .inl there
  cases a with
  | send sender m =>
      obtain ⟨-, hs⟩ := Option.ite_none_right_eq_some.mp hs
      exact mail hs rfl
  | event m =>
      obtain ⟨u, followed, hs⟩ := Option.bind_eq_some_iff.mp hs
      exact mail hs (follow_cases followed).2.2
  | wait a =>
      obtain ⟨-, hs⟩ := Option.ite_none_right_eq_some.mp hs
      exact .inl (congrFun (follow_cases hs).2.2 side)
  | mail other a =>
      obtain ⟨-, hs⟩ := Option.ite_none_left_eq_some.mp hs
      exact mail hs rfl
  | recv other =>
      obtain ⟨-, hs⟩ := Option.ite_none_right_eq_some.mp hs
      exact mail hs rfl

/-- Wait and notify do what `Wait.step` says. -/
theorem step_wait {a : Action Data Msg} (hs : step s a = some t) :
    t.wait = s.wait ∧ t.answers = s.answers ∨
      ∃ b, Wait.step .exact s.wait b = some t.wait ∧ t.answers = s.answers + calls b ∧
        (a = .wait b ∨ b = .sendEvent) := by
  cases a with
  | send side m =>
      obtain ⟨-, hs⟩ := Option.ite_none_right_eq_some.mp hs
      obtain ⟨wait, answers, -⟩ := mail_cases hs
      exact .inl ⟨wait, answers⟩
  | event m =>
      obtain ⟨u, followed, hs⟩ := Option.bind_eq_some_iff.mp hs
      obtain ⟨wait, answers, -⟩ := mail_cases hs
      obtain ⟨hw, count, -⟩ := follow_cases followed
      exact .inr ⟨.sendEvent, wait ▸ hw, answers.trans count, .inr rfl⟩
  | wait a =>
      obtain ⟨-, hs⟩ := Option.ite_none_right_eq_some.mp hs
      obtain ⟨hw, count, -⟩ := follow_cases hs
      exact .inr ⟨a, hw, count, .inl rfl⟩
  | mail side a =>
      obtain ⟨-, hs⟩ := Option.ite_none_left_eq_some.mp hs
      obtain ⟨wait, answers, -⟩ := mail_cases hs
      exact .inl ⟨wait, answers⟩
  | recv side =>
      obtain ⟨-, hs⟩ := Option.ite_none_right_eq_some.mp hs
      obtain ⟨wait, answers, -⟩ := mail_cases hs
      exact .inl ⟨wait, answers⟩

/-- What both models keep. -/
structure Kept (s : State Data Msg) : Prop where
  flowing : ∀ side, Flowing (s.box side)
  round : Round s.wait

theorem kept_opened (before : Side → List Msg) : Kept (opened before : State Data Msg) where
  flowing := flowing_bound _
  round := round_init

theorem Kept.step {a : Action Data Msg} (h : Kept s) (hs : Barrier.step s a = some t) :
    Kept t where
  flowing side := by
    rcases step_box hs side with same | ⟨a, moved⟩
    · rw [same]
      exact h.flowing side
    · exact (h.flowing side).step moved
  round := by
    rcases step_wait hs with ⟨same, -⟩ | ⟨b, hb, -, -⟩
    · rw [same]
      exact h.round
    · exact h.round.step hb

/-! ### Rest -/

/-- What the threads do by themselves once a call has begun. -/
def Action.inner : Action Data Msg → Prop
  | .send _ _ | .wait .wait | .wait (.notify _) | .mail _ .nudge => False
  | .event _ | .wait _ | .mail _ _ | .recv _ => True

/-- The thread is held in `uv_cond_wait`, and no notification is under way. -/
structure Waiting (w : Wait.State Data) : Prop where
  sub : w.sub = .blocked
  main : w.main = .idle
  locked : w.locked = true
  data : w.data = none

theorem inner_mail {a : Mail} (notNudge : a ≠ .nudge) (side : Side) :
    (Action.mail side a : Action Data Msg).inner := by
  cases a with
  | nudge => exact absurd rfl notNudge
  | push | signal | unlock | wake | next => trivial

/-- What goes on by itself in wait and notify. -/
theorem leads_run {as : List (Wait.Action Data)} {w : Wait.State Data}
    (goesOn : ∀ a ∈ as, ∀ s : State Data Msg, s.may a = true)
    (hrun : run (Wait.step .exact) s.wait as = some w) : Leads step s fun t => t.wait = w := by
  induction as generalizing s with
  | nil => exact .refl (Option.some.inj hrun)
  | cons a as ih =>
      obtain ⟨u, first, rest⟩ := run_cons_eq_some.mp hrun
      obtain ⟨now, later⟩ := List.forall_mem_cons.mp goesOn
      have hs : step s (.wait a) =
          some { s with wait := u, answers := s.answers + calls a } := by
        simp [step, now, State.follow, first]
      refine (Leads.of_step hs rfl).trans ?_
      rintro _ rfl
      exact ih later rest

/-- The end of a notification and of the wait that it releases. -/
theorem run_release {w : Wait.State Data} (sub : w.sub = .blocked) (locked : w.locked = true)
    {arg : Option Data} (main : w.main = .unlocking arg) :
    run (Wait.step .exact) w [.unlock, .broadcast, .reacquire, .getData] = some { w with
      sub := .running
      main := .idle
      locked := false
      data := none
      returned := w.returned ++ [w.data]
      notified := w.notified ++ [arg] } := by
  simp [run, Wait.step, subStep, mainStep, State.mutexHeld, sub, main, locked]

section Rest

variable (rests : AtRest step Action.inner s)
include rests

theorem sender_of_atRest (side : Side) : (s.box side).sender = .none := by
  refine sender_of_stuck fun a notNudge sends => ?_
  have stuck := rests (.mail side a) (inner_mail notNudge side)
  simpa [step, sends, State.mail] using stuck

theorem stuck_of_free {side : Side} (free : s.free side = true) : Stuck (s.box side) where
  mail := by
    intro a notNudge
    have stuck := rests (.mail side a) (inner_mail notNudge side)
    simpa [step, free, State.mail] using stuck
  recv := by
    have stuck := rests (.recv side) trivial
    simpa [step, free, State.mail] using stuck

theorem wait_of_atRest {a : Wait.Action Data}
    (inner : (Action.wait a : Action Data Msg).inner) (may : s.may a = true) :
    Wait.step .exact s.wait a = none := by
  have stuck := rests (.wait a) inner
  simpa [step, may, State.follow] using stuck

/-- At rest the thread runs or waits for a notification. -/
theorem sub_of_atRest [Inhabited Msg] (round : Round s.wait) :
    s.wait.main = .idle ∧ s.wait.sub = .running ∨ Waiting s.wait := by
  have sender := sender_of_atRest rests .main
  have mutex : s.wait.sub ≠ .inLock → (∀ arg, s.wait.main ≠ .broadcasting arg) →
      s.wait.mutexHeld = false := fun sub main => mutexHeld_eq_false.mpr ⟨sub, main⟩
  cases round with
  | free sub main locked data inStep =>
      rcases sub with sub | sub | sub
      · exact .inl ⟨main, sub⟩
      · have event := rests (.event default) trivial
        simp [step, State.follow, Wait.step, subStep, mainStep, sub, State.mail, Box.step,
          sender] at event
      · have lock := wait_of_atRest rests (a := .lock) trivial (by simp [State.may,
          State.eventSent, sender])
        simp [Wait.step, subStep, sub, mutex (by simp [sub]) (by simp [main]), locked,
          mainStep] at lock
  | held sub main locked data inStep =>
      rcases sub with sub | sub
      · have condWait := wait_of_atRest rests (a := .condWait) trivial rfl
        simp [Wait.step, subStep, sub, mainStep] at condWait
      · rcases main with main | ⟨d, main⟩ | ⟨arg, main⟩
        · exact .inr ⟨sub, main, locked, data.trans (congrArg MainPc.given main)⟩
        · have setData := wait_of_atRest rests (a := .setData) trivial rfl
          simp [Wait.step, subStep, mainStep, main, locked] at setData
        · have unlock := wait_of_atRest rests (a := .unlock) trivial rfl
          simp [Wait.step, subStep, mainStep, main, mutex (by simp [sub]) (by simp [main]),
            locked] at unlock
  | releasing arg sub main locked data inStep =>
      have broadcast := wait_of_atRest rests (a := .broadcast) trivial rfl
      simp [Wait.step, subStep, mainStep, main] at broadcast
  | released arg sub main locked data inStep =>
      rcases sub with sub | sub
      · have reacquire := wait_of_atRest rests (a := .reacquire) trivial rfl
        simp [Wait.step, subStep, sub, mutex (by simp [sub]) (by simp [main]),
          mainStep] at reacquire
      · have getData := wait_of_atRest rests (a := .getData) trivial rfl
        simp [Wait.step, subStep, sub, locked, mainStep] at getData

theorem free_of_idle (main : s.wait.main = .idle) : s.free .main = true := by
  simp [State.free, main, sender_of_atRest rests]

theorem free_of_running (sub : s.wait.sub = .running) : s.free .sub = true := by
  simp [State.free, sub, sender_of_atRest rests]

/-- A notification releases the thread, and its argument is what `wait` returns. -/
theorem leads_return (waiting : Waiting s.wait) (arg : Option Data) :
    Leads step s fun t => t.wait.sub = .running ∧ t.wait.returned = s.wait.returned ++ [arg] := by
  obtain ⟨sub, main, locked, empty⟩ := waiting
  have free := free_of_idle rests main
  -- What has been put into `data` is returned.
  have released : ∀ {t : State Data Msg}, t.wait.sub = .blocked → t.wait.locked = true →
      t.wait.main = .unlocking arg → t.wait.data = arg → t.wait.returned = s.wait.returned →
      Leads step t fun t => t.wait.sub = .running ∧
        t.wait.returned = s.wait.returned ++ [arg] := by
    intro t sub locked main data returned
    refine (leads_run (by simp [State.may]) (run_release sub locked main)).imp ?_
    rintro u now
    rw [now]
    exact ⟨rfl, by rw [← returned, ← data]⟩
  cases arg with
  | none =>
      have called : step s (.wait (.notify none)) = some { s with
          wait := { s.wait with owed := false, main := .unlocking none }
          answers := s.answers + 1 } := by
        simp [step, State.may, free, State.follow, Wait.step, subStep, mainStep, main, locked,
          Rules.exact, calls]
      refine (Leads.of_step called rfl).trans ?_
      rintro _ rfl
      exact released sub locked rfl empty rfl
  | some d =>
      have called : step s (.wait (.notify (some d))) = some { s with
          wait := { s.wait with owed := false, main := .settingData d }
          answers := s.answers + 1 } := by
        simp [step, State.may, free, State.follow, Wait.step, subStep, mainStep, main, locked,
          Rules.exact, calls]
      refine (Leads.of_step called rfl).trans ?_
      rintro t rfl
      have stored : step { s with
          wait := { s.wait with owed := false, main := .settingData d }
          answers := s.answers + 1 } (.wait .setData) = some { s with
          wait := { s.wait with owed := false, main := .unlocking (some d), data := some d }
          answers := s.answers + 1 } := by
        simp [step, State.may, State.follow, Wait.step, subStep, mainStep, locked, calls]
      refine (Leads.of_step stored rfl).trans ?_
      rintro _ rfl
      exact released sub locked rfl rfl rfl

end Rest

/-- Where the threads have come to rest. -/
structure Resting (s : State Data Msg) : Prop where
  /-- The main side has received everything, the event of a wait too. -/
  received : (s.box .main).received = (s.box .main).pushed
  /-- The thread has received everything, or it waits and a notification would release it. -/
  sub : (s.box .sub).received = (s.box .sub).pushed ∨ s.wait.sub = .blocked ∧
    ∀ arg, Leads step s fun t =>
      t.wait.sub = .running ∧ t.wait.returned = s.wait.returned ++ [arg]

theorem resting_of_atRest [Inhabited Msg] (h : Kept s) (rests : AtRest step Action.inner s) :
    Resting s := by
  have main : s.wait.main = .idle := by
    rcases sub_of_atRest rests h.round with ⟨main, -⟩ | waiting
    · exact main
    · exact waiting.main
  refine ⟨(stuck_of_free rests (free_of_idle rests main)).received (h.flowing .main), ?_⟩
  rcases sub_of_atRest rests h.round with ⟨-, sub⟩ | waiting
  · exact .inl ((stuck_of_free rests (free_of_running rests sub)).received (h.flowing .sub))
  · exact .inr ⟨waiting.sub, leads_return rests waiting⟩

/-! ### The end of a call -/

/-- How many steps a call of `_wait` is still good for. -/
def subCost : SubPc → ℕ
  | .canWait => 14
  | .sent => 5
  | .inLock => 4
  | .woken => 2
  | .unlocked => 1
  | .running | .blocked | .threw => 0

def mainCost : MainPc Data → ℕ
  | .settingData _ => 5
  | .unlocking _ => 4
  | .broadcasting _ => 3
  | .idle | .threw => 0

def State.cost (s : State Data Msg) : ℕ :=
  subCost s.wait.sub + mainCost s.wait.main + Connection.cost (s.box .main) +
    Connection.cost (s.box .sub)

/-- A step of a mailbox by which its own cost changes. -/
theorem cost_mailbox {side : Side} {a : Steady.Action (Letter Msg)}
    (hs : s.mail side a = some t) :
    t.cost + Connection.cost (s.box side) = s.cost + Connection.cost (t.box side) := by
  obtain ⟨wait, -, -, other⟩ := mail_cases hs
  cases side with
  | main =>
      simp only [Side.peer] at other
      rw [State.cost, State.cost, wait, other]
      omega
  | sub =>
      simp only [Side.peer] at other
      rw [State.cost, State.cost, wait, other]
      omega

theorem cost_follow {a : Wait.Action Data} (inner : (Action.wait a : Action Data Msg).inner)
    (may : s.may a = true) (hs : s.follow a = some t) : t.cost < s.cost := by
  obtain ⟨hw, -, box⟩ := follow_cases hs
  have less : subCost t.wait.sub + mainCost t.wait.main <
      subCost s.wait.sub + mainCost s.wait.main := by
    generalize t.wait = w at hw
    cases effect_of_step hw with
    | wait | notifyData | notifyNone | notifyFree => exact inner.elim
    | sendEvent | receive => cases may
    | spurious _ allowed => cases allowed
    | lock sub | lockTwice sub | condWait sub | reacquire sub | getData sub | getDataLocked sub =>
        simp [sub, subCost]
    | setData d main | setDataFree d main | unlock d main | unlockFree d main =>
        simp [main, mainCost]
    | broadcast arg main =>
        simp only [main, mainCost]
        split
        · next sub => simp [sub, subCost]
        · omega
  rw [State.cost, State.cost, box]
  omega

theorem ends (s : State Data Msg) : Ends step Action.inner s := by
  refine Ends.of_descends State.cost ?_ s
  intro s a t inner hs
  change t.cost < s.cost
  cases a with
  | send side m => exact inner.elim
  | event m =>
      obtain ⟨u, followed, hs⟩ := Option.bind_eq_some_iff.mp hs
      obtain ⟨hw, -, box⟩ := follow_cases followed
      obtain ⟨-, -, pushed, -⟩ := mail_cases hs
      have more := cost_mailbox hs
      have lock := cost_lock pushed
      have less : u.cost + 9 = s.cost := by
        rw [State.cost, State.cost, box]
        generalize u.wait = w at hw
        cases effect_of_step hw with
        | sendEvent sub =>
            simp only [sub, subCost]
            omega
      omega
  | wait a =>
      obtain ⟨may, hs⟩ := Option.ite_none_right_eq_some.mp hs
      exact cost_follow inner may hs
  | mail side a =>
      obtain ⟨-, hs⟩ := Option.ite_none_left_eq_some.mp hs
      obtain ⟨-, -, moved, -⟩ := mail_cases hs
      have notNudge : a ≠ .nudge := by
        rintro rfl
        exact inner
      have more := cost_mailbox hs
      have less := cost_mail notNudge moved
      omega
  | recv side =>
      obtain ⟨-, hs⟩ := Option.ite_none_right_eq_some.mp hs
      obtain ⟨-, -, moved, -⟩ := mail_cases hs
      have more := cost_mailbox hs
      have less := cost_recv moved
      omega

/-! ### The barrier -/

def Letter.isEvent : Letter Msg → Bool
  | .event _ => true
  | .message _ => false

/-- A notification is under way. -/
def notifying : MainPc Data → ℕ
  | .settingData _ | .unlocking _ | .broadcasting _ => 1
  | .idle | .threw => 0

/-- A notification answers an event that has been received, and each at most one. -/
def Answers (s : State Data Msg) : Action Data Msg → Prop
  | .wait (.notify _) => s.answers < (s.box .main).received.countP Letter.isEvent
  | _ => True

/-- The main side has received what the thread sent before a wait that has been released. -/
def Passed (s : State Data Msg) : Prop :=
  ∀ past m, past ++ [.event m] <+: (s.box .main).pushed →
    past.countP Letter.isEvent < s.wait.notified.length →
    past ++ [.event m] <+: (s.box .main).received

structure Answered (s : State Data Msg) : Prop extends Kept s where
  notified : s.wait.notified.length + notifying s.wait.main ≤ s.answers
  received : s.answers ≤ (s.box .main).received.countP Letter.isEvent

theorem Answered.passed (h : Answered s) : Passed s := by
  intro past m pushed released
  have some : s.wait.notified.length ≤ (s.box .main).received.countP Letter.isEvent :=
    Nat.le_trans (Nat.le_of_add_right_le h.notified) h.received
  rcases List.prefix_or_prefix_of_prefix pushed (h.flowing .main).isPrefix with passed | behind
  · exact passed
  · rcases List.prefix_concat_iff.mp behind with same | before
    · exact same ▸ List.prefix_rfl
    -- Too few events would have been received.
    · have few := before.sublist.countP_le (p := Letter.isEvent)
      omega

theorem received_grows {b c : Box (Letter Msg)} {a : Steady.Action (Letter Msg)}
    (hs : b.step a = some c) : b.received <+: c.received := by
  cases a with
  | recv =>
      simp only [Box.step] at hs
      split at hs
      · cases hs
        exact List.prefix_append _ _
      · cases hs
  | nudge =>
      cases hs
      exact List.prefix_rfl
  | lock | push | signal | unlock | wake | next =>
      simp only [Box.step] at hs
      split at hs <;> cases hs <;> exact List.prefix_rfl

/-- A call of `notify` releases one wait at most. -/
theorem notified_le {w v : Wait.State Data} {a : Wait.Action Data}
    (hs : Wait.step .exact w a = some v) :
    v.notified.length + notifying v.main ≤ w.notified.length + notifying w.main + calls a := by
  cases effect_of_step hs with
  | notifyData d main | notifyNone main => simp [main, notifying, calls]
  | setData d main | unlock arg main | broadcast arg main => simp [main, notifying]
  | setDataFree d main | unlockFree arg main =>
      simp only [main, notifying]
      omega
  | notifyFree | wait | sendEvent | lock | lockTwice | condWait | spurious | reacquire | getData
    | getDataLocked | receive => exact Nat.le_add_right _ _

theorem Answered.step {a : Action Data Msg} (h : Answered s) (hc : Answers s a)
    (hs : Barrier.step s a = some t) : Answered t := by
  have more : (s.box .main).received.countP Letter.isEvent ≤
      (t.box .main).received.countP Letter.isEvent := by
    rcases step_box hs .main with same | ⟨a, moved⟩
    · exact Nat.le_of_eq (congrArg _ (congrArg Box.received same.symm))
    · exact (received_grows moved).sublist.countP_le
  refine ⟨h.toKept.step hs, ?_, ?_⟩
  · rcases step_wait hs with ⟨wait, answers⟩ | ⟨b, hb, answers, -⟩
    · rw [wait, answers]
      exact h.notified
    · have grown := notified_le hb
      have notified := h.notified
      omega
  · rcases step_wait hs with ⟨-, answers⟩ | ⟨b, -, answers, origin⟩
    · exact answers ▸ Nat.le_trans h.received more
    · rw [answers]
      cases b with
      | notify arg =>
          obtain rfl : a = .wait (.notify arg) := origin.resolve_right (by simp)
          exact Nat.le_trans (Nat.succ_le_of_lt hc) more
      | wait | sendEvent | lock | condWait | spurious | reacquire | getData | receive | setData
        | unlock | broadcast => exact Nat.le_trans h.received more

/-! ### Main results -/

/-- **A wait is a barrier**: if notifications only answer events that have been received, then
the main side has received all that the thread sent before a wait, when a notification releases
the wait. -/
theorem wait_is_barrier (before : Side → List Msg) (as : List (Action Data Msg))
    (answers : Meets step Answers (opened before) as) :
    Always step Passed (opened before : State Data Msg) as :=
  (Always.of_invariant (fun _ _ _ h hc hs => Answered.step h hc hs)
    ⟨kept_opened before, Nat.le_refl 0, Nat.zero_le _⟩ answers).imp fun _ h => h.passed

/-- A message, a wait, and an answer to its event. -/
def exchange : List (Action ℕ ℕ) :=
  let delivery : List (Action ℕ ℕ) := [.mail .main .push, .mail .main .signal, .mail .main .unlock,
    .mail .main .wake, .mail .main .next, .recv .main, .mail .main .next]
  .send .sub 1 :: delivery ++ .wait .wait :: .event 2 :: delivery ++
    [.wait .lock, .wait .condWait, .wait (.notify (some 3)), .wait .setData, .wait .unlock,
      .wait .broadcast, .wait .reacquire, .wait .getData]

instance (s : State Data Msg) : (a : Action Data Msg) → Decidable (Answers s a)
  | .wait (.notify _) => inferInstanceAs (Decidable (_ < _))
  | .send _ _ | .event _ | .mail _ _ | .recv _ | .wait .wait | .wait .sendEvent | .wait .lock
  | .wait .condWait | .wait .spurious | .wait .reacquire | .wait .getData | .wait .receive
  | .wait .setData | .wait .unlock | .wait .broadcast => inferInstanceAs (Decidable True)

theorem wait_is_barrier_example : ∃ s, run step (opened fun _ => []) exchange = some s ∧
    s.wait.returned = [some 3] ∧ Passed s :=
  ⟨_, rfl, rfl, (wait_is_barrier (fun _ => []) exchange (by decide)).last rfl⟩

end ThreadJs.Wait.Barrier
