import ThreadJs.Script.DoScript

/-!
When a thread ends by itself.

Without `stop()` the event loop is skipped after the pre-loop test, or left after
`uv_run(UV_RUN_NOWAIT)` (`step_teardown`). The first does not look at timers; the
second relies on a listener test made before the last callbacks ran, and a
listener attached since then does not keep the loop alive because `sub_event` has
lost its reference. With these two openings avoided a thread ends when it is idle,
and only then (`ends_idle_iff_leaves_idle`).
-/

namespace ThreadJs.Script

open Machine

/-- Nothing is pending in the loop: no timer or immediate, no tick, no other handle. -/
structure Quiet (s : State) : Prop where
  timers : s.timers = 0
  ticks : s.ticks = 0
  others : s.others = 0

/-- If the thread has come to teardown by itself, it is idle. -/
def EndsIdle (s : State) : Prop :=
  s.pc = .teardown → s.running = true → s.terminated = false → s.noListener = true ∧ Quiet s

/-- The pre-loop test skips the loop only when nothing is pending, and
`uv_run(UV_RUN_NOWAIT)` ends the loop only while no listener has been attached
since the listener test. -/
def LeavesIdle (s : State) : Action → Prop
  | .test _ => s.pc = .preTest → s.running = true → s.terminated = false →
      s.noListener = true → Quiet s
  | .next => s.pc = .nowaitEntry ∨ s.pc = .nowait → s.running = true → s.terminated = false →
      s.alive = false → s.noListener = true
  | _ => True

instance (s : State) : Decidable (Quiet s) :=
  decidable_of_iff (s.timers = 0 ∧ s.ticks = 0 ∧ s.others = 0)
    ⟨fun h => ⟨h.1, h.2.1, h.2.2⟩, fun h => ⟨h.1, h.2, h.3⟩⟩

instance (s : State) : Decidable (EndsIdle s) :=
  inferInstanceAs (Decidable (_ → _ → _ → _))

/-- What `teardown` says about the loop is not changed by the step. -/
structure SameLoop (s t : State) : Prop where
  listeners : t.listeners = s.listeners
  timers : t.timers = s.timers
  ticks : t.ticks = s.ticks
  others : t.others = s.others

theorem SameLoop.noListener {s t : State} (h : SameLoop s t) : t.noListener = s.noListener := by
  rw [State.noListener, State.noListener, h.listeners]

theorem SameLoop.quiet {s t : State} (h : SameLoop s t) : Quiet t ↔ Quiet s := by
  constructor
  · intro q
    exact ⟨h.timers ▸ q.timers, h.ticks ▸ q.ticks, h.others ▸ q.others⟩
  · intro q
    exact ⟨h.timers.trans q.timers, h.ticks.trans q.ticks, h.others.trans q.others⟩

/-- The three ways to be in teardown after a step, without `stop()`. -/
inductive Leaves (s : State) : Action → Prop where
  | already {a : Action} : s.pc = .teardown → Leaves s a
  | skipped {interrupted : Bool} : s.pc = .preTest → s.noListener = true →
      Leaves s (.test interrupted)
  | left : s.pc = .nowaitEntry ∨ s.pc = .nowait → s.alive = false → Leaves s .next

/-- The three places where `do_script` itself enters teardown. -/
theorem next_teardown {s t : State} (hs : next s = some t) (ht : t.pc = .teardown) :
    t.running = false ∨ t.terminated = true ∨
      (s.pc = .nowaitEntry ∨ s.pc = .nowait) ∧ s.alive = false ∧
        t = { s with pc := .teardown } := by
  cases hpc : s.pc <;> simp only [next, hpc] at hs
  case loopHead =>
    obtain rfl := Option.some.inj hs
    cases hrun : s.running
    · exact .inl rfl
    · simp [hrun] at ht
  case terminatedTest =>
    cases hterm : s.terminated
    · simp only [hterm] at hs
      obtain rfl := Option.some.inj hs
      cases hnode : s.node <;> simp [hnode] at ht
    · simp only [hterm] at hs
      obtain rfl := Option.some.inj hs
      exact .inr (.inl rfl)
  case nowaitEntry =>
    cases halive : s.alive
    · simp only [halive] at hs
      exact .inr (.inr ⟨.inl rfl, rfl, (Option.some.inj hs).symm⟩)
    · simp only [halive] at hs
      obtain rfl := Option.some.inj hs
      cases ht
  case nowait =>
    cases halive : s.alive
    · simp only [halive] at hs
      exact .inr (.inr ⟨.inr rfl, rfl, (Option.some.inj hs).symm⟩)
    · simp only [halive] at hs
      obtain rfl := Option.some.inj hs
      cases ht
  case teardown =>
    obtain rfl := Option.some.inj hs
    cases hnode : s.node <;> simp [hnode] at ht
  case tested answer =>
    obtain rfl := Option.some.inj hs
    cases answer <;> cases hnode : s.node <;> simp [hnode] at ht
  case createEnvironment | bind | poll =>
    split at hs <;> (try split at hs) <;> cases hs <;> cases ht
  all_goals
    cases hs
    try cases ht

theorem stop_spec {s t : State} (hs : stop s = some t) :
    t.pc = s.pc ∧ SameLoop s t ∧ (t.running = true → s.running = true) ∧
      (t.terminated = false → s.terminated = false) := by
  simp only [stop] at hs
  split at hs
  · split at hs
    · obtain rfl := Option.some.inj hs
      exact ⟨rfl, ⟨rfl, rfl, rfl, rfl⟩, nofun, id⟩
    · cases hs
  · obtain rfl := Option.some.inj hs
    exact ⟨rfl, ⟨rfl, rfl, rfl, rfl⟩, id, fun h => (Bool.or_eq_false_iff.mp h).1⟩
  · obtain rfl := Option.some.inj hs
    exact ⟨rfl, ⟨rfl, rfl, rfl, rfl⟩, id, id⟩

/-- User code does not move `do_script`. -/
theorem js_pc {s t : State} {op : Js} (hs : js s op = some t) : t.pc = s.pc := by
  cases op <;> simp only [js] at hs
  case send | listen => cases hs; rfl
  all_goals
    split at hs
    · cases hs; rfl
    · cases hs

/-- Where a step into teardown comes from. -/
theorem step_teardown {s t : State} {a : Action} (hs : step s a = some t) (ht : t.pc = .teardown)
    (running : t.running = true) (going : t.terminated = false) :
    s.running = true ∧ s.terminated = false ∧ SameLoop s t ∧ Leaves s a := by
  cases a with
  | next =>
      rcases next_teardown hs ht with stopped | interrupted | ⟨hpc, halive, rfl⟩
      · exact absurd (running.symm.trans stopped) nofun
      · exact absurd (interrupted.symm.trans going) nofun
      · exact ⟨running, going, ⟨rfl, rfl, rfl, rfl⟩, .left hpc halive⟩
  | fail =>
      simp only [step, Option.ite_none_right_eq_some] at hs
      obtain ⟨-, hs⟩ := hs
      cases hs
      cases ht
  | compileError =>
      simp only [step, Option.ite_none_right_eq_some] at hs
      obtain ⟨-, hs⟩ := hs
      cases hs
      cases ht
  | load handles =>
      simp only [step, Option.ite_none_right_eq_some] at hs
      obtain ⟨hpc, hs⟩ := hs
      cases hs
      exact absurd (hpc.symm.trans ht) nofun
  | test interrupted =>
      simp only [step, test] at hs
      split at hs
      · cases hs
      · split at hs
        · next hpc =>
            cases hs
            cases answer : !interrupted && s.noListener
            · simp [answer] at ht
            · exact ⟨running, going, ⟨rfl, rfl, rfl, rfl⟩,
                .skipped hpc (Bool.and_eq_true_iff.mp answer).2⟩
        · cases hs
          cases ht
        · cases hs
  | js op =>
      simp only [step, Option.ite_none_right_eq_some] at hs
      obtain ⟨hruns, hs⟩ := hs
      rw [State.jsRuns, ← js_pc hs, ht] at hruns
      cases hruns
  | wake =>
      simp only [step, Option.ite_none_right_eq_some] at hs
      obtain ⟨-, hs⟩ := hs
      cases hs
      exact ⟨running, going, ⟨rfl, rfl, rfl, rfl⟩, .already ht⟩
  | stop =>
      obtain ⟨hpc, same, hrun, hterm⟩ := stop_spec hs
      exact ⟨hrun running, hterm going, same, .already (hpc.symm.trans ht)⟩

/-- A queued tick holds a reference of the loop. -/
def TicksHeld (s : State) : Prop := s.ticks ≠ 0 → s.tickRef = true

theorem TicksHeld.quiet {s : State} (h : TicksHeld s) (halive : s.alive = false) : Quiet s := by
  simp only [State.alive, Bool.or_eq_false_iff, bne_eq_false_iff_eq] at halive
  obtain ⟨⟨⟨timers, others⟩, -⟩, unref⟩ := halive
  refine ⟨timers, ?_, others⟩
  by_contra queued
  rw [h queued] at unref
  cases unref

/-- The queue changes only under user code and when it is given up. -/
theorem next_ticks {s t : State} (hs : next s = some t) :
    t.ticks = s.ticks ∧ t.tickRef = s.tickRef ∨ t.ticks = 0 := by
  cases hpc : s.pc <;> simp only [next, hpc] at hs
  case uninstall =>
    cases hs
    exact .inr rfl
  case createEnvironment | bind | poll | terminatedTest | nowaitEntry =>
    split at hs <;> (try split at hs) <;> cases hs <;> exact .inl ⟨rfl, rfl⟩
  all_goals
    cases hs
    try exact .inl ⟨rfl, rfl⟩

theorem TicksHeld.js {s t : State} {op : Js} (h : TicksHeld s) (hs : js s op = some t) :
    TicksHeld t := by
  cases op <;> simp only [Script.js] at hs
  case pushTick =>
    split at hs
    · cases hs
      exact fun _ => rfl
    · cases hs
  case popTick =>
    split at hs
    · next n hticks =>
        cases hs
        exact fun _ => h (by simp [hticks])
    · cases hs
  case ticksDone =>
    split at hs
    · next empty =>
        cases hs
        exact fun queued => absurd empty queued
    · cases hs
  case send | listen => cases hs; exact h
  all_goals
    split at hs
    · cases hs; exact h
    · cases hs

theorem TicksHeld.step {s t : State} {a : Action} (h : TicksHeld s)
    (hs : Script.step s a = some t) : TicksHeld t := by
  cases a with
  | next =>
      rcases next_ticks hs with ⟨ticks, tickRef⟩ | empty
      · rw [TicksHeld, ticks, tickRef]
        exact h
      · exact fun queued => absurd empty queued
  | js op =>
      simp only [Script.step, Option.ite_none_right_eq_some] at hs
      exact h.js hs.2
  | test interrupted =>
      simp only [Script.step, test] at hs
      split at hs
      · cases hs
      · split at hs <;> cases hs <;> exact h
  | stop =>
      simp only [Script.step, stop] at hs
      split at hs
      · split at hs <;> cases hs
        exact h
      · cases hs; exact h
      · cases hs; exact h
  | fail | compileError | load handles | wake =>
      simp only [Script.step, Option.ite_none_right_eq_some] at hs
      obtain ⟨-, hs⟩ := hs
      cases hs
      exact h

/-- A step that keeps the two openings shut ends idle. -/
theorem EndsIdle.step {s t : State} {a : Action} (h : EndsIdle s) (held : TicksHeld s)
    (hc : LeavesIdle s a) (hs : Script.step s a = some t) : EndsIdle t := by
  intro ht running going
  obtain ⟨running, going, same, leaves⟩ := step_teardown hs ht running going
  rw [same.noListener, same.quiet]
  cases leaves with
  | already hpc => exact h hpc running going
  | skipped hpc silent => exact ⟨silent, hc hpc running going silent⟩
  | left hpc halive => exact ⟨hc hpc running going halive, held.quiet halive⟩

/-- A step through one of the openings is a thread that ends although it is not idle. -/
theorem not_endsIdle_of_not_leavesIdle {s t : State} {a : Action} (hc : ¬ LeavesIdle s a)
    (hs : step s a = some t) : ¬ EndsIdle t := by
  intro ends
  cases a with
  | test interrupted =>
      apply hc
      intro hpc running going silent
      simp only [step, test, going, hpc, silent, Bool.not_false, Bool.and_true] at hs
      cases interrupted
      · cases hs
        have quiet := (ends rfl running rfl).2
        exact ⟨quiet.timers, quiet.ticks, quiet.others⟩
      · cases hs
  | next =>
      apply hc
      intro hpc running going halive
      have left : t = { s with pc := .teardown } := by
        rcases hpc with hpc | hpc <;> simp only [step, next, hpc, halive] at hs <;>
          exact (Option.some.inj hs).symm
      rw [left] at ends
      exact (ends rfl running going).1
  | _ => exact hc trivial

/-- **A thread ends by itself only when it is idle**, along a run, if and only if
the run takes neither opening. -/
theorem ends_idle_iff_leaves_idle (node : Bool) (as : List Action) :
    Always step EndsIdle (init node) as ↔ Meets step LeavesIdle (init node) as :=
  always_iff_meets (I := fun s => TicksHeld s ∧ EndsIdle s)
    (fun _ _ _ h hc hs => ⟨h.1.step hs, h.2.step h.1 hc hs⟩) (fun _ h => h.2)
    (fun _ _ _ _ hc hs => not_endsIdle_of_not_leavesIdle hc hs)
    ⟨fun queued => absurd rfl queued, fun hpc => Pc.noConfusion hpc⟩ as

/-- A script that only sets a timer ends with the timer pending; and a listener that
the last timer attaches in `uv_run(UV_RUN_NOWAIT)` is left behind. -/
theorem ends_busy :
    ¬ Always step EndsIdle (init false) [.next, .next, .next, .next, .next, .next, .next,
      .js .startTimer, .next, .test false] ∧
    ¬ Always step EndsIdle (init false) [.next, .next, .next, .next, .next, .next, .next,
      .js (.listen 1), .next, .test false, .next, .next, .js (.listen 0), .js .startTimer, .next,
      .next, .next, .test false, .next, .next, .js .stopTimer, .js (.listen 1), .next] := by
  decide

end ThreadJs.Script
