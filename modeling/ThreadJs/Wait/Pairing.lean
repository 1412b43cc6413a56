import ThreadJs.Wait.LostWakeUp

/-!
The pairing of `th.notify` and `thread.wait`.

Notifications may be made at any time, also unasked; the condition variable is
without spurious returns. The two threads then go through rounds of four phases
(`Round`), and in every state of every run the notifications that returned `true`
are, in order, what the waits return, with at most the last one still on its way to
a wait that it has released (`waits_paired_with_notifications`).
-/

namespace ThreadJs.Wait

open Machine

variable {Data : Type}

/-- Notifications at any time, and no spurious returns. -/
def Rules.exact : Rules := ⟨true, false⟩

/-- The steps that a released wait still has to take. -/
def SubPc.toReturn : SubPc → List (Action Data)
  | .woken => [.reacquire, .getData]
  | .unlocked => [.getData]
  | _ => []

/-- Notifications and waits in step with each other. -/
structure Paired (s : State Data) : Prop where
  /-- None of the exceptions of `WaitThread` is thrown. -/
  noThrow : s.sub ≠ .threw ∧ s.main ≠ .threw
  /-- The waits have returned what the notifications carried; one notification at most
  is on its way, to a wait that it has released. -/
  inStep : s.notified = s.returned ∨
    ∃ arg, s.notified = s.returned ++ [arg] ∧ (s.sub = .woken ∨ s.sub = .unlocked)
  /-- Only a wait that a notification has released returns, and it returns the data of
  this notification. -/
  delivers : s.sub = .woken ∨ s.sub = .unlocked →
    ∃ t, run (step .exact) s s.sub.toReturn = some t ∧ t.returned = s.notified ∧ t.sub = .running
  /-- A broadcast finds a wait to release. -/
  releases : ∀ arg, s.main = .broadcasting arg → s.sub = .blocked
  /-- No data is left for a later wait. -/
  noneLeft : s.sub = .running ∨ s.sub = .canWait ∨ s.sub = .sent → s.data = none

/-- What the notification in progress has put into `WaitThread::data`. -/
def MainPc.given : MainPc Data → Option Data
  | .unlocking arg | .broadcasting arg => arg
  | _ => none

/-- The phases of a round of wait and notify. -/
inductive Round (s : State Data) : Prop where
  /-- The sub thread has not locked itself. -/
  | free (sub : s.sub = .running ∨ s.sub = .canWait ∨ s.sub = .sent) (main : s.main = .idle)
      (locked : s.locked = false) (data : s.data = none) (inStep : s.notified = s.returned)
  /-- It has, and a notification may be in progress. -/
  | held (sub : s.sub = .inLock ∨ s.sub = .blocked)
      (main : s.main = .idle ∨ (∃ d, s.main = .settingData d) ∨ ∃ arg, s.main = .unlocking arg)
      (locked : s.locked = true) (data : s.data = s.main.given) (inStep : s.notified = s.returned)
  | releasing (arg : Option Data) (sub : s.sub = .blocked) (main : s.main = .broadcasting arg)
      (locked : s.locked = false) (data : s.data = arg) (inStep : s.notified = s.returned)
  /-- The notification has returned and the wait has not. -/
  | released (arg : Option Data) (sub : s.sub = .woken ∨ s.sub = .unlocked) (main : s.main = .idle)
      (locked : s.locked = false) (data : s.data = arg) (inStep : s.notified = s.returned ++ [arg])

theorem round_init : Round (init : State Data) :=
  .free (.inl rfl) rfl rfl rfl rfl

/-- A released wait returns in at most two steps, with what is in `WaitThread::data`. -/
theorem returns_data {s : State Data} (sub : s.sub = .woken ∨ s.sub = .unlocked)
    (main : s.main = .idle) (locked : s.locked = false) :
    ∃ t, run (step .exact) s s.sub.toReturn = some t ∧ t.returned = s.returned ++ [s.data] ∧
      t.sub = .running := by
  have mutex : s.mutexHeld = false := by
    refine mutexHeld_eq_false.mpr ⟨?_, fun arg hmain => nomatch main.symm.trans hmain⟩
    rcases sub with hsub | hsub <;> rw [hsub] <;> nofun
  have unlocked : ∀ u : State Data, u.sub = .unlocked → u.locked = false →
      step .exact u .getData =
        some { u with sub := .running, data := none, returned := u.returned ++ [u.data] } := by
    intro u hsub free
    simp [step, subStep, hsub, free, mainStep]
  refine ⟨{ s with sub := .running, data := none, returned := s.returned ++ [s.data] }, ?_,
    rfl, rfl⟩
  rcases sub with hsub | hsub
  · have first : step .exact s .reacquire = some { s with sub := .unlocked } := by
      simp [step, subStep, hsub, mutex, mainStep]
    rw [hsub, SubPc.toReturn, run_cons_of_step first]
    exact run_cons_of_step (unlocked { s with sub := .unlocked } rfl locked) []
  · rw [hsub, SubPc.toReturn]
    exact run_cons_of_step (unlocked s hsub locked) []

theorem Round.paired {s : State Data} (h : Round s) : Paired s := by
  cases h with
  | free sub main locked data inStep =>
      have asleep : ¬ (s.sub = .woken ∨ s.sub = .unlocked) := by
        rcases sub with hsub | hsub | hsub <;> simp [hsub]
      refine ⟨⟨?_, by simp [main]⟩, .inl inStep, fun late => absurd late asleep, ?_, fun _ => data⟩
      · rcases sub with hsub | hsub | hsub <;> simp [hsub]
      · exact fun arg hmain => nomatch main.symm.trans hmain
  | held sub main locked data inStep =>
      have asleep : ¬ (s.sub = .woken ∨ s.sub = .unlocked) := by
        rcases sub with hsub | hsub <;> simp [hsub]
      refine ⟨⟨?_, ?_⟩, .inl inStep, fun late => absurd late asleep, ?_, ?_⟩
      · rcases sub with hsub | hsub <;> simp [hsub]
      · rcases main with hmain | ⟨d, hmain⟩ | ⟨arg, hmain⟩ <;> simp [hmain]
      · rcases main with hmain | ⟨d, hmain⟩ | ⟨arg, hmain⟩ <;> simp [hmain]
      · rcases sub with hsub | hsub <;> simp [hsub]
  | releasing arg sub main locked data inStep =>
      refine ⟨by simp [sub, main], .inl inStep, ?_, fun _ _ => sub, ?_⟩
      · simp [sub]
      · simp [sub]
  | released arg sub main locked data inStep =>
      refine ⟨⟨?_, by simp [main]⟩, .inr ⟨arg, inStep, sub⟩, fun _ => ?_, ?_, ?_⟩
      · rcases sub with hsub | hsub <;> simp [hsub]
      · rw [inStep, ← data]
        exact returns_data sub main locked
      · exact fun arg hmain => nomatch main.symm.trans hmain
      · rcases sub with hsub | hsub <;> simp [hsub]

/-- Every step leads from a phase to the same phase or to the next one. -/
theorem Round.step {s t : State Data} {a : Action Data} (h : Round s)
    (hs : Wait.step .exact s a = some t) : Round t := by
  cases effect_of_step hs with
  | wait hsub =>
      cases h with
      | free sub main locked data inStep =>
          refine .free (.inr (.inl ?_)) main locked data inStep
          simp [locked]
      | held sub | releasing _ sub | released _ sub => simp [hsub] at sub
  | sendEvent hsub =>
      cases h with
      | free sub main locked data inStep => exact .free (.inr (.inr rfl)) main locked data inStep
      | held sub | releasing _ sub | released _ sub => simp [hsub] at sub
  | lock hsub mutex unlocked =>
      cases h with
      | free sub main locked data inStep =>
          refine .held (.inl rfl) (.inl main) rfl ?_ inStep
          simpa [main, MainPc.given] using data
      | held sub | releasing _ sub | released _ sub => simp [hsub] at sub
  | lockTwice hsub mutex twice =>
      cases h with
      | free sub main locked => exact absurd (locked.symm.trans twice) nofun
      | held sub | releasing _ sub | released _ sub => simp [hsub] at sub
  | condWait hsub =>
      cases h with
      | held sub main locked data inStep => exact .held (.inr rfl) main locked data inStep
      | free sub | releasing _ sub | released _ sub => simp [hsub] at sub
  | spurious hsub allowed => cases allowed
  | reacquire hsub mutex =>
      cases h with
      | released arg sub main locked data inStep =>
          exact .released arg (.inr rfl) main locked data inStep
      | free sub | held sub | releasing _ sub => simp [hsub] at sub
  | getData hsub unlocked =>
      cases h with
      | released arg sub main locked data inStep =>
          exact .free (.inl rfl) main locked rfl (inStep.trans (by rw [data]))
      | free sub | held sub | releasing _ sub => simp [hsub] at sub
  | getDataLocked hsub again =>
      cases h with
      | released arg sub main locked => exact absurd (locked.symm.trans again) nofun
      | free sub | held sub | releasing _ sub => simp [hsub] at sub
  | receive n hmain events owed =>
      cases h with
      | free sub main locked data inStep => exact .free sub main locked data inStep
      | held sub main locked data inStep => exact .held sub main locked data inStep
      | releasing arg sub main => exact nomatch hmain.symm.trans main
      | released arg sub main locked data inStep => exact .released arg sub main locked data inStep
  | notifyData d hmain allowed found =>
      cases h with
      | held sub main locked data inStep =>
          refine .held sub (.inr (.inl ⟨d, rfl⟩)) locked ?_ inStep
          simpa [hmain, MainPc.given] using data
      | free _ _ locked | releasing _ _ _ locked | released _ _ _ locked =>
          exact absurd (locked.symm.trans found) nofun
  | notifyNone hmain allowed found =>
      cases h with
      | held sub main locked data inStep =>
          refine .held sub (.inr (.inr ⟨none, rfl⟩)) locked ?_ inStep
          simpa [hmain, MainPc.given] using data
      | free _ _ locked | releasing _ _ _ locked | released _ _ _ locked =>
          exact absurd (locked.symm.trans found) nofun
  | notifyFree arg hmain allowed unlocked =>
      cases h with
      | free sub main locked data inStep => exact .free sub main locked data inStep
      | held sub main locked => exact absurd (unlocked.symm.trans locked) nofun
      | releasing arg sub main => exact nomatch hmain.symm.trans main
      | released arg sub main locked data inStep => exact .released arg sub main locked data inStep
  | setData d hmain found =>
      cases h with
      | held sub main locked data inStep =>
          exact .held sub (.inr (.inr ⟨some d, rfl⟩)) locked rfl inStep
      | free _ main | releasing _ _ main | released _ _ main => exact nomatch hmain.symm.trans main
  | setDataFree d hmain unlocked =>
      cases h with
      | held sub main locked => exact absurd (unlocked.symm.trans locked) nofun
      | free _ main | releasing _ _ main | released _ _ main => exact nomatch hmain.symm.trans main
  | unlock arg hmain mutex found =>
      cases h with
      | held sub main locked data inStep =>
          -- The mutex is free, so the sub thread is past `inLock`.
          have blocked := sub.resolve_left (mutexHeld_eq_false.mp mutex).1
          refine .releasing arg blocked rfl rfl ?_ inStep
          simpa [hmain, MainPc.given] using data
      | free _ main | releasing _ _ main | released _ _ main => exact nomatch hmain.symm.trans main
  | unlockFree arg hmain mutex unlocked =>
      cases h with
      | held sub main locked => exact absurd (unlocked.symm.trans locked) nofun
      | free _ main | releasing _ _ main | released _ _ main => exact nomatch hmain.symm.trans main
  | broadcast arg hmain =>
      cases h with
      | releasing arg' sub main locked data inStep =>
          obtain rfl : arg = arg' := MainPc.broadcasting.inj (hmain.symm.trans main)
          exact .released arg (.inl (if_pos sub)) rfl locked data (by rw [inStep])
      | held sub main => simp [hmain] at main
      | free _ main | released _ _ main => exact nomatch hmain.symm.trans main

/-- **Every notification that returns `true` releases one wait, and this wait returns
its data**; the exceptions of `WaitThread` are not thrown, and a notification that
returns `false` changes nothing but the record of the wait events answered. -/
theorem waits_paired_with_notifications {Data : Type} (as : List (Action Data)) :
    Always (step .exact) Paired init as ∧
      ∀ (s t : State Data) (arg : Option Data), s.locked = false →
        step .exact s (.notify arg) = some t → t = { s with owed := false } := by
  refine ⟨(Always.of_inductive (fun _ _ _ h hs => h.step hs) round_init as).imp
    fun _ h => h.paired, fun s t arg free hs => ?_⟩
  cases effect_of_step hs with
  | notifyFree arg => rfl
  | notifyData d main allowed found => exact absurd (free.symm.trans found) nofun
  | notifyNone main allowed found => exact absurd (free.symm.trans found) nofun

end ThreadJs.Wait
