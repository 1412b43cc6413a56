import ThreadJs.Script.StopLoop
import ThreadJs.Wait.Pairing

/-!
`stop()` before and outside of the event loop.

`do_script` and `thread.wait` run on the sub thread, `j_stop` and `j_notify` on the
main thread; here the machines of the two take their steps together. `j_stop` looks at
`sub_loop` and `uv_loop_alive` only, and does not look at the wait: a call that comes
before the loop has its handle does not keep the script from running, and a thread in
`thread.wait` stays there. `stop()` takes effect where every call finds the loop alive
or the script over, and no wait is under way or begun later; every step outside of these
conditions can end in a thread that is not stopped (`stop_in_time_takes_effect`).
-/

namespace ThreadJs.Script

open Machine

variable {Data : Type}

/-- `do_script` and `j_stop`, with `j_wait` and `j_notify`. -/
structure Joint (Data : Type) where
  thread : State
  wait : Wait.State Data
  /-- A call of `stop()` has returned. -/
  returned : Bool

namespace Joint

def init (node : Bool) : Joint Data := ⟨Script.init node, Wait.init, false⟩

inductive Action (Data : Type) where
  | thread (a : Script.Action)
  | wait (a : Wait.Action Data)

/-- The sub thread is not inside `j_wait`. -/
def subFree (j : Joint Data) : Bool :=
  match j.wait.sub with
  | .running => true
  | _ => false

/-- The main thread is not inside `j_notify`. -/
def mainFree (j : Joint Data) : Bool :=
  match j.wait.main with
  | .idle => true
  | _ => false

/-- A step of `do_script` is taken outside of `j_wait`, and a step of `j_stop` outside
of `j_notify`. -/
def allowsThread (j : Joint Data) : Script.Action → Bool
  | .stop | .wake => j.mainFree
  | _ => j.subFree

/-- `_wait` is called by the code of the user, and the main thread is not inside
`j_stop`. -/
def allowsWait (j : Joint Data) : Wait.Action Data → Bool
  | .wait => j.thread.jsRuns
  | .notify _ => j.thread.stop == .idle && j.thread.idLive
  | .receive => j.thread.stop == .idle
  | _ => true

def step (j : Joint Data) : Action Data → Option (Joint Data)
  | .thread a =>
      if j.allowsThread a then
        (Script.step j.thread a).map fun t =>
          ⟨t, j.wait, j.returned || (a == .stop && j.thread.stop == .wake)⟩
      else none
  | .wait a =>
      if j.allowsWait a then
        (Wait.step .exact j.wait a).map fun w => ⟨j.thread, w, j.returned⟩
      else none

end Joint

/-- Nobody is about to release the thread from `thread.wait`. -/
def Joint.stuck (j : Joint Data) : Prop := j.wait.sub = .blocked ∧ j.wait.main = .idle

/-- After a `stop()` the script is over or asked to terminate, and the thread does not
wait for a notification. -/
structure Stops (j : Joint Data) : Prop where
  script : j.returned = true → j.thread.pc.early = true → j.thread.terminated = true
  wait : j.returned = true → ¬ j.stuck

/-- The thread is in `j_wait` and not released yet. -/
def waiting : Wait.SubPc → Bool
  | .canWait | .sent | .inLock | .blocked => true
  | _ => false

/-- `stop()` is called while no wait is under way, and finds at its test of the loop that
the loop is alive or the script over; no wait is begun after a `stop()`. -/
def InTime (j : Joint Data) : Joint.Action Data → Prop
  | .thread .stop =>
      (j.thread.stop = .idle → waiting j.wait.sub = false) ∧
      (j.thread.stop = .terminate → j.thread.pc.early = true →
        j.thread.terminated = true ∨ (j.thread.subLoop && j.thread.alive) = true)
  | .wait .wait => j.thread.running = true
  | _ => True

structure Tracked (j : Joint Data) : Prop where
  round : Wait.Round j.wait
  stopped : j.returned = true ∨ j.thread.stop ≠ .idle ↔ j.thread.running = false
  notWaiting : j.thread.running = false → waiting j.wait.sub = false
  asked : j.returned = true ∨ j.thread.stop = .wake → j.thread.pc.early = true →
    j.thread.terminated = true

theorem tracked_init (node : Bool) : Tracked (Joint.init node : Joint Data) where
  round := Wait.round_init
  stopped := ⟨by rintro (h | h) <;> [cases h; exact absurd rfl h], nofun⟩
  notWaiting := nofun
  asked := by rintro (h | h) <;> cases h

theorem Tracked.stops {j : Joint Data} (h : Tracked j) : Stops j where
  script := fun back => h.asked (.inl back)
  wait := by
    rintro back ⟨blocked, -⟩
    have free := h.notWaiting (h.stopped.mp (.inl back))
    rw [blocked] at free
    cases free

/-- A wait begins only by a call of `_wait`. -/
theorem waiting_of_step {w v : Wait.State Data} {a : Wait.Action Data} (ha : a ≠ .wait)
    (hs : Wait.step .exact w a = some v) (hv : waiting v.sub = true) : waiting w.sub = true := by
  cases Wait.effect_of_step hs with
  | wait => exact absurd rfl ha
  | sendEvent hsub | lock hsub | condWait hsub => rw [hsub]; rfl
  | broadcast arg hmain =>
      by_cases hsub : w.sub = .blocked
      · rw [hsub]; rfl
      · rwa [if_neg hsub] at hv
  | spurious _ allowed => cases allowed
  | lockTwice | reacquire | getData | getDataLocked => cases hv
  | receive | notifyData | notifyNone | notifyFree | setData | setDataFree | unlock | unlockFree =>
      exact hv

theorem Tracked.stop {s t : State} {w : Wait.State Data} {returned : Bool}
    (h : Tracked ⟨s, w, returned⟩) (hc : InTime ⟨s, w, returned⟩ (.thread .stop))
    (hs : stop s = some t) : Tracked ⟨t, w, returned || s.stop == .wake⟩ := by
  obtain ⟨free, found⟩ := hc
  simp only [Script.stop] at hs
  split at hs
  · next hstop =>
      split at hs <;> cases hs
      refine ⟨h.round, iff_of_true (.inr ?_) rfl, fun _ => free hstop, ?_⟩
      · simp
      · simpa [hstop] using h.asked
  · next hstop =>
      cases hs
      have stopped : s.running = false := h.stopped.mp (.inr (by simp [hstop]))
      refine ⟨h.round, iff_of_true (.inr ?_) stopped, h.notWaiting, fun _ early => ?_⟩
      · simp
      · rcases found hstop early with asked | alive
        · simp only at asked
          simp [asked]
        · simp only at alive
          simp [alive]
  · next hstop =>
      cases hs
      have stopped : s.running = false := h.stopped.mp (.inr (by simp [hstop]))
      refine ⟨h.round, iff_of_true (.inl ?_) stopped, h.notWaiting, fun _ => h.asked (.inr hstop)⟩
      simp [hstop]

theorem Tracked.step {j k : Joint Data} {a : Joint.Action Data} (h : Tracked j) (hc : InTime j a)
    (hs : j.step a = some k) : Tracked k := by
  cases a with
  | thread a =>
      simp only [Joint.step, Option.ite_none_right_eq_some] at hs
      obtain ⟨-, hs⟩ := hs
      obtain ⟨t, ht, rfl⟩ := Option.map_eq_some_iff.mp hs
      by_cases isStop : a = .stop
      · subst isStop
        simpa using h.stop hc ht
      have returned : (j.returned || (a == .stop && j.thread.stop == .wake)) = j.returned := by
        simp [isStop]
      rw [returned]
      by_cases isNext : a = .next
      · subst isNext
        obtain ⟨running, stop, -, -⟩ := next_handshake ht
        obtain ⟨terminated, early⟩ := next_early ht
        refine ⟨h.round, ?_, ?_, ?_⟩
        · rw [running, stop]
          exact h.stopped
        · rw [running]
          exact h.notWaiting
        · rw [stop, terminated]
          exact fun back hpc => h.asked back (early hpc)
      · have same := side_undisturbed ht isNext isStop
        refine ⟨h.round, ?_, ?_, ?_⟩
        · rw [same.running, same.stop]
          exact h.stopped
        · rw [same.running]
          exact h.notWaiting
        · rw [same.stop, same.terminated]
          exact fun back hpc => h.asked back (same.early hpc)
  | wait a =>
      simp only [Joint.step, Option.ite_none_right_eq_some] at hs
      obtain ⟨-, hs⟩ := hs
      obtain ⟨w, hw, rfl⟩ := Option.map_eq_some_iff.mp hs
      refine ⟨h.round.step hw, h.stopped, fun stopped => ?_, h.asked⟩
      have notBegun : a ≠ .wait := by
        rintro rfl
        exact absurd (stopped.symm.trans hc) nofun
      by_contra begun
      have before := waiting_of_step notBegun hw (Bool.not_eq_false _ ▸ begun)
      exact absurd ((h.notWaiting stopped).symm.trans before) nofun

/-! ### Calls that are not in time -/

theorem mainFree_iff {j : Joint Data} : j.mainFree = true ↔ j.wait.main = .idle := by
  unfold Joint.mainFree
  split
  · next idle => exact iff_of_true rfl idle
  · next busy => exact iff_of_false nofun busy

/-- A step of `j_stop` while no notification is in progress. -/
theorem joint_stop {j : Joint Data} {t : State} (idle : j.wait.main = .idle)
    (hs : stop j.thread = some t) :
    j.step (.thread .stop) = some ⟨t, j.wait, j.returned || j.thread.stop == .wake⟩ := by
  simp [Joint.step, Joint.allowsThread, mainFree_iff.mpr idle, Script.step, hs]

theorem stop_terminate {s : State} (hstop : s.stop = .terminate) :
    stop s = some
      { s with terminated := s.terminated || (s.subLoop && s.alive), stop := .wake } := by
  rw [stop, hstop]

/-- The last step of `j_stop`. -/
theorem joint_stop_wake {j : Joint Data} (idle : j.wait.main = .idle)
    (hstop : j.thread.stop = .wake) :
    j.step (.thread .stop) = some ⟨{ j.thread with
      subPending := j.thread.subPending || j.thread.subEvent, stop := .idle }, j.wait, true⟩ := by
  rw [joint_stop idle (by rw [stop, hstop])]
  simp [hstop]

/-- A call of `stop()` that has begun can go on to return at once. -/
theorem stop_returns {j : Joint Data} (idle : j.wait.main = .idle)
    (begun : j.returned = true ∨ j.thread.stop ≠ .idle) :
    ∃ bs k, run Joint.step j bs = some k ∧ k.returned = true ∧ k.wait = j.wait := by
  cases hstop : j.thread.stop with
  | idle => exact ⟨[], j, rfl, begun.resolve_right fun busy => busy hstop, rfl⟩
  | wake =>
      exact ⟨[.thread .stop], _, run_cons_of_step (joint_stop_wake idle hstop) [], rfl, rfl⟩
  | terminate =>
      have first := joint_stop idle (stop_terminate hstop)
      have second := joint_stop_wake (j := ⟨{ j.thread with
        terminated := j.thread.terminated || (j.thread.subLoop && j.thread.alive)
        stop := .wake }, j.wait, j.returned || j.thread.stop == .wake⟩) idle rfl
      exact ⟨[.thread .stop, .thread .stop], _,
        (run_cons_of_step first _).trans (run_cons_of_step second []), rfl, rfl⟩

/-- A wait that nobody answers can go on until the thread is blocked. -/
theorem wait_blocks {j : Joint Data} (round : Wait.Round j.wait) (idle : j.wait.main = .idle)
    (begun : waiting j.wait.sub = true) :
    ∃ bs k, run Joint.step j bs = some k ∧ k.stuck ∧ k.returned = j.returned := by
  have fromLock : ∀ i : Joint Data, i.wait.main = .idle → i.wait.sub = .inLock →
      ∃ k, i.step (.wait .condWait) = some k ∧ k.stuck ∧ k.returned = i.returned := by
    intro i idle inLock
    refine ⟨⟨i.thread, { i.wait with sub := .blocked }, i.returned⟩, ?_, ⟨rfl, idle⟩, rfl⟩
    simp [Joint.step, Joint.allowsWait, Wait.step, Wait.subStep, Wait.mainStep, inLock]
  have fromSent : ∀ i : Joint Data, i.wait.main = .idle → i.wait.locked = false →
      i.wait.sub = .sent →
      ∃ bs k, run Joint.step i bs = some k ∧ k.stuck ∧ k.returned = i.returned := by
    intro i idle unlocked sent
    have mutex : i.wait.mutexHeld = false := by
      refine Wait.mutexHeld_eq_false.mpr ⟨by simp [sent], fun arg busy => ?_⟩
      cases idle.symm.trans busy
    have first : i.step (.wait .lock) =
        some ⟨i.thread, { i.wait with sub := .inLock, locked := true }, i.returned⟩ := by
      simp [Joint.step, Joint.allowsWait, Wait.step, Wait.subStep, sent, mutex, unlocked]
    obtain ⟨k, hk, stuck, same⟩ :=
      fromLock ⟨i.thread, { i.wait with sub := .inLock, locked := true }, i.returned⟩ idle rfl
    exact ⟨[.wait .lock, .wait .condWait], k,
      (run_cons_of_step first _).trans (run_cons_of_step hk []), stuck, same⟩
  have unlocked : j.wait.sub = .canWait ∨ j.wait.sub = .sent → j.wait.locked = false := by
    intro early
    cases round with
    | free _ _ locked => exact locked
    | held sub => rcases early with e | e <;> simp [e] at sub
    | releasing _ _ _ locked => exact locked
    | released _ _ _ locked => exact locked
  cases hsub : j.wait.sub with
  | blocked => exact ⟨[], j, rfl, ⟨hsub, idle⟩, rfl⟩
  | inLock =>
      obtain ⟨k, hk, stuck, same⟩ := fromLock j idle hsub
      exact ⟨[.wait .condWait], k, run_cons_of_step hk [], stuck, same⟩
  | sent => exact fromSent j idle (unlocked (.inr hsub)) hsub
  | canWait =>
      have first : j.step (.wait .sendEvent) = some ⟨j.thread,
          { j.wait with sub := .sent, waitEvents := j.wait.waitEvents + 1 }, j.returned⟩ := by
        simp [Joint.step, Joint.allowsWait, Wait.step, Wait.subStep, hsub]
      obtain ⟨bs, k, hk, stuck, same⟩ := fromSent ⟨j.thread,
        { j.wait with sub := .sent, waitEvents := j.wait.waitEvents + 1 }, j.returned⟩ idle
        (unlocked (.inl hsub)) rfl
      exact ⟨.wait .sendEvent :: bs, k, (run_cons_of_step first bs).trans hk, stuck, same⟩
  | running | woken | unlocked | threw => rw [hsub] at begun; cases begun

/-- A stop that has begun and a wait that is under way end with the thread blocked. -/
theorem unstopped_wait {j : Joint Data} (round : Wait.Round j.wait) (idle : j.wait.main = .idle)
    (stopping : j.returned = true ∨ j.thread.stop ≠ .idle) (begun : waiting j.wait.sub = true) :
    ∃ bs, ¬ Always Joint.step Stops j bs := by
  obtain ⟨bs, k, hk, back, same⟩ := stop_returns idle stopping
  obtain ⟨cs, l, hl, stuck, kept⟩ := wait_blocks (same ▸ round) (same ▸ idle) (same ▸ begun)
  refine ⟨bs ++ cs, fun always => ?_⟩
  have reached : run Joint.step j (bs ++ cs) = some l := by
    rw [run_append, hk, Option.bind_some, hl]
  exact (always.last reached).wait (kept.trans back) stuck

/-- A step outside of the conditions can end in a thread that is not stopped. -/
theorem Tracked.unstopped {j k : Joint Data} {a : Joint.Action Data} (h : Tracked j)
    (hc : ¬ InTime j a) (hs : j.step a = some k) : ∃ bs, ¬ Always Joint.step Stops k bs := by
  cases a with
  | thread a =>
      cases a with
      | stop =>
          simp only [Joint.step, Option.ite_none_right_eq_some] at hs
          obtain ⟨allowed, hs⟩ := hs
          obtain ⟨t, ht, rfl⟩ := Option.map_eq_some_iff.mp hs
          have idle : j.wait.main = .idle := mainFree_iff.mp allowed
          simp only [InTime, not_and_or, Classical.not_imp, not_or] at hc
          rcases hc with ⟨hstop, begun⟩ | ⟨hstop, early, going, dead⟩
          · refine unstopped_wait h.round idle (.inr ?_) (Bool.not_eq_false _ ▸ begun)
            change Script.stop j.thread = some t at ht
            rw [Script.stop, hstop] at ht
            obtain ⟨-, rfl⟩ : j.thread.idLive = true ∧
                { j.thread with running := false, stop := .terminate } = t := by
              simpa using ht
            simp
          · -- The test of the loop has failed, and `j_stop` returns before the script is over.
            obtain rfl := Option.some.inj ((stop_terminate hstop).symm.trans ht)
            refine ⟨[.thread .stop], fun always => ?_⟩
            have returns := joint_stop_wake (j := ⟨{ j.thread with
              terminated := j.thread.terminated || (j.thread.subLoop && j.thread.alive)
              stop := .wake }, j.wait, j.returned || j.thread.stop == .wake⟩) idle rfl
            have asked := (always.last (run_cons_of_step returns [])).script rfl early
            rcases Bool.or_eq_true_iff.mp asked with asked | alive
            · exact going asked
            · exact dead alive
      | _ => exact absurd trivial hc
  | wait a =>
      cases a with
      | wait =>
          have stopped : j.thread.running = false := Bool.eq_false_iff.mpr hc
          have stopping := h.stopped.mpr stopped
          simp only [Joint.step, Option.ite_none_right_eq_some] at hs
          obtain ⟨-, hs⟩ := hs
          obtain ⟨w, hw, rfl⟩ := Option.map_eq_some_iff.mp hs
          have round := h.round.step hw
          cases Wait.effect_of_step hw with
          | wait hsub =>
              have free := h.round
              cases free with
              | free _ idle locked =>
                  refine unstopped_wait round idle stopping ?_
                  simp [locked, waiting]
              | held sub | releasing _ sub | released _ sub => simp [hsub] at sub
      | _ => exact absurd trivial hc

/-- **A stop in time takes effect**: in every run in which every call of `stop()` finds
the loop alive or the script over, and no wait is under way when `stop()` is called or
begun later, the thread is stopped in every state after a call has returned; and where
a run of this kind takes a step that is not of this kind, it can go on to a state in
which the thread is not stopped. -/
theorem stop_in_time_takes_effect {Data : Type} (node : Bool) :
    (∀ as : List (Joint.Action Data), Meets Joint.step InTime (Joint.init node) as →
      Always Joint.step Stops (Joint.init node) as) ∧
    ∀ (as : List (Joint.Action Data)) (j k : Joint Data) (a : Joint.Action Data),
      Meets Joint.step InTime (Joint.init node) as →
      run Joint.step (Joint.init node) as = some j → ¬ InTime j a → j.step a = some k →
      ∃ bs, ¬ Always Joint.step Stops (Joint.init node) (as ++ a :: bs) := by
  have tracked : ∀ as : List (Joint.Action Data), Meets Joint.step InTime (Joint.init node) as →
      Always Joint.step Tracked (Joint.init node) as := fun as inTime =>
    Always.of_invariant (fun _ _ _ h hc hs => h.step hc hs) (tracked_init node) inTime
  refine ⟨fun as inTime => (tracked as inTime).imp fun _ h => h.stops, ?_⟩
  intro as j k a inTime reached late hs
  obtain ⟨bs, unstopped⟩ := ((tracked as inTime).last reached).unstopped late hs
  exact ⟨bs, fun always => unstopped (always.drop reached hs)⟩

/-- `stop()` before the script has its isolate: no request to terminate is made, and the
script is run. -/
theorem stop_before_isolate :
    ¬ Always Joint.step Stops (Joint.init true : Joint Unit)
      [.thread .stop, .thread .stop, .thread .stop] := by
  intro always
  exact absurd ((always.last rfl).script rfl rfl) nofun

end ThreadJs.Script
