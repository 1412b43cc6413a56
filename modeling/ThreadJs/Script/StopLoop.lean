import ThreadJs.Script.LifeCycle

/-!
`stop()` and the event loop.

`j_stop` resets `running` before it signals `sub_event`, and the loop tests `running`
before it enters `uv_run(UV_RUN_ONCE)`. So once a call of `stop()` has returned, the
thread is at that place only with a wake-up pending (`no_stop_lost`), whatever
messages, timers and further calls have signalled or consumed in between.
-/

namespace ThreadJs.Script

open Machine

/-- A thread, and what the main thread knows of its calls of `stop()`. -/
structure Watched where
  thread : State
  /-- A call has returned. -/
  returned : Bool

def Watched.init (node : Bool) : Watched := ⟨Script.init node, false⟩

def Watched.step (w : Watched) (a : Action) : Option Watched :=
  (Script.step w.thread a).map fun t =>
    ⟨t, w.returned || (a == .stop && w.thread.stop == .wake)⟩

/-- `sub_event` is published, and the thread has not left the event loop. -/
def Pc.bound : Pc → Bool
  | .initTimers | .script | .preTest | .loopHead | .poll | .once | .terminatedTest | .microtasks
  | .listenerTest | .tested _ | .beforeExit | .nowaitEntry | .nowait => true
  | _ => false

/-- The user script is still to be run, or running. -/
def Pc.early (pc : Pc) : Bool := pc.setUp || pc = .script

/-- The thread does not sleep through a `stop()`. -/
structure StopSeen (w : Watched) : Prop where
  woken : w.returned = true → w.thread.pc = .poll → w.thread.subPending = true
  /-- Where `stop()` answers that the thread is closed, the loop is over. -/
  refused : w.thread.idLive = false → w.thread.pc ≠ .poll

/-! ### The variables of the handshake -/

/-- Only `stop()` changes `running` and `terminated`, and only the loop takes a wake-up
away. -/
structure Undisturbed (s t : State) : Prop where
  running : t.running = s.running
  terminated : t.terminated = s.terminated
  stop : t.stop = s.stop
  subEvent : t.subEvent = s.subEvent
  subPending : s.subPending = true → t.subPending = true
  idLive : t.idLive = s.idLive
  poll : t.pc = .poll → s.pc = .poll
  bound : t.pc.bound = true → s.pc.bound = true
  afterFree : t.pc.afterFree = false → s.pc.afterFree = false
  early : t.pc.early = true → s.pc.early = true

theorem Undisturbed.of_pc {s t : State} (running : t.running = s.running)
    (terminated : t.terminated = s.terminated) (stop : t.stop = s.stop)
    (subEvent : t.subEvent = s.subEvent) (subPending : s.subPending = true → t.subPending = true)
    (idLive : t.idLive = s.idLive) (pc : t.pc = s.pc) : Undisturbed s t :=
  ⟨running, terminated, stop, subEvent, subPending, idLive, (pc ▸ ·), (pc ▸ ·), (pc ▸ ·), (pc ▸ ·)⟩

theorem js_undisturbed {s t : State} {op : Js} (hs : js s op = some t) : Undisturbed s t := by
  cases op <;> simp only [js] at hs
  case send | listen => cases hs; exact .of_pc rfl rfl rfl rfl id rfl rfl
  all_goals
    split at hs
    · cases hs; exact .of_pc rfl rfl rfl rfl id rfl rfl
    · cases hs

theorem side_undisturbed {s t : State} {a : Action} (hs : step s a = some t)
    (notNext : a ≠ .next) (notStop : a ≠ .stop) : Undisturbed s t := by
  cases a with
  | next => exact absurd rfl notNext
  | stop => exact absurd rfl notStop
  | js op =>
      simp only [step, Option.ite_none_right_eq_some] at hs
      exact js_undisturbed hs.2
  | test interrupted =>
      simp only [step, test] at hs
      split at hs
      · cases hs
      · split at hs
        · next hpc =>
            cases hs
            refine ⟨rfl, rfl, rfl, rfl, id, rfl, fun poll => ?_, fun _ => by rw [hpc]; rfl,
              fun _ => by rw [hpc]; rfl, fun early => ?_⟩
            · split at poll <;> cases poll
            · split at early <;> cases early
        · next hpc =>
            cases hs
            refine ⟨rfl, rfl, rfl, rfl, id, rfl, fun poll => ?_, fun _ => by rw [hpc]; rfl,
              fun _ => by rw [hpc]; rfl, fun early => ?_⟩
            · cases poll
            · cases early
        · cases hs
  | fail =>
      simp only [step, Option.ite_none_right_eq_some] at hs
      obtain ⟨setUp, hs⟩ := hs
      cases hs
      refine ⟨rfl, rfl, rfl, rfl, id, rfl, fun poll => ?_, fun bound => ?_, fun _ => ?_,
        fun early => ?_⟩
      · cases poll
      · cases bound
      · cases hpc : s.pc <;> rw [hpc] at setUp <;> first | rfl | cases setUp
      · cases early
  | compileError =>
      simp only [step, Option.ite_none_right_eq_some] at hs
      obtain ⟨compile, hs⟩ := hs
      cases hs
      refine ⟨rfl, rfl, rfl, rfl, id, rfl, fun poll => ?_, fun bound => ?_,
        fun _ => by rw [compile]; rfl, fun early => ?_⟩
      · cases poll
      · cases bound
      · cases early
  | load handles =>
      simp only [step, Option.ite_none_right_eq_some] at hs
      obtain ⟨-, hs⟩ := hs
      cases hs
      exact .of_pc rfl rfl rfl rfl id rfl rfl
  | wake =>
      simp only [step, Option.ite_none_right_eq_some] at hs
      obtain ⟨-, hs⟩ := hs
      cases hs
      exact .of_pc rfl rfl rfl rfl (fun _ => rfl) rfl rfl

/-- `do_script` enters `uv_run(UV_RUN_ONCE)` only when it has found `running` set, and
is in the loop only after it has published `sub_event`. -/
theorem next_handshake {s t : State} (hs : next s = some t) :
    t.running = s.running ∧ t.stop = s.stop ∧ (t.pc = .poll → s.running = true) ∧
      (t.pc.bound = true → t.subEvent = true ∨ s.pc.bound = true ∧ t.subEvent = s.subEvent) := by
  cases hpc : s.pc <;> simp only [next, hpc] at hs
  case createEnvironment | bind | poll | terminatedTest | nowaitEntry =>
    split at hs <;> (try split at hs) <;> cases hs <;> simp [Pc.bound]
  case loopHead =>
    cases hs
    cases running : s.running <;> simp [Pc.bound]
  case tested answer =>
    cases hs
    refine ⟨rfl, rfl, fun poll => ?_, fun _ => .inr ⟨rfl, rfl⟩⟩
    cases answer <;> cases node : s.node <;> simp [node] at poll
  case nowait | teardown =>
    cases hs
    dsimp only
    split <;> simp [Pc.bound]
  all_goals
    cases hs
    try simp [Pc.bound]

/-- The script is run once. -/
theorem next_early {s t : State} (hs : next s = some t) :
    t.terminated = s.terminated ∧ (t.pc.early = true → s.pc.early = true) := by
  cases hpc : s.pc <;> simp only [next, hpc] at hs
  case createEnvironment | bind | poll | terminatedTest | nowaitEntry =>
    split at hs <;> (try split at hs) <;> cases hs <;> simp [Pc.early, Pc.setUp]
  case loopHead | nowait | teardown =>
    cases hs
    dsimp only
    split <;> simp [Pc.early, Pc.setUp]
  case tested answer =>
    cases hs
    cases answer <;> cases s.node <;> simp [Pc.early, Pc.setUp]
  all_goals
    cases hs
    try simp [Pc.early, Pc.setUp]

/-! ### The invariant -/

structure Handshake (w : Watched) : Prop where
  stopped : w.returned = true ∨ w.thread.stop ≠ .idle → w.thread.running = false
  woken : w.returned = true → w.thread.pc = .poll → w.thread.subPending = true
  published : w.thread.pc.bound = true → w.thread.subEvent = true
  live : w.thread.pc.afterFree = false → w.thread.idLive = true

theorem handshake_init (node : Bool) : Handshake (Watched.init node) where
  stopped := by rintro (h | h) <;> [cases h; exact absurd rfl h]
  woken := nofun
  published := nofun
  live := fun _ => rfl

theorem Handshake.stopSeen {w : Watched} (h : Handshake w) : StopSeen w where
  woken := h.woken
  refused := by
    intro freed hpc
    have live := h.live (by rw [hpc]; rfl)
    exact absurd (live.symm.trans freed) nofun

theorem Handshake.next {s t : State} {returned : Bool} (h : Handshake ⟨s, returned⟩)
    (hs : next s = some t) : Handshake ⟨t, returned⟩ := by
  obtain ⟨running, stop, enters, bound⟩ := next_handshake hs
  have spec := next_spec hs
  refine ⟨?_, ?_, ?_, ?_⟩
  · intro stopped
    rw [running]
    exact h.stopped (by rwa [← stop])
  · intro back hpc
    have going := enters hpc
    exact absurd (going.symm.trans (h.stopped (.inl back))) nofun
  · intro hbound
    rcases bound hbound with published | ⟨before, same⟩
    · exact published
    · exact same.trans (h.published before)
  · intro early
    have afterFree := spec.afterFree
    rw [early] at afterFree
    simp only [Bool.false_eq, Bool.or_eq_false_iff, decide_eq_false_iff_not] at afterFree
    obtain ⟨⟨before, notFree⟩, -⟩ := afterFree
    have notDispose : s.pc ≠ .dispose := fun hpc => by rw [hpc] at before; cases before
    rw [spec.idLive, h.live before, decide_eq_false notFree, decide_eq_false notDispose]
    rfl

theorem Handshake.stop {s t : State} {returned : Bool} (h : Handshake ⟨s, returned⟩)
    (hs : stop s = some t) : Handshake ⟨t, returned || s.stop == .wake⟩ := by
  simp only [Script.stop] at hs
  split at hs
  · next hstop =>
      split at hs <;> cases hs
      refine ⟨fun _ => rfl, ?_, h.published, h.live⟩
      simpa [hstop] using h.woken
  · next hstop =>
      cases hs
      have stopped := h.stopped (.inr (by simp [hstop]))
      refine ⟨fun _ => stopped, ?_, h.published, h.live⟩
      simpa [hstop] using h.woken
  · next hstop =>
      cases hs
      have stopped := h.stopped (.inr (by simp [hstop]))
      refine ⟨fun _ => stopped, fun _ hpc => ?_, h.published, h.live⟩
      have published : s.subEvent = true := h.published (by rw [hpc]; rfl)
      simp [published]

theorem Handshake.step {w v : Watched} {a : Action} (h : Handshake w)
    (hs : Watched.step w a = some v) : Handshake v := by
  obtain ⟨t, ht, rfl⟩ := Option.map_eq_some_iff.mp hs
  by_cases isStop : a = .stop
  · subst isStop
    simpa using h.stop ht
  have returned : (w.returned || (a == .stop && w.thread.stop == .wake)) = w.returned := by
    simp [isStop]
  rw [returned]
  by_cases isNext : a = .next
  · subst isNext
    exact h.next ht
  have same := side_undisturbed ht isNext isStop
  refine ⟨?_, ?_, ?_, ?_⟩
  · intro stopped
    rw [same.running]
    exact h.stopped (by rwa [← same.stop])
  · exact fun back hpc => same.subPending (h.woken back (same.poll hpc))
  · exact fun bound => same.subEvent.trans (h.published (same.bound bound))
  · exact fun early => same.idLive.trans (h.live (same.afterFree early))

/-- **No stop is lost in the event loop**: in every run, once a call of `stop()` has
returned, the thread is in `uv_run(UV_RUN_ONCE)` or about to enter it only with a
wake-up pending on `sub_event`. -/
theorem no_stop_lost (node : Bool) (as : List Action) :
    Always Watched.step StopSeen (Watched.init node) as :=
  (Always.of_inductive (fun _ _ _ h hs => h.step hs) (handshake_init node) as).imp
    fun _ h => h.stopSeen

end ThreadJs.Script
