import ThreadJs.Script.DoScript

/-!
The life-cycle contract of `do_script`.

All of teardown is in `free_sub_loop`, which the handler `catch(...)` does not call and which a
crash in `SEND_V8_ERR_EVENT` does not reach. So a thread that goes no further has kept the contract
exactly if its set-up did not throw and its code compiled, the script sent no event named 'end' of
its own, and every uncaught exception could be reported (`contract_iff_sets_up`). In between it
does not matter what the script does or when `stop()` is called.
-/

namespace ThreadJs.Script

open Machine

/-- The number of events named 'end' that were queued. -/
def State.ends (s : State) : Nat := (s.mainEvents.map Event.name).count "end"

/-- What the main thread may rely on when the thread has finished. -/
structure Contract (s : State) : Prop where
  once : s.ends = 1
  last : s.mainEvents.getLast? = some .fin
  deleted : s.delSignals = 1
  freed : s.idLive = false

instance (s : State) : Decidable (Contract s) :=
  decidable_of_iff (s.ends = 1 ∧ s.mainEvents.getLast? = some .fin ∧ s.delSignals = 1 ∧
    s.idLive = false) ⟨fun h => ⟨h.1, h.2.1, h.2.2.1, h.2.2.2⟩, fun h => ⟨h.1, h.2, h.3, h.4⟩⟩

/-- No set-up step throws, the code compiles, no event of the script is named 'end', and a timer
callback that does not return has thrown a value with a `stack` that becomes a string. -/
def SetsUp (p : Process) : Action → Prop
  | .fail | .compileError | .js (.uncaught .value) | .js (.uncaught .termination) => False
  | .js (.send name) => p.thread.accepts = true → name ≠ "end"
  | _ => True

instance (p : Process) (a : Action) : Decidable (SetsUp p a) :=
  match a with
  | .fail | .compileError | .js (.uncaught .value) | .js (.uncaught .termination) => isFalse id
  | .js (.send name) => inferInstanceAs (Decidable (p.thread.accepts = true → name ≠ "end"))
  | .next | .load _ | .test _ | .wake | .stop | .js (.uncaught .error) | .js (.listen _)
  | .js .startTimer | .js .stopTimer | .js .pushTick | .js .popTick | .js .ticksDone
  | .js .openHandle | .js .closeHandle => isTrue trivial

/-! ### The stages of teardown -/

def Pc.afterEnd : Pc → Bool
  | .freeId | .freeSubEvent | .signalDel | .drainLoop | .dispose | .finished => true
  | _ => false

def Pc.afterFree : Pc → Bool
  | .freeSubEvent | .signalDel | .drainLoop | .dispose | .finished => true
  | _ => false

def Pc.afterSignal : Pc → Bool
  | .drainLoop | .dispose | .finished => true
  | _ => false

/-- A thread on its way to keep the contract has done the part of teardown that is
behind it. -/
structure OnTrack (s : State) : Prop where
  going : s.pc ≠ .caught
  ends : s.ends = s.pc.afterEnd.toNat
  last : s.pc.afterEnd = true → s.mainEvents.getLast? = some .fin
  idLive : s.idLive = !s.pc.afterFree
  delSignals : s.delSignals = s.pc.afterSignal.toNat
  timepool : s.timepool = true ∨ s.pc = .initTimers → s.node = false

/-- A thread that cannot keep the contract any more: its handler has taken over, or
the script has sent an 'end' of its own. -/
inductive Astray (s : State) : Prop where
  | failed : s.pc = .caught ∨ s.pc = .dispose ∨ s.pc = .finished → s.delSignals = 0 → Astray s
  | surplus : s.pc.setUp = false → s.pc ≠ .caught → s.pc.afterEnd.toNat < s.ends → Astray s

theorem OnTrack.contract {s : State} (h : OnTrack s) (hpc : s.pc = .finished) : Contract s where
  once := by rw [h.ends, hpc]; rfl
  last := h.last (by rw [hpc]; rfl)
  deleted := by rw [h.delSignals, hpc]; rfl
  freed := by rw [h.idLive, hpc]; rfl

theorem Astray.not_contract {s : State} (h : Astray s) (hpc : s.pc = .finished) : ¬ Contract s := by
  intro contract
  cases h with
  | failed _ silent => exact absurd (contract.deleted.symm.trans silent) nofun
  | surplus _ _ more =>
      rw [contract.once, hpc] at more
      exact absurd more (Nat.lt_irrefl 1)

theorem onTrack_init (node : Bool) : OnTrack (init node) where
  going := nofun
  ends := rfl
  last := nofun
  idLive := rfl
  delSignals := rfl
  timepool := by rintro (h | h) <;> cases h

/-! ### Steps -/

/-- Steps that are not a step of `do_script`, a failure or a compile error keep the
stage of the thread. -/
structure Frame (s t : State) : Prop where
  stage : t.pc = s.pc ∨
    (s.pc = .preTest ∨ s.pc = .listenerTest) ∧
      (t.pc = .teardown ∨ t.pc = .loopHead ∨ ∃ answer, t.pc = .tested answer)
  idLive : t.idLive = s.idLive
  delSignals : t.delSignals = s.delSignals
  timepool : t.timepool = s.timepool
  node : t.node = s.node

theorem Frame.setUp {s t : State} (f : Frame s t) : t.pc.setUp = s.pc.setUp := by
  rcases f.stage with e | ⟨e | e, e' | e' | ⟨_, e'⟩⟩ <;> rw [e] <;> (try rw [e']) <;> rfl

theorem Frame.afterEnd {s t : State} (f : Frame s t) : t.pc.afterEnd = s.pc.afterEnd := by
  rcases f.stage with e | ⟨e | e, e' | e' | ⟨_, e'⟩⟩ <;> rw [e] <;> (try rw [e']) <;> rfl

theorem Frame.afterFree {s t : State} (f : Frame s t) : t.pc.afterFree = s.pc.afterFree := by
  rcases f.stage with e | ⟨e | e, e' | e' | ⟨_, e'⟩⟩ <;> rw [e] <;> (try rw [e']) <;> rfl

theorem Frame.afterSignal {s t : State} (f : Frame s t) : t.pc.afterSignal = s.pc.afterSignal := by
  rcases f.stage with e | ⟨e | e, e' | e' | ⟨_, e'⟩⟩ <;> rw [e] <;> (try rw [e']) <;> rfl

/-- Neither of the places named here is entered or left. -/
theorem Frame.pc_eq {s t : State} (f : Frame s t) {pc : Pc}
    (hpc : pc = .caught ∨ pc = .initTimers ∨ pc = .dispose ∨ pc = .finished) :
    t.pc = pc ↔ s.pc = pc := by
  rcases f.stage with e | ⟨e | e, e' | e' | ⟨_, e'⟩⟩
  · rw [e]
  all_goals rw [e, e']; rcases hpc with rfl | rfl | rfl | rfl <;> exact iff_of_false nofun nofun

/-- User code queues events, and one named 'end' only by sending it. -/
theorem js_spec {s t : State} {op : Js} (hs : js s op = some t) :
    Frame s t ∧ t.ends = s.ends + (if s.accepts = true ∧ op = .send "end" then 1 else 0) ∧
      (s.accepts = false → s.timepool = false → t.mainEvents = s.mainEvents) := by
  cases op <;> simp only [js] at hs
  case send name =>
    cases hs
    refine ⟨⟨.inl rfl, rfl, rfl, rfl, rfl⟩, ?_, fun closed _ => by simp [closed]⟩
    cases accepts : s.accepts
    · simp [State.ends]
    · by_cases hname : name = "end" <;> simp [State.ends, Event.name, hname]
  case uncaught thrown =>
    obtain ⟨reported, hs⟩ := Option.ite_none_right_eq_some.mp hs
    cases hs
    refine ⟨⟨.inl rfl, rfl, rfl, rfl, rfl⟩, ?_, fun _ gone => ?_⟩
    · simp [State.ends, Event.name]
    · rw [gone] at reported
      cases reported
  case listen =>
    cases hs
    exact ⟨⟨.inl rfl, rfl, rfl, rfl, rfl⟩, by simp [State.ends], fun _ _ => rfl⟩
  all_goals
    split at hs
    · cases hs
      exact ⟨⟨.inl rfl, rfl, rfl, rfl, rfl⟩, by simp [State.ends], fun _ _ => rfl⟩
    · cases hs

/-- The main thread, the listener tests and `LoadEnvironment` queue nothing. -/
theorem quiet_spec {s t : State} {a : Action} (hs : step s a = some t)
    (ha : (∃ n, a = .load n) ∨ (∃ i, a = .test i) ∨ a = .wake ∨ a = .stop) :
    Frame s t ∧ t.mainEvents = s.mainEvents := by
  rcases ha with ⟨n, rfl⟩ | ⟨i, rfl⟩ | rfl | rfl
  · simp only [step, Option.ite_none_right_eq_some] at hs
    obtain ⟨-, hs⟩ := hs
    cases hs
    exact ⟨⟨.inl rfl, rfl, rfl, rfl, rfl⟩, rfl⟩
  · simp only [step, test] at hs
    split at hs
    · cases hs
    · split at hs
      · next hpc =>
          cases hs
          refine ⟨⟨.inr ⟨.inl hpc, ?_⟩, rfl, rfl, rfl, rfl⟩, rfl⟩
          split
          · exact .inl rfl
          · exact .inr (.inl rfl)
      · next hpc =>
          cases hs
          exact ⟨⟨.inr ⟨.inr hpc, .inr (.inr ⟨_, rfl⟩)⟩, rfl, rfl, rfl, rfl⟩, rfl⟩
      · cases hs
  · simp only [step, Option.ite_none_right_eq_some] at hs
    obtain ⟨-, hs⟩ := hs
    cases hs
    exact ⟨⟨.inl rfl, rfl, rfl, rfl, rfl⟩, rfl⟩
  · simp only [step, stop] at hs
    split at hs
    · split at hs <;> cases hs
      exact ⟨⟨.inl rfl, rfl, rfl, rfl, rfl⟩, rfl⟩
    · cases hs
      exact ⟨⟨.inl rfl, rfl, rfl, rfl, rfl⟩, rfl⟩
    · cases hs
      exact ⟨⟨.inl rfl, rfl, rfl, rfl, rfl⟩, rfl⟩

/-- What one step of `do_script` does to the parts of the contract, by the place
where it is taken. -/
structure NextSpec (s t : State) : Prop where
  node : t.node = s.node
  timepool : t.timepool = true ∨ t.pc = .initTimers →
    s.timepool = true ∨ s.pc = .initTimers ∨ s.node = false
  mainEvents : t.mainEvents = s.mainEvents ++
    match s.pc with
    | .sendEnd => [.fin]
    | .caught => [.failure s.code (failureMessage s.code)]
    | _ => []
  delSignals : t.delSignals = s.delSignals + (decide (s.pc = .signalDel)).toNat
  idLive : t.idLive = (s.idLive && !(decide (s.pc = .freeId) || decide (s.pc = .dispose)))
  going : t.pc ≠ .caught
  setUp : s.pc.setUp = false → t.pc.setUp = false
  afterEnd : t.pc.afterEnd = (s.pc.afterEnd || s.pc = .sendEnd || s.pc = .caught)
  afterFree : t.pc.afterFree = (s.pc.afterFree || s.pc = .freeId || s.pc = .caught)
  afterSignal : t.pc.afterSignal = (s.pc.afterSignal || s.pc = .signalDel || s.pc = .caught)

theorem next_spec {s t : State} (hs : next s = some t) : NextSpec s t := by
  cases hpc : s.pc <;> simp only [next, hpc] at hs
  case createEnvironment | bind | poll | terminatedTest | nowaitEntry =>
    split at hs <;> (try split at hs) <;> cases hs <;> constructor <;>
      simp +contextual [*, Pc.afterEnd, Pc.afterFree, Pc.afterSignal, Pc.setUp]
  -- Here the program counter depends on a flag.
  case loopHead | tested answer | nowait | teardown =>
    cases hs
    constructor <;> simp only [hpc] <;> (try split) <;> (try split) <;>
      simp +contextual [Pc.afterEnd, Pc.afterFree, Pc.afterSignal, Pc.setUp]
  all_goals
    cases hs
    try constructor <;> simp +contextual [hpc, Pc.afterEnd, Pc.afterFree, Pc.afterSignal, Pc.setUp]

theorem NextSpec.ends {s t : State} (n : NextSpec s t) :
    t.ends = s.ends + (decide (s.pc = .sendEnd)).toNat := by
  rw [State.ends, State.ends, n.mainEvents, List.map_append, List.count_append]
  congr 1
  split
  · next hpc => rw [hpc]; rfl
  · next hpc => rw [hpc]; rfl
  · next hpc _ =>
      rw [decide_eq_false hpc]
      rfl

/-! ### Both ways go on -/

theorem OnTrack.of_frame {s t : State} (h : OnTrack s) (f : Frame s t) (ends : t.ends = s.ends)
    (last : s.pc.afterEnd = true → t.mainEvents = s.mainEvents) : OnTrack t where
  going := fun caught => h.going ((f.pc_eq (.inl rfl)).mp caught)
  ends := by rw [ends, f.afterEnd, h.ends]
  last := by
    rw [f.afterEnd]
    intro after
    rw [last after, h.last after]
  idLive := by rw [f.idLive, f.afterFree, h.idLive]
  delSignals := by rw [f.delSignals, f.afterSignal, h.delSignals]
  timepool := by
    rw [f.timepool, f.pc_eq (.inr (.inl rfl)), f.node]
    exact h.timepool

theorem OnTrack.next {s t : State} (h : OnTrack s) (hs : next s = some t) : OnTrack t := by
  have n := next_spec hs
  refine ⟨n.going, ?_, ?_, ?_, ?_, ?_⟩
  · rw [n.ends, n.afterEnd, h.ends]
    by_cases hpc : s.pc = .sendEnd
    · rw [hpc]; rfl
    · simp [hpc, h.going]
  · rw [n.afterEnd]
    intro after
    rw [n.mainEvents]
    by_cases hpc : s.pc = .sendEnd
    · simp [hpc]
    · have before : s.pc.afterEnd = true := by simpa [hpc, h.going] using after
      rw [← h.last before]
      split
      · exact absurd ‹_› hpc
      · exact absurd ‹_› h.going
      · rw [List.append_nil]
  · rw [n.idLive, n.afterFree, h.idLive]
    by_cases hpc : s.pc = .dispose
    · rw [hpc]; rfl
    · simp [hpc, h.going]
  · rw [n.delSignals, n.afterSignal, h.delSignals]
    by_cases hpc : s.pc = .signalDel
    · rw [hpc]; rfl
    · simp [hpc, h.going]
  · intro installed
    rw [n.node]
    rcases n.timepool installed with before | before | plain
    · exact h.timepool (.inl before)
    · exact h.timepool (.inr before)
    · exact plain

/-- After 'end' user code cannot queue anything. -/
theorem OnTrack.js {p : Process} {t : State} {op : Js} (h : OnTrack p.thread)
    (hruns : p.thread.jsRuns = true) (hc : SetsUp p (.js op)) (hs : js p.thread op = some t) :
    OnTrack t := by
  obtain ⟨f, ends, closed⟩ := js_spec hs
  refine h.of_frame f ?_ fun after => ?_
  · have other : ¬ (p.thread.accepts = true ∧ op = .send "end") := by
      rintro ⟨accepts, rfl⟩
      exact hc accepts rfl
    rw [ends, if_neg other, Nat.add_zero]
  · have hpc : p.thread.pc = .drainLoop ∧ p.thread.node = true := by
      simp only [State.jsRuns] at hruns
      split at hruns <;> simp_all [Pc.afterEnd]
    apply closed
    · rw [State.accepts, h.idLive, hpc.1]
      exact Bool.and_false _
    · by_contra installed
      have plain := h.timepool (.inl (Bool.not_eq_false _ ▸ installed))
      exact absurd (hpc.2.symm.trans plain) nofun

theorem OnTrack.step {p : Process} {t : State} {a : Action} (h : OnTrack p.thread)
    (hc : SetsUp p a) (hs : Script.step p.thread a = some t) : OnTrack t := by
  have quiet : (∃ n, a = .load n) ∨ (∃ i, a = .test i) ∨ a = .wake ∨ a = .stop → OnTrack t := by
    intro ha
    obtain ⟨f, same⟩ := quiet_spec hs ha
    exact h.of_frame f (by rw [State.ends, State.ends, same]) fun _ => same
  cases a with
  | next => exact h.next hs
  | fail | compileError => exact hc.elim
  | js op =>
      simp only [Script.step, Option.ite_none_right_eq_some] at hs
      exact h.js hs.1 hc hs.2
  | load n => exact quiet (.inl ⟨n, rfl⟩)
  | test i => exact quiet (.inr (.inl ⟨i, rfl⟩))
  | wake => exact quiet (.inr (.inr (.inl rfl)))
  | stop => exact quiet (.inr (.inr (.inr rfl)))

/-- A step outside `SetsUp` leads astray. -/
theorem OnTrack.astray {p : Process} {t : State} {a : Action} (h : OnTrack p.thread)
    (hc : ¬ SetsUp p a) (hs : Script.step p.thread a = some t) : Astray t := by
  cases a with
  | fail =>
      simp only [Script.step, Option.ite_none_right_eq_some] at hs
      obtain ⟨hpc, hs⟩ := hs
      cases hs
      apply Astray.failed (.inl rfl)
      rw [h.delSignals]
      cases hstage : p.thread.pc <;> rw [hstage] at hpc <;> first | rfl | cases hpc
  | compileError =>
      simp only [Script.step, Option.ite_none_right_eq_some] at hs
      obtain ⟨hpc, hs⟩ := hs
      cases hs
      exact .failed (.inl rfl) (by rw [h.delSignals, hpc]; rfl)
  | js op =>
      cases op with
      | send name =>
          simp only [SetsUp, Classical.not_imp, not_not] at hc
          obtain ⟨accepts, rfl⟩ := hc
          simp only [Script.step, Option.ite_none_right_eq_some] at hs
          obtain ⟨hruns, hs⟩ := hs
          obtain ⟨f, ends, -⟩ := js_spec hs
          apply Astray.surplus
          · rw [f.setUp]
            simp only [State.jsRuns] at hruns
            split at hruns <;> simp_all [Pc.setUp]
          · exact fun caught => h.going ((f.pc_eq (.inl rfl)).mp caught)
          · rw [ends, f.afterEnd, h.ends, if_pos ⟨accepts, rfl⟩]
            exact Nat.lt_succ_self _
      | uncaught thrown =>
          cases thrown with
          | error => exact absurd trivial hc
          | value | termination =>
              simp only [Script.step, Option.ite_none_right_eq_some] at hs
              simp [Script.js] at hs
      | _ => exact absurd trivial hc
  | _ => exact absurd trivial hc

theorem Astray.of_frame {s t : State} (h : Astray s) (f : Frame s t) (ends : s.ends ≤ t.ends) :
    Astray t := by
  cases h with
  | failed hpc silent =>
      refine .failed ?_ (f.delSignals.trans silent)
      rcases hpc with hpc | hpc | hpc
      · exact .inl ((f.pc_eq (.inl rfl)).mpr hpc)
      · exact .inr (.inl ((f.pc_eq (.inr (.inr (.inl rfl)))).mpr hpc))
      · exact .inr (.inr ((f.pc_eq (.inr (.inr (.inr rfl)))).mpr hpc))
  | surplus setUp going more =>
      apply Astray.surplus (f.setUp.trans setUp)
      · exact fun caught => going ((f.pc_eq (.inl rfl)).mp caught)
      · rw [f.afterEnd]
        exact Nat.lt_of_lt_of_le more ends

theorem Astray.next {s t : State} (h : Astray s) (hs : next s = some t) : Astray t := by
  have n := next_spec hs
  cases h with
  | failed hpc silent =>
      rcases hpc with hpc | hpc | hpc <;> simp only [Script.next, hpc] at hs <;> cases hs
      · exact .failed (.inr (.inl rfl)) silent
      · exact .failed (.inr (.inr rfl)) silent
  | surplus setUp going more =>
      apply Astray.surplus (n.setUp setUp) n.going
      rw [n.ends, n.afterEnd]
      by_cases hpc : s.pc = .sendEnd
      · rw [hpc] at more ⊢
        exact Nat.succ_lt_succ more
      · simpa [hpc, going] using more

/-- There is no way back. -/
theorem Astray.step {s t : State} {a : Action} (h : Astray s) (hs : Script.step s a = some t) :
    Astray t := by
  have quiet : (∃ n, a = .load n) ∨ (∃ i, a = .test i) ∨ a = .wake ∨ a = .stop → Astray t := by
    intro ha
    obtain ⟨f, same⟩ := quiet_spec hs ha
    exact h.of_frame f (Nat.le_of_eq (by rw [State.ends, State.ends, same]))
  have not_setUp : s.pc.setUp = false := by
    cases h with
    | failed hpc _ => rcases hpc with hpc | hpc | hpc <;> rw [hpc] <;> rfl
    | surplus setUp _ _ => exact setUp
  cases a with
  | next => exact h.next hs
  | fail =>
      simp only [Script.step, not_setUp] at hs
      cases hs
  | compileError =>
      simp only [Script.step, Option.ite_none_right_eq_some] at hs
      rw [hs.1] at not_setUp
      cases not_setUp
  | js op =>
      simp only [Script.step, Option.ite_none_right_eq_some] at hs
      obtain ⟨f, ends, -⟩ := js_spec hs.2
      exact h.of_frame f (ends ▸ Nat.le_add_right _ _)
  | load n => exact quiet (.inl ⟨n, rfl⟩)
  | test i => exact quiet (.inr (.inl ⟨i, rfl⟩))
  | wake => exact quiet (.inr (.inr (.inl rfl)))
  | stop => exact quiet (.inr (.inr (.inr rfl)))

/-- Until teardown signals it, `del_event` is silent. -/
def Silent (s : State) : Prop := s.pc.afterSignal = false → s.delSignals = 0

theorem Silent.of_frame {s t : State} (h : Silent s) (f : Frame s t) : Silent t := by
  intro before
  rw [f.delSignals]
  exact h (f.afterSignal ▸ before)

theorem Silent.step {s t : State} {a : Action} (h : Silent s) (hs : Script.step s a = some t) :
    Silent t := by
  cases a with
  | next =>
      have n := next_spec hs
      intro before
      rw [n.afterSignal] at before
      simp only [Bool.or_eq_false_iff, decide_eq_false_iff_not] at before
      rw [n.delSignals, h before.1.1, decide_eq_false before.1.2]
      rfl
  | fail =>
      simp only [Script.step, Option.ite_none_right_eq_some] at hs
      obtain ⟨hpc, hs⟩ := hs
      cases hs
      intro _
      apply h
      cases hstage : s.pc <;> rw [hstage] at hpc <;> first | rfl | cases hpc
  | compileError =>
      simp only [Script.step, Option.ite_none_right_eq_some] at hs
      obtain ⟨hpc, hs⟩ := hs
      cases hs
      exact fun _ => h (by rw [hpc]; rfl)
  | js op =>
      simp only [Script.step, Option.ite_none_right_eq_some] at hs
      exact h.of_frame (js_spec hs.2).1
  | load n => exact h.of_frame (quiet_spec hs (.inl ⟨n, rfl⟩)).1
  | test i => exact h.of_frame (quiet_spec hs (.inr (.inl ⟨i, rfl⟩))).1
  | wake => exact h.of_frame (quiet_spec hs (.inr (.inr (.inl rfl)))).1
  | stop => exact h.of_frame (quiet_spec hs (.inr (.inr (.inr rfl)))).1

/-! ### The crash -/

/-- The process goes on and its thread is on its way to keep the contract. -/
structure Keeping (p : Process) : Prop where
  alive : p.crashed = false
  onTrack : OnTrack p.thread

/-- A process that has crashed in a timer callback, or whose thread has gone astray. -/
structure Broken (p : Process) : Prop where
  silent : Silent p.thread
  why : p.crashed = true ∧ p.thread.pc.callsBack = true ∨ p.crashed = false ∧ Astray p.thread

/-- A crash happens in a timer callback, under a condition of its own. -/
theorem crashes_spec {p : Process} {a : Action} (h : crashes p.thread a = true) :
    p.thread.pc.callsBack = true ∧ ¬ SetsUp p a := by
  unfold crashes at h
  split at h
  · exact ⟨(Bool.and_eq_true_iff.mp h).2, id⟩
  · exact ⟨(Bool.and_eq_true_iff.mp (Bool.and_eq_true_iff.mp h).1).2, id⟩
  · cases h

/-- A step of the process is the crash or a step of the thread. -/
theorem process_step_cases {p q : Process} {a : Action} (hs : p.step a = some q) :
    p.crashed = false ∧ (crashes p.thread a = true ∧ q = { p with crashed := true } ∨
      crashes p.thread a = false ∧ q.crashed = false ∧ Script.step p.thread a = some q.thread) := by
  obtain ⟨alive, hs⟩ := Option.ite_none_left_eq_some.mp hs
  refine ⟨Bool.not_eq_true _ ▸ alive, ?_⟩
  split at hs
  · next crash =>
      cases hs
      exact .inl ⟨crash, rfl⟩
  · next going =>
      obtain ⟨t, ht, rfl⟩ := Option.map_eq_some_iff.mp hs
      exact .inr ⟨Bool.not_eq_true _ ▸ going, Bool.not_eq_true _ ▸ alive, ht⟩

theorem afterSignal_of_callsBack {pc : Pc} (h : pc.callsBack = true) : pc.afterSignal = false := by
  cases pc <;> first | rfl | cases h

theorem Keeping.step {p q : Process} {a : Action} (h : Keeping p) (hc : SetsUp p a)
    (hs : p.step a = some q) : Keeping q := by
  obtain ⟨-, ⟨crash, -⟩ | ⟨-, alive, hs⟩⟩ := process_step_cases hs
  · exact absurd hc (crashes_spec crash).2
  · exact ⟨alive, h.onTrack.step hc hs⟩

theorem Keeping.silent {p : Process} (h : Keeping p) : Silent p.thread := by
  intro before
  rw [h.onTrack.delSignals, before]
  rfl

theorem Keeping.broken {p q : Process} {a : Action} (h : Keeping p) (hc : ¬ SetsUp p a)
    (hs : p.step a = some q) : Broken q := by
  obtain ⟨-, ⟨crash, rfl⟩ | ⟨-, alive, hs⟩⟩ := process_step_cases hs
  · exact ⟨h.silent, .inl ⟨rfl, (crashes_spec crash).1⟩⟩
  · exact ⟨h.silent.step hs, .inr ⟨alive, h.onTrack.astray hc hs⟩⟩

theorem Broken.step {p q : Process} {a : Action} (h : Broken p) (hs : p.step a = some q) :
    Broken q := by
  obtain ⟨alive, ⟨crash, rfl⟩ | ⟨-, alive', hs⟩⟩ := process_step_cases hs
  · exact ⟨h.silent, .inl ⟨rfl, (crashes_spec crash).1⟩⟩
  · refine ⟨h.silent.step hs, .inr ⟨alive', ?_⟩⟩
    rcases h.why with ⟨crashed, -⟩ | ⟨-, astray⟩
    · exact absurd (alive.symm.trans crashed) Bool.false_ne_true
    · exact astray.step hs

theorem Broken.not_contract {p : Process} (h : Broken p) (halt : p.halted) :
    ¬ Contract p.thread := by
  rcases h.why with ⟨-, calledBack⟩ | ⟨alive, astray⟩
  · intro contract
    have silent := h.silent (afterSignal_of_callsBack calledBack)
    exact absurd (contract.deleted.symm.trans silent) Nat.one_ne_zero
  · rcases halt with crashed | finished
    · exact absurd (alive.symm.trans crashed) Bool.false_ne_true
    · exact astray.not_contract finished

end ThreadJs.Script
