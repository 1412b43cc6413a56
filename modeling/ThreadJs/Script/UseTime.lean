import ThreadJs.Script.DoScript

/-!
`use_time()`: the time a thread has spent in its script and in the turns of its loop.

A `TimeHandle` around the script and around each turn sets `begin_time` and `end_time` on
the sub thread; `j_use_time` reads them, or the clock of `sub_loop`, on the main thread. Neither
takes a lock, so every read of a call and every write of a `TimeHandle` is a step of its own.

* `use_time_safe` — which steps may not fall into a call, and that each of them can end in a call
  that goes wrong.
-/

namespace ThreadJs.Script

open Machine

/-! ### Where a `TimeHandle` exists -/

inductive Stage where
  /-- Before `uv_loop_init` is done. -/
  | early
  /-- The rest of the set-up. -/
  | late
  /-- There is a `TimeHandle`. -/
  | timed
  /-- Between the script and the turns of the loop. -/
  | pause
  | closing
  /-- After a failure, and at the end. -/
  | ended
  deriving DecidableEq

def Pc.stage : Pc → Stage
  | .newIsolate | .isolate | .compile | .initLoop => .early
  | .createEnvironment | .loadEnvironment | .bind | .initTimers => .late
  | .script | .poll | .once | .terminatedTest | .microtasks | .listenerTest | .tested _
  | .beforeExit | .nowaitEntry | .nowait => .timed
  | .preTest | .loopHead => .pause
  | .teardown | .emitExit | .uninstall | .sendEnd | .freeId | .freeSubEvent | .signalDel
  | .drainLoop => .closing
  | .caught | .dispose | .finished => .ended

/-! ### The times -/

/-- What came of a call of `usedTime`. -/
inductive Use where
  /-- It used a `sub_loop` that is `NULL`. -/
  | nullLoop
  /-- It read what had been deleted. -/
  | deleted
  | difference (later earlier : UInt64)

/-- What the call returns to JavaScript. -/
def Use.used : Use → Option UInt32
  | .nullLoop | .deleted => none
  | .difference later earlier => some (later - earlier).toUInt32

/-- The sub thread in the constructor or the destructor of a `TimeHandle`. -/
inductive Handle where
  | settled
  /-- The constructor has read the clock. -/
  | begins (now : UInt64)
  /-- It has written `begin_time`, but not `end_time`. -/
  | clears
  /-- The destructor has read the clock. -/
  | ends (now : UInt64)
  deriving DecidableEq

/-- The main thread in `usedTime`. -/
inductive Call where
  | none
  /-- `notfree` was true. -/
  | entered
  /-- `end_time > 0` was true. -/
  | ended
  /-- `end_time > 0` was false. -/
  | running
  /-- `uv_update_time` has returned. -/
  | updated
  /-- The minuend has been read, `begin_time` has not. -/
  | later (value : UInt64)
  /-- `begin_time` has been read, `end_time` has not. -/
  | earlier (value : UInt64)
  deriving DecidableEq

structure Timed where
  thread : State
  /-- `uv_now(sub_loop)`; before `uv_loop_init`, what it will be then. -/
  loopTime : UInt64
  beginTime : UInt64
  endTime : UInt64
  handle : Handle
  call : Call
  uses : List Use

namespace Timed

def init (node : Bool) : Timed := ⟨Script.init node, 0, 0, 0, .settled, .none, []⟩

/-- The accesses of `usedTime`. In `end_time - begin_time` either may come first. -/
inductive Read where
  /-- `end_time > 0`. The compiler may keep the value for the subtraction. -/
  | test (keep : Bool)
  /-- `uv_update_time(sub_loop)`, with what it takes from the clock of the system. -/
  | update (clock : UInt64)
  /-- `uv_now(sub_loop)` -/
  | now
  | endTime
  | beginTime

inductive Action where
  | thread (a : Script.Action)
  /-- The next write of the constructor or the destructor of a `TimeHandle`. -/
  | write
  /-- `uv_update_time` on the sub thread. -/
  | advance (clock : UInt64)
  /-- `j_use_time` is called and tests the id. -/
  | useTime
  /-- The next access of the call. -/
  | read (r : Read)

/-- A step of the main thread. -/
def ofMain : Script.Action → Bool
  | .wake | .stop => true
  | _ => false

/-- The sub thread is not about to write, or the main thread not in `usedTime`. -/
def mayTake (w : Timed) (a : Script.Action) : Bool :=
  if ofMain a then decide (w.call = .none) else decide (w.handle = .settled)

/-- Making and destroying a `TimeHandle`. -/
def follow (w : Timed) (t : State) : Timed :=
  if w.thread.pc.stage ≠ .timed ∧ t.pc.stage = .timed then
    { w with thread := t, handle := .begins w.loopTime }
  else if w.thread.pc.stage = .timed ∧ t.pc.stage ≠ .timed then
    { w with thread := t, handle := .ends w.loopTime }
  else { w with thread := t }

def write (w : Timed) : Option Timed :=
  match w.handle with
  | .settled => none
  | .begins now => some { w with beginTime := now, handle := .clears }
  | .clears => some { w with endTime := 0, handle := .settled }
  | .ends now => some { w with endTime := now, handle := .settled }

/-- `ReqData` is deleted at the end of `do_script`. -/
def deleted (w : Timed) : Bool := decide (w.thread.pc = .finished)

/-- `DEL_LOOP` is done with the loop. A thread that has failed does not come there. -/
def loopDeleted (w : Timed) : Bool :=
  w.deleted || decide (w.thread.pc = .dispose) && !w.thread.idLive

def returns (w : Timed) (use : Use) : Timed := { w with call := .none, uses := w.uses ++ [use] }

def usedTime (w : Timed) (r : Read) : Option Timed :=
  match w.call, r with
  | .entered, .test keep =>
      if w.deleted then some (w.returns .deleted)
      else if 0 < w.endTime then
        some { w with call := if keep then .later w.endTime else .ended }
      else some { w with call := .running }
  | .running, .update clock =>
      if w.loopDeleted then some (w.returns .deleted)
      else if !w.thread.subLoop then some (w.returns .nullLoop)
      else if w.loopTime ≤ clock then some { w with loopTime := clock, call := .updated }
      else none
  | .updated, .now =>
      if w.loopDeleted then some (w.returns .deleted)
      else some { w with call := .later w.loopTime }
  | .ended, .endTime =>
      if w.deleted then some (w.returns .deleted) else some { w with call := .later w.endTime }
  | .ended, .beginTime =>
      if w.deleted then some (w.returns .deleted) else some { w with call := .earlier w.beginTime }
  | .later value, .beginTime =>
      some (w.returns (if w.deleted then .deleted else .difference value w.beginTime))
  | .earlier value, .endTime =>
      some (w.returns (if w.deleted then .deleted else .difference w.endTime value))
  | _, _ => none

/-- The clock does not go back. Nothing on the sub thread updates it between two `TimeHandle`s or
in the constructor of one. -/
def step (w : Timed) : Action → Option Timed
  | .thread a => if w.mayTake a then (Script.step w.thread a).map w.follow else none
  | .write => w.write
  | .advance clock =>
      if w.thread.pc.stage ≠ .pause ∧ w.handle = .settled ∧ w.loopTime ≤ clock then
        some { w with loopTime := clock }
      else none
  | .useTime =>
      if w.thread.stop ≠ .idle ∨ w.call ≠ .none then none
      else some { w with call := if w.thread.idLive then .entered else .none }
  | .read r => w.usedTime r

end Timed

def Use.Safe : Use → Prop
  | .nullLoop | .deleted => False
  | .difference later earlier => earlier ≤ later

def SafeUses (w : Timed) : Prop := ∀ use ∈ w.uses, use.Safe

/-- The next write of a `TimeHandle` leaves the times that a call has yet to read in order. -/
structure WritesInOrder (w : Timed) : Prop where
  beginsEnded : ∀ now, w.handle = .begins now → w.call = .ended → now ≤ w.endTime
  beginsLater : ∀ now value, w.handle = .begins now → w.call = .later value → now ≤ value
  clearsEnded : w.handle = .clears → w.call = .ended → w.beginTime = 0
  clearsEarlier : ∀ value, w.handle = .clears → w.call = .earlier value → value = 0

/-- A call comes to the clock only after the thread has got past `RUN_STEP(3)`, where it makes its
loop, and is over before what it reads is deleted; and the two writes of the constructor of a
`TimeHandle` do not come between its test and its reads, nor the test between the two writes, with
times that are out of order. -/
def InOrder (w : Timed) : Timed.Action → Prop
  | .read (.test _) =>
      w.deleted = false ∧ (w.handle = .clears → w.endTime = 0 ∨ w.beginTime ≤ w.endTime)
  | .read (.update _) => w.loopDeleted = false ∧ 3 < w.thread.code
  | .read .now => w.loopDeleted = false
  | .read .endTime | .read .beginTime => w.deleted = false
  | .write => WritesInOrder w
  | .thread _ | .advance _ | .useTime => True

/-- Without underflow, the result is the difference modulo `2^32`. -/
theorem Use.Safe.used {later earlier : UInt64} (h : (Use.difference later earlier).Safe) :
    (Use.difference later earlier).used =
      some (UInt32.ofNat (later.toNat - earlier.toNat)) := by
  rw [Use.used, ← UInt64.toNat_sub_of_le _ _ h, UInt32.ofNat_uInt64ToNat]

/-! ### The order of the places -/

def Stage.rank : Stage → Nat
  | .early => 0
  | .late => 1
  | .timed | .pause => 2
  | .closing => 3
  | .ended => 4

/-- What a step does to the place of the thread, to its number and to its loop. -/
inductive Moves (s t : State) : Prop where
  | stays : t.pc.stage = s.pc.stage → t.code = s.code → t.subLoop = s.subLoop → Moves s t
  | early : s.pc.stage = .early → t.pc.stage = .early → t.code ≤ 3 → t.subLoop = s.subLoop →
      Moves s t
  | made : s.pc.stage = .early → t.pc.stage = .late → 3 < t.code → t.subLoop = true → Moves s t
  | onwards : 0 < s.pc.stage.rank → s.pc.stage.rank ≤ t.pc.stage.rank → t.pc.stage.rank < 4 →
      3 < t.code ∨ t.code = s.code → t.subLoop = s.subLoop → Moves s t
  | ended : s.pc.stage ≠ .timed → t.pc.stage = .ended → t.code = s.code → t.subLoop = s.subLoop →
      Moves s t

theorem next_moves {s t : State} (hs : next s = some t) : Moves s t := by
  cases hpc : s.pc <;> simp only [next, hpc] at hs
  case newIsolate | isolate | compile =>
    cases hs
    exact .early (by rw [hpc]; rfl) rfl (by simp) rfl
  case initLoop =>
    cases hs
    exact .made (by rw [hpc]; rfl) rfl (by simp) rfl
  case preTest | listenerTest | finished => cases hs
  case drainLoop =>
    cases hs
    exact .ended (by simp [hpc, Pc.stage]) rfl rfl rfl
  case caught | dispose =>
    cases hs
    exact .stays (by rw [hpc]; rfl) rfl rfl
  case createEnvironment | bind | poll | terminatedTest | nowaitEntry =>
    split at hs <;> (try split at hs) <;> cases hs <;>
      exact .onwards (by simp [hpc, Pc.stage, Stage.rank]) (by simp [hpc, Pc.stage, Stage.rank])
        (by simp [Pc.stage, Stage.rank]) (by simp) rfl
  -- Here the program counter depends on a flag.
  case loopHead | tested answer | nowait | teardown =>
    cases hs
    refine .onwards (by simp [hpc, Pc.stage, Stage.rank]) ?_ ?_ (by simp) rfl
    all_goals
      dsimp only
      repeat' split
      all_goals simp [hpc, Pc.stage, Stage.rank]
  all_goals
    cases hs
    exact .onwards (by simp [hpc, Pc.stage, Stage.rank]) (by simp [hpc, Pc.stage, Stage.rank])
      (by simp [Pc.stage, Stage.rank]) (by simp) rfl

/-- A step that is not one of `do_script` itself. -/
theorem js_moves {s t : State} {op : Js} (hs : js s op = some t) : Moves s t := by
  cases op <;> simp only [js] at hs
  case send | listen => cases hs; exact .stays rfl rfl rfl
  all_goals
    split at hs
    · cases hs; exact .stays rfl rfl rfl
    · cases hs

theorem stop_moves {s t : State} (hs : stop s = some t) : Moves s t := by
  simp only [stop] at hs
  split at hs
  · split at hs
    · cases hs
      exact .stays rfl rfl rfl
    · cases hs
  all_goals
    cases hs
    exact .stays rfl rfl rfl

theorem test_moves {s t : State} {interrupted : Bool} (hs : test s interrupted = some t) :
    Moves s t := by
  simp only [test] at hs
  split at hs
  · cases hs
  · split at hs
    · next hpc =>
        cases hs
        refine .onwards (by simp [hpc, Pc.stage, Stage.rank]) ?_ ?_ (.inr rfl) rfl
        all_goals
          dsimp only
          split <;> simp [hpc, Pc.stage, Stage.rank]
    · next hpc =>
        cases hs
        exact .stays (by rw [hpc]; rfl) rfl rfl
    · cases hs

theorem setUp_stage {pc : Pc} (h : pc.setUp = true) : pc.stage = .early ∨ pc.stage = .late := by
  cases pc <;> simp_all [Pc.setUp, Pc.stage]

theorem step_moves {s t : State} {a : Action} (hs : step s a = some t) : Moves s t := by
  cases a with
  | next => exact next_moves hs
  | fail =>
      simp only [step, Option.ite_none_right_eq_some] at hs
      obtain ⟨setUp, hs⟩ := hs
      cases hs
      refine .ended ?_ rfl rfl rfl
      rcases setUp_stage setUp with stage | stage
      all_goals simp [stage]
  | compileError =>
      simp only [step, Option.ite_none_right_eq_some] at hs
      obtain ⟨hpc, hs⟩ := hs
      cases hs
      exact .ended (by simp [hpc, Pc.stage]) rfl rfl rfl
  | load handles =>
      simp only [step, Option.ite_none_right_eq_some] at hs
      obtain ⟨-, hs⟩ := hs
      cases hs
      exact .stays rfl rfl rfl
  | test interrupted => exact test_moves hs
  | js op =>
      simp only [step, Option.ite_none_right_eq_some] at hs
      exact js_moves hs.2
  | wake =>
      simp only [step, Option.ite_none_right_eq_some] at hs
      obtain ⟨-, hs⟩ := hs
      cases hs
      exact .stays rfl rfl rfl
  | stop => exact stop_moves hs

/-! ### The loop is made once -/

/-- The number of the last `RUN_STEP` tells whether the loop has been made. -/
structure Made (s : State) : Prop where
  loop : s.subLoop = true ↔ 3 < s.code
  early : s.pc.stage = .early → s.code ≤ 3
  later : s.pc.stage ≠ .early → s.pc.stage ≠ .ended → 3 < s.code

theorem made_init (node : Bool) : Made (init node) where
  loop := by simp [init]
  early := fun _ => Nat.zero_le 3
  later := fun notEarly => absurd rfl notEarly

variable {s t : State}

/-- Past the set-up of the loop and before the end. -/
theorem Made.later_of_rank (h : Made s) (lower : 0 < s.pc.stage.rank)
    (upper : s.pc.stage.rank < 4) : 3 < s.code := by
  apply h.later
  · intro stage
    rw [stage] at lower
    exact absurd lower (Nat.lt_irrefl 0)
  · intro stage
    rw [stage] at upper
    exact absurd upper (Nat.lt_irrefl 4)

theorem Made.of_moves (h : Made s) (moves : Moves s t) : Made t := by
  cases moves with
  | stays stage code loop =>
      constructor
      · rw [code, loop]; exact h.loop
      · rw [stage, code]; exact h.early
      · rw [stage, code]; exact h.later
  | early stage stage' code loop =>
      have small := h.early stage
      have unmade := h.loop
      constructor
      · rw [loop, unmade]; omega
      · exact fun _ => code
      · exact fun notEarly => absurd stage' notEarly
  | made stage stage' code loop =>
      constructor
      · exact iff_of_true loop code
      · rw [stage']; exact nofun
      · exact fun _ _ => code
  | onwards lower le upper code loop =>
      have large := h.later_of_rank lower (Nat.lt_of_le_of_lt le upper)
      have large' : 3 < t.code := by
        rcases code with large' | same
        · exact large'
        · exact same ▸ large
      constructor
      · rw [loop, h.loop]; exact iff_of_true large large'
      · intro stage
        rw [stage] at le
        exact absurd (Nat.lt_of_lt_of_le lower le) (Nat.lt_irrefl 0)
      · exact fun _ _ => large'
  | ended _ stage code loop =>
      constructor
      · rw [code, loop]; exact h.loop
      · rw [stage]; exact nofun
      · exact fun _ notOver => absurd stage notOver

theorem Made.unmade_of_moves (h : Made s) (moves : Moves s t) (small : t.code ≤ 3) :
    s.code ≤ 3 := by
  cases moves with
  | stays _ code _ | ended _ _ code _ => exact code ▸ small
  | early stage _ _ _ => exact h.early stage
  | made _ _ code _ => omega
  | onwards _ _ _ code _ =>
      rcases code with large | same
      · omega
      · exact same ▸ small

/-! ### The order of the times -/

/-- What the sub thread is about to write. -/
def HandleTimes (w : Timed) : Prop :=
  match w.handle with
  | .settled => True
  | .begins now => w.thread.pc.stage = .timed ∧ now ≤ w.loopTime
  | .clears => w.thread.pc.stage = .timed
  | .ends now => w.beginTime ≤ now ∧ now ≤ w.loopTime ∧ 3 < w.thread.code

/-- What the main thread has read. -/
def CallTimes (w : Timed) : Prop :=
  match w.call with
  | .none | .entered | .running | .updated => True
  | .ended => w.beginTime ≤ w.endTime
  | .later value => w.beginTime ≤ value
  | .earlier value =>
      value ≤ w.endTime ∧ value ≤ w.loopTime ∧ ∀ now, w.handle = .ends now → value ≤ now

structure Times (w : Timed) : Prop where
  safe : SafeUses w
  made : Made w.thread
  started : w.beginTime ≤ w.loopTime
  stopped : w.endTime ≤ w.loopTime
  /-- Between the writes of a constructor the end is that of the `TimeHandle` before. -/
  ordered : w.handle ≠ .clears → w.endTime = 0 ∨ w.beginTime ≤ w.endTime
  unmade : w.thread.code ≤ 3 → w.endTime = 0
  handle : HandleTimes w
  call : CallTimes w

theorem times_init (node : Bool) : Times (Timed.init node) where
  safe := fun _ h => absurd h List.not_mem_nil
  made := made_init node
  started := UInt64.le_refl 0
  stopped := UInt64.le_refl 0
  ordered := fun _ => .inl rfl
  unmade := fun _ => rfl
  handle := trivial
  call := trivial

variable {w v : Timed}

/-- `stop()` and a signal do not move the thread. -/
theorem stays_of_main {a : Action} (main : Timed.ofMain a = true) (hs : step s a = some t) :
    t.pc = s.pc ∧ t.code = s.code := by
  cases a with
  | wake =>
      obtain ⟨-, hs⟩ := Option.ite_none_right_eq_some.mp hs
      cases hs
      exact ⟨rfl, rfl⟩
  | stop =>
      simp only [step, stop] at hs
      split at hs
      · obtain ⟨-, hs⟩ := Option.ite_none_right_eq_some.mp hs
        cases hs
        exact ⟨rfl, rfl⟩
      all_goals
        cases hs
        exact ⟨rfl, rfl⟩
  | next | fail | compileError | load | test | js => cases main

/-- A step of the main thread beside `usedTime`. -/
theorem Times.follow_main (h : Times w) (moves : Moves w.thread t) (pc : t.pc = w.thread.pc)
    (code : t.code = w.thread.code) : Times (w.follow t) := by
  have same : w.follow t = { w with thread := t } := by
    rw [Timed.follow, pc, if_neg fun enters => enters.1 enters.2,
      if_neg fun leaves => leaves.2 leaves.1]
  rw [same]
  refine ⟨h.safe, h.made.of_moves moves, h.started, h.stopped, h.ordered, ?_, ?_, h.call⟩
  · intro small
    exact h.unmade (code ▸ small)
  · have handle := h.handle
    simp only [HandleTimes] at handle ⊢
    rw [pc, code]
    exact handle

/-- A step of the sub thread, which makes a `TimeHandle` or destroys one. -/
theorem Times.follow_sub (h : Times w) (moves : Moves w.thread t)
    (settled : w.handle = .settled) : Times (w.follow t) := by
  have made := h.made.of_moves moves
  have ordered : w.endTime = 0 ∨ w.beginTime ≤ w.endTime := h.ordered (by rw [settled]; simp)
  have unmade : t.code ≤ 3 → w.endTime = 0 := fun small =>
    h.unmade (h.made.unmade_of_moves moves small)
  have call := h.call
  unfold Timed.follow
  split
  · next enters =>
      refine ⟨h.safe, made, h.started, h.stopped, fun _ => ordered, unmade,
        ⟨enters.2, UInt64.le_refl _⟩, ?_⟩
      simp only [CallTimes] at call ⊢
      split <;> simp_all
  split
  · next leaves =>
      have large : 3 < w.thread.code := h.made.later (by simp [leaves.1]) (by simp [leaves.1])
      have large' : 3 < t.code := by
        by_contra small
        exact absurd (h.made.unmade_of_moves moves (Nat.le_of_not_lt small))
          (Nat.not_le_of_lt large)
      refine ⟨h.safe, made, h.started, h.stopped, fun _ => ordered, unmade,
        ⟨h.started, UInt64.le_refl _, large'⟩, ?_⟩
      simp only [CallTimes] at call ⊢
      split <;> simp_all
  · refine ⟨h.safe, made, h.started, h.stopped, fun _ => ordered, unmade, ?_, call⟩
    simp only [HandleTimes, settled]

theorem Times.write (h : Times w) (order : WritesInOrder w) (hv : w.write = some v) :
    Times v := by
  have handle := h.handle
  have call := h.call
  simp only [Timed.write] at hv
  simp only [HandleTimes] at handle
  simp only [CallTimes] at call
  split at hv
  · cases hv
  · next now pending =>
      cases hv
      rw [pending] at handle
      refine ⟨h.safe, h.made, handle.2, h.stopped, fun other => absurd rfl other, h.unmade,
        handle.1, ?_⟩
      simp only [CallTimes]
      cases calling : w.call with
      | none | entered | running | updated => trivial
      | ended => exact order.beginsEnded now pending calling
      | later value => exact order.beginsLater now value pending calling
      | earlier value =>
          rw [calling] at call
          exact ⟨call.1, call.2.1, by simp⟩
  · next pending =>
      cases hv
      refine ⟨h.safe, h.made, h.started, UInt64.zero_le, fun _ => .inl rfl, fun _ => rfl,
        trivial, ?_⟩
      simp only [CallTimes]
      cases calling : w.call with
      | none | entered | running | updated => trivial
      | ended => exact UInt64.le_of_eq (order.clearsEnded pending calling)
      | later value =>
          rw [calling] at call
          exact call
      | earlier value =>
          have zero := order.clearsEarlier value pending calling
          exact ⟨UInt64.le_of_eq zero, zero ▸ UInt64.zero_le, by simp⟩
  · next now pending =>
      cases hv
      rw [pending] at handle
      obtain ⟨begun, past, large⟩ := handle
      refine ⟨h.safe, h.made, h.started, past, fun _ => .inr begun, fun small => ?_, trivial, ?_⟩
      · exact absurd large (Nat.not_lt_of_le small)
      simp only [CallTimes]
      cases calling : w.call with
      | none | entered | running | updated => trivial
      | ended => exact begun
      | later value =>
          rw [calling] at call
          exact call
      | earlier value =>
          rw [calling] at call
          exact ⟨call.2.2 now pending, call.2.1, by simp⟩

theorem SafeUses.append (h : SafeUses w) {use : Use} (safe : use.Safe) :
    SafeUses (w.returns use) := by
  intro use' hmem
  rcases List.mem_append.mp hmem with old | new
  · exact h use' old
  · exact List.mem_singleton.mp new ▸ safe

theorem not_safeUses_returns {use : Use} (bad : ¬ use.Safe) : ¬ SafeUses (w.returns use) := by
  intro safe
  exact bad (safe use (List.mem_append_right _ (List.mem_singleton_self _)))

theorem Times.returns (h : Times w) {use : Use} (safe : use.Safe) : Times (w.returns use) :=
  ⟨h.safe.append safe, h.made, h.started, h.stopped, h.ordered, h.unmade, h.handle, trivial⟩

/-- The call goes on with what it has read. -/
theorem Times.goes (h : Times w) {c : Call} (call : CallTimes { w with call := c }) :
    Times { w with call := c } :=
  ⟨h.safe, h.made, h.started, h.stopped, h.ordered, h.unmade, h.handle, call⟩

/-- The clock of the loop goes forward. -/
theorem Times.forward (h : Times w) {clock : UInt64} (forward : w.loopTime ≤ clock) {c : Call}
    (call : CallTimes { w with loopTime := clock, call := c }) :
    Times { w with loopTime := clock, call := c } := by
  refine ⟨h.safe, h.made, UInt64.le_trans h.started forward, UInt64.le_trans h.stopped forward,
    h.ordered, h.unmade, ?_, call⟩
  have handle := h.handle
  simp only [HandleTimes] at handle ⊢
  cases pending : w.handle with
  | settled => trivial
  | begins now =>
      rw [pending] at handle
      exact ⟨handle.1, UInt64.le_trans handle.2 forward⟩
  | clears =>
      rw [pending] at handle
      exact handle
  | ends now =>
      rw [pending] at handle
      exact ⟨handle.1, UInt64.le_trans handle.2.1 forward, handle.2.2⟩

theorem Times.read {r : Timed.Read} (h : Times w) (order : InOrder w (.read r))
    (hv : w.usedTime r = some v) : Times v := by
  have call := h.call
  simp only [CallTimes] at call
  simp only [Timed.usedTime] at hv
  split at hv
  · next keep _ =>
      obtain ⟨kept, between⟩ := order
      rw [kept] at hv
      have ordered : w.endTime = 0 ∨ w.beginTime ≤ w.endTime := by
        by_cases clears : w.handle = .clears
        · exact between clears
        · exact h.ordered clears
      simp only [Bool.false_eq_true, if_false] at hv
      split at hv
      · next ended =>
          cases hv
          apply h.goes
          have le : w.beginTime ≤ w.endTime := by
            rcases ordered with zero | le
            · rw [zero] at ended
              exact absurd ended (by decide)
            · exact le
          cases keep <;> exact le
      · cases hv
        exact h.goes trivial
  · next clock running =>
      obtain ⟨kept, past⟩ := order
      rw [kept, h.made.loop.mpr past] at hv
      obtain ⟨forward, hv⟩ := Option.ite_none_right_eq_some.mp hv
      cases hv
      exact h.forward forward trivial
  · rw [show w.loopDeleted = false from order] at hv
    cases hv
    exact h.goes h.started
  · next ended =>
      rw [show w.deleted = false from order] at hv
      cases hv
      rw [ended] at call
      exact h.goes call
  · next ended =>
      rw [show w.deleted = false from order] at hv
      cases hv
      rw [ended] at call
      refine h.goes ⟨call, h.started, fun now pending => ?_⟩
      have handle := h.handle
      simp only [HandleTimes] at handle
      rw [show w.handle = .ends now from pending] at handle
      exact handle.1
  · next value later =>
      rw [show w.deleted = false from order] at hv
      cases hv
      rw [later] at call
      exact h.returns call
  · next value earlier =>
      rw [show w.deleted = false from order] at hv
      cases hv
      rw [earlier] at call
      exact h.returns call.1
  · cases hv

theorem Times.step {a : Timed.Action} (h : Times w) (order : InOrder w a)
    (hv : w.step a = some v) : Times v := by
  cases a with
  | thread a =>
      obtain ⟨may, hv⟩ := Option.ite_none_right_eq_some.mp hv
      obtain ⟨t, ht, rfl⟩ := Option.map_eq_some_iff.mp hv
      by_cases main : Timed.ofMain a = true
      · obtain ⟨pc, code⟩ := stays_of_main main ht
        exact h.follow_main (step_moves ht) pc code
      · rw [Timed.mayTake, if_neg main] at may
        exact h.follow_sub (step_moves ht) (of_decide_eq_true may)
  | write => exact h.write order hv
  | advance clock =>
      obtain ⟨⟨-, -, forward⟩, hv⟩ := Option.ite_none_right_eq_some.mp hv
      cases hv
      apply h.forward (c := w.call) forward
      have call := h.call
      simp only [CallTimes] at call ⊢
      cases calling : w.call with
      | none | entered | running | updated => trivial
      | ended | later value =>
          rw [calling] at call
          exact call
      | earlier value =>
          rw [calling] at call
          exact ⟨call.1, UInt64.le_trans call.2.1 forward, call.2.2⟩
  | useTime =>
      obtain ⟨-, hv⟩ := Option.ite_none_left_eq_some.mp hv
      cases hv
      apply h.goes
      cases w.thread.idLive <;> trivial
  | read r => exact h.read order hv

/-! ### Steps out of order -/

theorem not_safe_of_lt {later earlier : UInt64} (less : later < earlier) :
    ¬ (Use.difference later earlier).Safe := UInt64.not_le.mpr less

/-- The minuend is less than the `begin_time` that is read next. -/
theorem underflows_later {value : UInt64} (kept : w.deleted = false)
    (later : w.call = .later value) (less : value < w.beginTime) :
    ¬ Always Timed.step SafeUses w [.read .beginTime] := by
  have reads : w.step (.read .beginTime) =
      some (w.returns (.difference value w.beginTime)) := by
    simp only [Timed.step, Timed.usedTime, later, kept]
    rfl
  intro always
  exact not_safeUses_returns (not_safe_of_lt less) (always.last (run_cons_of_step reads []))

/-- The `end_time` that is read next is less than the subtrahend. -/
theorem underflows_earlier {value : UInt64} (kept : w.deleted = false)
    (earlier : w.call = .earlier value) (less : w.endTime < value) :
    ¬ Always Timed.step SafeUses w [.read .endTime] := by
  have reads : w.step (.read .endTime) = some (w.returns (.difference w.endTime value)) := by
    simp only [Timed.step, Timed.usedTime, earlier, kept]
    rfl
  intro always
  exact not_safeUses_returns (not_safe_of_lt less) (always.last (run_cons_of_step reads []))

/-- Both are still to be read. -/
theorem underflows_ended (kept : w.deleted = false) (ended : w.call = .ended)
    (less : w.endTime < w.beginTime) :
    ¬ Always Timed.step SafeUses w [.read .endTime, .read .beginTime] := by
  have reads : w.step (.read .endTime) = some { w with call := .later w.endTime } := by
    simp only [Timed.step, Timed.usedTime, ended, kept]
    rfl
  intro always
  exact underflows_later (w := { w with call := .later w.endTime }) kept rfl less
    (always.2 _ reads)

theorem pos_of_ne_zero {time : UInt64} (h : time ≠ 0) : 0 < time :=
  UInt64.not_le.mp fun le => h (UInt64.le_antisymm le UInt64.zero_le)

theorem deleted_of_timed (timed : w.thread.pc.stage = .timed) : w.deleted = false := by
  rw [Timed.deleted, decide_eq_false_iff_not]
  intro finished
  rw [finished] at timed
  cases timed

theorem Times.write_unsafe (h : Times w) (order : ¬ WritesInOrder w) (hv : w.write = some v) :
    ∃ bs, ¬ Always Timed.step SafeUses v bs := by
  have handle := h.handle
  simp only [HandleTimes] at handle
  by_contra harmless
  apply order
  constructor
  · intro now pending ended
    by_contra less
    simp only [Timed.write, pending] at hv handle
    cases hv
    exact harmless ⟨_, underflows_ended (deleted_of_timed handle.1) ended (UInt64.not_le.mp less)⟩
  · intro now value pending later
    by_contra less
    simp only [Timed.write, pending] at hv handle
    cases hv
    exact harmless ⟨_, underflows_later (deleted_of_timed handle.1) later (UInt64.not_le.mp less)⟩
  · intro pending ended
    by_contra begun
    simp only [Timed.write, pending] at hv handle
    cases hv
    exact harmless ⟨_, underflows_ended (deleted_of_timed handle) ended (pos_of_ne_zero begun)⟩
  · intro value pending earlier
    by_contra begun
    simp only [Timed.write, pending] at hv handle
    cases hv
    exact harmless ⟨_, underflows_earlier (deleted_of_timed handle) earlier (pos_of_ne_zero begun)⟩

theorem Times.read_unsafe {r : Timed.Read} (h : Times w) (order : ¬ InOrder w (.read r))
    (hv : w.usedTime r = some v) : ∃ bs, ¬ Always Timed.step SafeUses v bs := by
  have now : ∀ use : Use, ¬ use.Safe → v = w.returns use →
      ∃ bs, ¬ Always Timed.step SafeUses v bs := by
    rintro use bad rfl
    exact ⟨[], not_safeUses_returns bad⟩
  simp only [Timed.usedTime] at hv
  split at hv
  · next keep _ =>
    split at hv
    · exact now .deleted id (Option.some.inj hv).symm
    · next kept =>
        have kept : w.deleted = false := Bool.not_eq_true _ ▸ kept
        simp only [InOrder, kept, true_and, Classical.not_imp, not_or] at order
        obtain ⟨clears, open_, less⟩ := order
        rw [if_pos (pos_of_ne_zero open_)] at hv
        cases hv
        cases keep with
        | false => exact ⟨_, underflows_ended kept rfl (UInt64.not_le.mp less)⟩
        | true => exact ⟨_, underflows_later kept rfl (UInt64.not_le.mp less)⟩
  · split at hv
    · exact now .deleted id (Option.some.inj hv).symm
    · next kept =>
        have kept : w.loopDeleted = false := Bool.not_eq_true _ ▸ kept
        have small : ¬ 3 < w.thread.code := fun past => order ⟨kept, past⟩
        have noLoop : w.thread.subLoop = false :=
          Bool.eq_false_iff.mpr fun loop => small (h.made.loop.mp loop)
        rw [noLoop] at hv
        exact now .nullLoop id (Option.some.inj hv).symm
  · rw [show w.loopDeleted = true from Bool.not_eq_false _ ▸ order] at hv
    exact now .deleted id (Option.some.inj hv).symm
  all_goals try
    rw [show w.deleted = true from Bool.not_eq_false _ ▸ order] at hv
    exact now .deleted id (Option.some.inj hv).symm
  · cases hv

theorem Times.unsafe_of_step {a : Timed.Action} (h : Times w) (order : ¬ InOrder w a)
    (hv : w.step a = some v) : ∃ bs, ¬ Always Timed.step SafeUses v bs := by
  cases a with
  | write => exact h.write_unsafe order hv
  | read r => exact h.read_unsafe order hv
  | thread a | advance clock | useTime => exact absurd trivial order

/-- **When `use_time()` is safe.** Where every step keeps the order, no call in the run uses a null
or deleted pointer, and no subtraction underflows; and where a run of this kind takes a step out of
order, it can go on to a call that does. -/
theorem use_time_safe (node : Bool) :
    (∀ as, Meets Timed.step InOrder (Timed.init node) as →
      Always Timed.step SafeUses (Timed.init node) as) ∧
    ∀ (as : List Timed.Action) (w v : Timed) (a : Timed.Action),
      Meets Timed.step InOrder (Timed.init node) as →
      run Timed.step (Timed.init node) as = some w → ¬ InOrder w a → w.step a = some v →
      ∃ bs, ¬ Always Timed.step SafeUses (Timed.init node) (as ++ a :: bs) := by
  have times : ∀ as, Meets Timed.step InOrder (Timed.init node) as →
      Always Timed.step Times (Timed.init node) as := fun as inOrder =>
    Always.of_invariant (fun _ _ _ h order hv => h.step order hv) (times_init node) inOrder
  refine ⟨fun as inOrder => (times as inOrder).imp fun _ h => h.safe, ?_⟩
  intro as w v a inOrder reached late hv
  obtain ⟨bs, bad⟩ := ((times as inOrder).last reached).unsafe_of_step late hv
  exact ⟨bs, fun always => bad (always.drop reached hv)⟩

/-- The main thread asks at once after `j_create`: there is no loop yet. It asks between two turns
of a thread that listens, and the next turn begins before it has read: `0 - 100`. -/
theorem use_time_unsafe :
    ¬ Always Timed.step SafeUses (Timed.init false)
      [.useTime, .read (.test false), .read (.update 5)] ∧
    ¬ Always Timed.step SafeUses (Timed.init false)
      [.thread .next, .thread .next, .thread .next, .thread .next, .thread .next, .thread .next,
        .thread .next, .write, .write, .thread (.js (.listen 1)), .advance 100, .thread .next,
        .write, .thread (.test false), .useTime, .read (.test false), .thread .next, .write, .write,
        .read .endTime, .read .beginTime] := by
  refine ⟨fun always => ?_, fun always => ?_⟩
  · exact always.last rfl .nullLoop List.mem_cons_self
  · exact not_safe_of_lt (by decide) (always.last rfl (.difference 0 100) List.mem_cons_self)

end ThreadJs.Script
