import ThreadJs.Script.EndsItself
import ThreadJs.Timers.TickQueue

/-!
A thread with its timers (`do_script` over `TimerPool`).

The event loop of `do_script` sees the timers through libuv: how many handles are active, whether
ticks are queued, and whether the tick event holds the loop. Here the timers are those of the
pool, with their callbacks, and these counts are read off it (`abs`).

* `thread_with_timers` — what the thread does is a run of `do_script` over the counts; it sleeps
  only if somebody listens and no timer and no tick is pending; and when nothing is left, it ends
  by itself.
-/

namespace ThreadJs.Script.Pooled

open Machine Timers

/-! ### What the loop sees of the pool -/

/-- The handles that are started. -/
def active (s : Timers.State) : ℕ := (List.range s.size).countP fun p => (s.heap p).any Timer.active

/-- A callback of the pool is running. -/
def calling (s : Timers.State) : Bool :=
  match s.pc with
  | .idle | .destroyed => false
  | .ticking _ | .tickFn _ _ | .fireFn _ => true

structure State where
  /-- Its own counts are not used. -/
  script : Script.State
  /-- `timepool` -/
  pool : Option History

/-- The counts that are read off the pool. -/
def seen (t : Script.State) (pool : Option History) : Script.State :=
  { t with
    timers := pool.elim 0 fun h => active h.state
    ticks := pool.elim 0 fun h => h.state.tickQueue.length
    tickRef := pool.any History.tickRef }

/-- The thread with the counts of its pool. -/
def abs (s : State) : Script.State := seen s.script s.pool

def State.calling (s : State) : Bool := s.pool.any fun h => Pooled.calling h.state

inductive Action where
  | script (a : Script.Action)
  /-- The loop or JavaScript at the pool. -/
  | move (m : Move)

/-- What is left to the pool. -/
def ofTimers : Script.Action → Bool
  | .js .startTimer | .js .stopTimer | .js .pushTick | .js .popTick | .js .ticksDone => true
  | _ => false

/-- `do_script` goes on when the callbacks have returned. -/
def State.may (s : State) : Script.Action → Bool
  | .next => !s.calling
  | a => !ofTimers a

def State.admits (s : State) : Move → Bool
  | .tickEvent | .fire _ => s.script.pc.callsBack
  | .create _ | .clear _ | .tick | .returns => s.script.jsRuns
  | .destroy => false

/-- `timepool`, which is set and reset around the user's code. -/
def State.timepool (s : State) (a : Script.Action) : Option History :=
  match a, s.script.pc with
  | .next, .initTimers => some .init
  | .next, .uninstall => none
  | _, _ => s.pool

def step (s : State) : Action → Option State
  | .script a => if s.may a then (Script.step (abs s) a).map fun t => ⟨t, s.timepool a⟩ else none
  | .move m =>
      if s.admits m then
        s.pool.bind fun h => (h.step m).map fun h' => { s with pool := some h' }
      else none

def init : State := ⟨Script.init false, none⟩

/-! ### A move of the pool -/

theorem countP_range_update (f : ℕ → Bool) (b : Bool) {n p : ℕ} (inside : p < n) :
    (List.range n).countP (Function.update f p b) + (f p).toNat =
      (List.range n).countP f + b.toNat := by
  induction n with
  | zero => cases inside
  | succ n ih =>
      have last : ∀ g : ℕ → Bool,
          (List.range (n + 1)).countP g = (List.range n).countP g + (g n).toNat := by
        intro g
        rw [List.range_succ, List.countP_append, List.countP_singleton]
        cases g n <;> rfl
      rw [last, last]
      by_cases here : p = n
      · subst here
        have below : (List.range p).countP (Function.update f p b) = (List.range p).countP f :=
          List.countP_congr fun q hq => by
            rw [Function.update_of_ne (Nat.ne_of_lt (List.mem_range.mp hq))]
        rw [below, Function.update_self]
        omega
      · have counted := ih (by omega)
        rw [Function.update_of_ne (Ne.symm here)]
        omega

/-- The flag of one object is written. -/
theorem active_update {s u : Timers.State} {p : ℕ} {t t' : Timer} (inside : p < s.size)
    (hp : s.heap p = some t) (size : u.size = s.size)
    (heap : u.heap = Function.update s.heap p (some t')) :
    active u + t.active.toNat = active s + t'.active.toNat := by
  have flags : (fun q => (u.heap q).any Timer.active) =
      Function.update (fun q => (s.heap q).any Timer.active) p t'.active := by
    rw [heap]
    funext q
    by_cases same : q = p
    · subst same
      simp
    · simp [Function.update_of_ne same]
  have counted := countP_range_update (fun q => (s.heap q).any Timer.active) t'.active inside
  rw [active, active, size, flags]
  simpa [hp] using counted

theorem active_create (s : Timers.State) (r : Request) :
    active (s.createTimer r) = active s + (decide (r.kind ≠ .tick)).toNat := by
  have size : (s.createTimer r).size = s.size + 1 := rfl
  have old : (List.range s.size).countP (fun p => ((s.createTimer r).heap p).any Timer.active) =
      active s := by
    refine List.countP_congr fun q hq => ?_
    rw [Timers.State.createTimer_heap, Function.update_of_ne (Nat.ne_of_lt (List.mem_range.mp hq))]
  rw [active, size, List.range_succ, List.countP_append, old, List.countP_singleton,
    Timers.State.createTimer_heap, Function.update_self]
  cases r.kind <;> rfl

/-- One operation on the counts, or timers that stop. -/
inductive Change (h h' : History) : Prop where
  | start (more : active h'.state = active h.state + 1)
      (queue : h'.state.tickQueue = h.state.tickQueue) (ref : h'.tickRef = h.tickRef)
  | push (same : active h'.state = active h.state)
      (queue : h'.state.tickQueue.length = h.state.tickQueue.length + 1) (ref : h'.tickRef = true)
  | pop (same : active h'.state = active h.state)
      (queue : h.state.tickQueue.length = h'.state.tickQueue.length + 1)
      (ref : h'.tickRef = h.tickRef)
  | done (same : active h'.state = active h.state) (empty : h.state.tickQueue = [])
      (queue : h'.state.tickQueue = []) (ref : h'.tickRef = false)
  | stop (fewer : active h'.state ≤ active h.state)
      (queue : h'.state.tickQueue = h.state.tickQueue) (ref : h'.tickRef = h.tickRef)

theorem change {s u : Timers.State} {ref : Bool} {log log' : List Timers.Event} {m : Move}
    {ev : List Timers.Event}
    (keyed : Keyed s) (effect : Effect s m u ev) (notDestroy : m ≠ .destroy) :
    Change ⟨s, ref, log⟩ ⟨u, m.tickRef s ref, log'⟩ := by
  -- A handle that is stopped.
  have stops : ∀ {p : ℕ} {t t' : Timer} {v : Timers.State}, s.heap p = some t →
      v.size = s.size → v.heap = Function.update s.heap p (some t') →
      (t'.active = true → t.active = true) → active v ≤ active s := by
    intro p t t' v hp size heap still
    have counted := active_update (keyed.allocated p t hp) hp size heap
    cases running : t'.active with
    | false =>
        rw [running] at counted
        simp only [Bool.toNat_false] at counted
        omega
    | true =>
        rw [running, still running] at counted
        omega
  have deletes : ∀ {p : ℕ} {t t' : Timer} {v : Timers.State}, s.heap p = some t →
      v.size = s.size → v.heap = Function.update s.heap p (some t') → t'.active = false →
      active v ≤ active s := fun hp size heap deleted =>
    stops hp size heap fun running => absurd (deleted.symm.trans running) Bool.false_ne_true
  have shorter : ∀ {id : TimerId}, s.tickQueue.getLast? = some id →
      s.tickQueue.length = s.tickQueue.dropLast.length + 1 := by
    intro id last
    cases queue : s.tickQueue with
    | nil => simp [queue] at last
    | cons i is => simp
  cases effect with
  | create r js =>
      have count := active_create s r
      by_cases tick : r.kind = .tick
      · refine .push (by simpa [tick] using count) (by simp [State.createTimer, tick]) ?_
        simp [Move.tickRef, Request.kind_eq_tick.mp tick]
      · have other : r ≠ .nextTick := fun same => tick (Request.kind_eq_tick.mpr same)
        refine .start (by simpa [tick] using count) (by simp [State.createTimer, tick]) ?_
        simp [Move.tickRef, other]
  | miss h t js handle gone => exact .stop (Nat.le_refl _) rfl rfl
  | clear h p t t' used js handle hit hp => exact .stop (deletes hp rfl rfl rfl) rfl rfl
  | tickEvent idle pending => exact .stop (Nat.le_refl _) rfl rfl
  | take c id p t used hpc last hit hp =>
      refine .pop rfl (shorter last) ?_
      cases queue : s.tickQueue with
      | nil => simp [queue] at last
      | cons i is => simp [Move.tickRef, hpc, queue]
  | stale c id hpc last gone =>
      refine .pop rfl (shorter last) ?_
      cases queue : s.tickQueue with
      | nil => simp [queue] at last
      | cons i is => simp [Move.tickRef, hpc, queue]
  | drained hpc empty => exact .done rfl empty empty (by simp [Move.tickRef, hpc, empty])
  | call c p t used hpc own empty hp =>
      exact .done rfl empty empty (by simp [Move.tickRef, hpc, empty])
  | fire p t used idle hp running pooled => exact .stop (stops hp rfl rfl fun _ => running) rfl rfl
  | fireAlone p t used idle hp running pooled =>
      exact .stop (stops hp rfl rfl fun _ => running) rfl rfl
  | tickDone c p t used hpc hp => exact .stop (deletes hp rfl rfl rfl) rfl rfl
  | oneShotDone p t used hpc hp => exact .stop (deletes hp rfl rfl rfl) rfl rfl
  | repeatDone p hpc => exact .stop (Nat.le_refl _) rfl rfl
  | destroy idle => exact absurd rfl notDestroy

/-! ### A run over the counts -/

section Counts

variable {t : Script.State} {h h' : History}

theorem leads_js {op : Js} {u : Script.State} (runs : t.jsRuns = true) (hs : js t op = some u) :
    Leads Script.step t fun v => v = u :=
  .of_step (a := .js op) (by simp only [Script.step, runs, if_true, hs]) rfl

/-- Timers stop one by one. -/
theorem leads_stop (runs : t.jsRuns = true) (n k : ℕ) :
    Leads Script.step { t with timers := n + k } fun v => v = { t with timers := n } := by
  induction k with
  | zero => exact .refl rfl
  | succ k ih =>
      have one : js { t with timers := n + (k + 1) } .stopTimer = some { t with timers := n + k } :=
        rfl
      have runs' : ({ t with timers := n + (k + 1) } : Script.State).jsRuns = true := runs
      refine (leads_js runs' one).trans ?_
      rintro _ rfl
      exact ih

theorem Change.leads (change : Change h h') (runs : t.jsRuns = true)
    (installed : t.timepool = true) :
    Leads Script.step (seen t (some h)) fun v => v = seen t (some h') := by
  have runs' : (seen t (some h)).jsRuns = true := runs
  cases change with
  | start more queue ref =>
      refine @leads_js _ .startTimer _ runs' ?_
      simp [js, installed, seen, more, queue, ref]
  | push same queue ref =>
      refine @leads_js _ .pushTick _ runs' ?_
      simp [js, installed, seen, same, queue, ref]
  | pop same queue ref =>
      refine @leads_js _ .popTick _ runs' ?_
      simp [js, seen, same, queue, ref]
  | done same empty queue ref =>
      refine @leads_js _ .ticksDone _ runs' ?_
      simp [js, seen, same, empty, queue, ref]
  | stop fewer queue ref =>
      obtain ⟨k, hk⟩ := Nat.exists_eq_add_of_le fewer
      have stops := leads_stop runs' (active h'.state) k
      have first : { seen t (some h) with timers := active h'.state + k } = seen t (some h) := by
        simp [seen, hk]
      have last : { seen t (some h) with timers := active h'.state } = seen t (some h') := by
        simp [seen, queue, ref]
      rwa [first, last] at stops

end Counts

/-! ### A step of `do_script` -/

structure SameCounts (t u : Script.State) : Prop where
  timers : u.timers = t.timers
  ticks : u.ticks = t.ticks
  tickRef : u.tickRef = t.tickRef

/-- `do_script` by itself leaves the counts alone, until the timers are uninstalled. -/
inductive Installs (t u : Script.State) : Script.Action → Prop where
  | set (hpc : t.pc = .initTimers) (same : SameCounts t u) (pooled : u.timepool = true) :
      Installs t u .next
  | reset (hpc : t.pc = .uninstall) (timers : u.timers = 0) (ticks : u.ticks = 0)
      (tickRef : u.tickRef = false) (off : u.timepool = false) : Installs t u .next
  | keep {a : Script.Action} (elsewhere : a = .next → t.pc ≠ .initTimers ∧ t.pc ≠ .uninstall)
      (same : SameCounts t u) (timepool : u.timepool = t.timepool) : Installs t u a

theorem installs {t u : Script.State} {a : Script.Action} (other : ofTimers a = false)
    (hs : Script.step t a = some u) : Installs t u a := by
  cases a with
  | next =>
      simp only [Script.step] at hs
      cases hpc : t.pc <;> simp only [next, hpc] at hs
      case createEnvironment | bind | poll | terminatedTest | nowaitEntry =>
        split at hs <;> (try split at hs) <;> cases hs <;>
          exact .keep (fun _ => by simp [hpc]) ⟨rfl, rfl, rfl⟩ rfl
      case initTimers =>
        cases hs
        exact .set hpc ⟨rfl, rfl, rfl⟩ rfl
      case uninstall =>
        cases hs
        exact .reset hpc rfl rfl rfl rfl
      all_goals
        cases hs
        try exact .keep (fun _ => by simp [hpc]) ⟨rfl, rfl, rfl⟩ rfl
  | fail | compileError | load handles | wake =>
      obtain ⟨-, hs⟩ := Option.ite_none_right_eq_some.mp hs
      cases hs
      exact .keep (by simp) ⟨rfl, rfl, rfl⟩ rfl
  | test interrupted =>
      simp only [Script.step, test] at hs
      split at hs
      · cases hs
      · split at hs <;> cases hs <;> exact .keep (by simp) ⟨rfl, rfl, rfl⟩ rfl
  | stop =>
      simp only [Script.step, stop] at hs
      split at hs
      · split at hs <;> cases hs
        exact .keep (by simp) ⟨rfl, rfl, rfl⟩ rfl
      · cases hs
        exact .keep (by simp) ⟨rfl, rfl, rfl⟩ rfl
      · cases hs
        exact .keep (by simp) ⟨rfl, rfl, rfl⟩ rfl
  | js op =>
      obtain ⟨-, hs⟩ := Option.ite_none_right_eq_some.mp hs
      cases op <;> simp only [js] at hs
      case send | listen =>
        cases hs
        exact .keep (by simp) ⟨rfl, rfl, rfl⟩ rfl
      case startTimer | stopTimer | pushTick | popTick | ticksDone => cases other
      case uncaught | openHandle | closeHandle =>
        split at hs
        · cases hs
          exact .keep (by simp) ⟨rfl, rfl, rfl⟩ rfl
        · cases hs

/-- Beside `do_script` nothing brings the thread to another place where code may run. -/
theorem side_spec {t u : Script.State} {a : Script.Action} (notNext : a ≠ .next)
    (hs : Script.step t a = some u) :
    (u.jsRuns = false → t.jsRuns = false) ∧ (u.pc.setUp = true → t.pc.setUp = true) := by
  have same : ∀ {pc}, t.pc = pc → pc.setUp = true ∨ pc = .preTest ∨ pc = .listenerTest →
      t.jsRuns = false := by
    rintro pc rfl place
    rw [State.jsRuns]
    cases hpc : t.pc <;> simp [hpc, Pc.setUp] at place ⊢
  cases a with
  | next => exact absurd rfl notNext
  | fail =>
      obtain ⟨setUp, hs⟩ := Option.ite_none_right_eq_some.mp hs
      exact ⟨fun _ => same rfl (.inl setUp), fun _ => setUp⟩
  | compileError =>
      obtain ⟨hpc, hs⟩ := Option.ite_none_right_eq_some.mp hs
      exact ⟨fun _ => same hpc (.inl rfl), fun _ => by rw [hpc]; rfl⟩
  | load handles =>
      obtain ⟨hpc, hs⟩ := Option.ite_none_right_eq_some.mp hs
      exact ⟨fun _ => same hpc (.inl rfl), fun _ => by rw [hpc]; rfl⟩
  | test interrupted =>
      simp only [Script.step, test] at hs
      split at hs
      · cases hs
      · split at hs
        · next hpc =>
            cases hs
            refine ⟨fun _ => same hpc (.inr (.inl rfl)), fun setUp => ?_⟩
            dsimp only at setUp
            split at setUp <;> cases setUp
        · next hpc =>
            cases hs
            exact ⟨fun _ => same hpc (.inr (.inr rfl)), by simp [Pc.setUp]⟩
        · cases hs
  | js op =>
      obtain ⟨-, hs⟩ := Option.ite_none_right_eq_some.mp hs
      obtain ⟨pc, node, -⟩ := js_sameHandles hs
      rw [State.jsRuns, State.jsRuns, pc, node]
      exact ⟨id, id⟩
  | wake =>
      obtain ⟨-, hs⟩ := Option.ite_none_right_eq_some.mp hs
      cases hs
      exact ⟨id, id⟩
  | stop =>
      simp only [Script.step, stop] at hs
      split at hs
      · split at hs <;> cases hs
        exact ⟨id, id⟩
      · cases hs
        exact ⟨id, id⟩
      · cases hs
        exact ⟨id, id⟩

/-! ### The invariant -/

structure Linked (s : State) : Prop where
  installed : s.script.timepool = s.pool.isSome
  setUp : s.script.pc.setUp = true → s.pool = none
  keyed : ∀ h, s.pool = some h → Keyed h.state
  held : ∀ h, s.pool = some h → h.state.pc.inDoTick = false →
    (h.tickRef = true ↔ h.state.tickQueue ≠ [])
  quiet : s.script.jsRuns = false → s.calling = false
  explained : Leads Script.step (Script.init false) fun t => t = abs s

theorem linked_init : Linked init where
  installed := rfl
  setUp := fun _ => rfl
  keyed := by simp [init]
  held := by simp [init]
  quiet := fun _ => rfl
  explained := .refl rfl

theorem seen_eq {t : Script.State} {pool : Option History}
    (timers : t.timers = pool.elim 0 fun h => active h.state)
    (ticks : t.ticks = pool.elim 0 fun h => h.state.tickQueue.length)
    (tickRef : t.tickRef = pool.any History.tickRef) : seen t pool = t := by
  rw [seen, ← timers, ← ticks, ← tickRef]

variable {s s' : State}

theorem calling_eq_false :
    s.calling = false ↔ ∀ h, s.pool = some h → Pooled.calling h.state = false := by
  rw [State.calling]
  cases s.pool with
  | none => simp
  | some h => simp

theorem ofTimers_of_may {a : Script.Action} (may : s.may a = true) : ofTimers a = false := by
  cases a with
  | next => rfl
  | fail | compileError | load | test | js | wake | stop => simpa [State.may] using may

theorem timepool_eq {a : Script.Action}
    (elsewhere : a = .next → s.script.pc ≠ .initTimers ∧ s.script.pc ≠ .uninstall) :
    s.timepool a = s.pool := by
  unfold State.timepool
  split
  · next hpc => exact absurd hpc (elsewhere rfl).1
  · next hpc => exact absurd hpc (elsewhere rfl).2
  · rfl

/-- A pool is the one before, or new. -/
theorem timepool_cases {a : Script.Action} {h : History} (some : s.timepool a = some h) :
    s.pool = .some h ∨ h = .init := by
  unfold State.timepool at some
  split at some
  · exact .inr (Option.some.inj some).symm
  · cases some
  · exact .inl some

theorem calling_timepool (quiet : s.calling = false) (t : Script.State) (a : Script.Action) :
    State.calling ⟨t, s.timepool a⟩ = false := by
  refine calling_eq_false.mpr fun p some => ?_
  rcases timepool_cases some with same | rfl
  · exact calling_eq_false.mp quiet p same
  · rfl

/-- The counts stay those of the pool. -/
theorem Linked.abs_script (h : Linked s) {a : Script.Action} (may : s.may a = true)
    {t : Script.State} (hs : Script.step (abs s) a = some t) : abs ⟨t, s.timepool a⟩ = t := by
  cases installs (ofTimers_of_may may) hs with
  | set hpc same pooled =>
      have pc : s.script.pc = .initTimers := hpc
      have none : s.pool = none := h.setUp (by rw [pc]; rfl)
      have some : s.timepool .next = some .init := by simp only [State.timepool, pc]
      rw [some]
      refine seen_eq ?_ ?_ ?_
      · rw [same.timers, abs, none]
        rfl
      · rw [same.ticks, abs, none]
        rfl
      · rw [same.tickRef, abs, none]
        rfl
  | reset hpc timers ticks tickRef off =>
      have pc : s.script.pc = .uninstall := hpc
      have none : s.timepool .next = none := by simp only [State.timepool, pc]
      rw [none]
      exact seen_eq timers ticks tickRef
  | keep elsewhere same timepool =>
      rw [timepool_eq elsewhere]
      exact seen_eq same.timers same.ticks same.tickRef

theorem Linked.script (h : Linked s) {a : Script.Action} (may : s.may a = true)
    {t : Script.State} (hs : Script.step (abs s) a = some t) : Linked ⟨t, s.timepool a⟩ where
  installed := by
    cases installs (ofTimers_of_may may) hs with
    | set hpc same pooled =>
        have pc : s.script.pc = .initTimers := hpc
        simp only [State.timepool, pc, pooled]
        rfl
    | reset hpc timers ticks tickRef off =>
        have pc : s.script.pc = .uninstall := hpc
        simp only [State.timepool, pc, off]
        rfl
    | keep elsewhere same timepool =>
        rw [timepool_eq elsewhere, timepool]
        exact h.installed
  setUp := by
    intro setUp
    cases installs (ofTimers_of_may may) hs with
    | set hpc same pooled =>
        simp only [Script.step, next, hpc] at hs
        cases hs
        cases setUp
    | reset hpc timers ticks tickRef off =>
        have pc : s.script.pc = .uninstall := hpc
        simp only [State.timepool, pc]
    | keep elsewhere same timepool =>
        rw [timepool_eq elsewhere]
        refine h.setUp ?_
        by_cases isNext : a = .next
        · subst isNext
          by_contra past
          have later := (next_spec hs).setUp (Bool.eq_false_iff.mpr past)
          exact absurd (later.symm.trans setUp) Bool.false_ne_true
        · exact (side_spec isNext hs).2 setUp
  keyed := by
    intro p some
    rcases timepool_cases some with same | rfl
    · exact h.keyed p same
    · exact keyed_init
  held := by
    intro p some
    rcases timepool_cases some with same | rfl
    · exact h.held p same
    · exact fun _ => by simp [History.init, Timers.init]
  quiet := by
    intro idle
    have before : s.calling = false := by
      by_cases isNext : a = .next
      · subst isNext
        simpa [State.may] using may
      · exact h.quiet ((side_spec isNext hs).1 idle)
    exact calling_timepool before t a
  explained := h.explained.trans fun _ now => by
    rw [h.abs_script may hs]
    exact now ▸ .of_step hs rfl

theorem admits_jsRuns {m : Move} (admits : s.admits m = true) :
    m ≠ .destroy ∧ s.script.jsRuns = true := by
  cases m with
  | create | clear | tick | returns => exact ⟨by simp, admits⟩
  | tickEvent | fire =>
      refine ⟨by simp, ?_⟩
      simp only [State.admits] at admits
      rw [State.jsRuns]
      cases hpc : s.script.pc <;> simp [hpc, Pc.callsBack] at admits ⊢
  | destroy => cases admits

theorem Linked.move (h : Linked s) {m : Move} (admits : s.admits m = true) {p p' : History}
    (pool : s.pool = some p) (hs : p.step m = some p') : Linked { s with pool := some p' } := by
  obtain ⟨notDestroy, runs⟩ := admits_jsRuns admits
  have keyed := h.keyed p pool
  have held := h.held p pool
  obtain ⟨effect, -, ref⟩ := step_effect keyed hs
  have installed : s.script.timepool = true := by rw [h.installed, pool]; rfl
  have changed : Change p p' := by
    obtain ⟨u, ref', log'⟩ := p'
    obtain rfl : ref' = m.tickRef p.state p.tickRef := ref
    exact change keyed effect notDestroy
  refine ⟨installed, fun setUp => ?_, ?_, ?_, fun idle => ?_, ?_⟩
  · rw [h.setUp setUp] at pool
    cases pool
  · rintro q ⟨⟩
    exact keyed.step effect
  · rintro q ⟨⟩ outside
    rw [ref]
    exact effect.held held outside
  · exact absurd (idle.symm.trans runs) Bool.false_ne_true
  · refine h.explained.trans ?_
    rintro t rfl
    rw [abs, pool]
    exact changed.leads runs installed

theorem Linked.step {a : Action} (h : Linked s) (hs : Pooled.step s a = some s') : Linked s' := by
  cases a with
  | script a =>
      obtain ⟨may, hs⟩ := Option.ite_none_right_eq_some.mp hs
      obtain ⟨t, ht, rfl⟩ := Option.map_eq_some_iff.mp hs
      exact h.script may ht
  | move m =>
      obtain ⟨admits, hs⟩ := Option.ite_none_right_eq_some.mp hs
      obtain ⟨p, pool, hs⟩ := Option.bind_eq_some_iff.mp hs
      obtain ⟨p', hp, rfl⟩ := Option.map_eq_some_iff.mp hs
      exact h.move admits pool hp

/-- The invariants of `do_script` hold over the counts. -/
theorem Linked.reasoned (h : Linked s) : Reasoned (abs s) := by
  obtain ⟨t, reasoned, rfl⟩ :=
    h.explained.of_inductive (fun _ _ _ h hs => Reasoned.step h hs) reasoned_init
  exact reasoned

/-! ### Sleep and end -/

/-- The tick event holds the loop only while ticks are queued. -/
theorem Linked.tickRef (h : Linked s) (quiet : s.calling = false) (ticks : (abs s).ticks = 0) :
    (abs s).tickRef = false := by
  rw [abs, seen] at ticks ⊢
  cases pool : s.pool with
  | none => rfl
  | some p =>
      rw [pool] at ticks
      have outside : p.state.pc.inDoTick = false := by
        have returned := calling_eq_false.mp quiet p pool
        rw [Pooled.calling] at returned
        split at returned
        · next idle => rw [idle]; rfl
        · next destroyed => rw [destroyed]; rfl
        all_goals cases returned
      have empty : p.state.tickQueue = [] := List.length_eq_zero_iff.mp ticks
      exact Bool.eq_false_iff.mpr fun ref => (h.held p pool outside).mp ref empty

/-- In `uv_run(UV_RUN_ONCE)` the thread waits for messages only. -/
theorem Linked.asleep (h : Linked s) (going : s.script.terminated = false)
    (poll : s.script.pc = .poll) (stuck : Pooled.step s (.script .next) = none) :
    s.script.noListener = false ∧
      ∀ p, s.pool = some p → active p.state = 0 ∧ p.state.tickQueue = [] := by
  have quiet : s.calling = false := h.quiet (by rw [State.jsRuns, poll])
  have asleep : Asleep (abs s) := by
    refine ⟨poll, ?_⟩
    simpa [Pooled.step, State.may, quiet, Script.step] using stuck
  obtain ⟨timers, ticks, -⟩ := asleep.calm
  refine ⟨?_, fun p pool => ?_⟩
  · rcases h.reasoned.asleep going asleep with listens | ref
    · exact listens
    · exact absurd ((h.tickRef quiet ticks).symm.trans ref) Bool.false_ne_true
  · rw [abs, pool] at timers ticks
    exact ⟨timers, List.length_eq_zero_iff.mp ticks⟩

/-- The steps of a thread that is left alone. -/
def Action.alone : Action → Prop
  | .script a => a.alone
  | .move _ => False

theorem may_of_alone {a : Script.Action} (quiet : s.calling = false) (alone : a.alone) :
    s.may a = true := by
  cases a with
  | next => simpa [State.may] using quiet
  | test => rfl
  | fail | compileError | load | js | wake | stop => exact alone.elim

/-- On its way from `s` to the end. -/
structure Leaving (s t : State) : Prop where
  linked : Linked t
  quiet : t.calling = false
  onWay : OnWay (abs s) (abs t)

variable {t u : State}

theorem Leaving.step (h : Leaving s t) {a : Action} (alone : a.alone)
    (hs : Pooled.step t a = some u) : Leaving s u ∧ (abs u).pc.left < (abs t).pc.left := by
  cases a with
  | move m => exact alone.elim
  | script a =>
      have linked := h.linked.step hs
      obtain ⟨may, hs⟩ := Option.ite_none_right_eq_some.mp hs
      obtain ⟨v, hv, rfl⟩ := Option.map_eq_some_iff.mp hs
      have next := h.onWay.step alone hv
      rw [← h.linked.abs_script may hv] at next
      exact ⟨⟨linked, calling_timepool h.quiet v a, next.1⟩, next.2⟩

theorem Leaving.run (h : Leaving s t) {as : List Action} (alone : ∀ a ∈ as, a.alone)
    (hrun : Machine.run Pooled.step t as = some u) : Leaving s u :=
  run_keeps (fun _ _ _ h alone hs => (h.step alone hs).1) alone h hrun

theorem Leaving.ends (h : Leaving s t) : Ends Pooled.step Action.alone t :=
  .of_keeps (I := Leaving s) (fun t => (abs t).pc.left) (fun _ _ _ h alone hs => h.step alone hs) h

theorem Leaving.ended (h : Leaving s t) (rests : AtRest Pooled.step Action.alone t) :
    Ended (abs s) (abs t) := by
  refine h.onWay.ended fun a alone => ?_
  have stuck := rests (.script a) alone
  simpa [Pooled.step, may_of_alone h.quiet alone] using stuck

/-- A thread with its timers. -/
structure Explained (s : State) : Prop where
  /-- What it has done is a run of `do_script` over the counts. -/
  run : Leads Script.step (Script.init false) fun t => t = abs s
  sleeps : s.script.terminated = false → s.script.pc = .poll → step s (.script .next) = none →
    s.script.noListener = false ∧
      ∀ p, s.pool = some p → active p.state = 0 ∧ p.state.tickQueue = []
  ends : s.script.terminated = false → s.script.pc.inLoop = true → s.calling = false →
    Idle (abs s) → Ends step Action.alone s ∧ ∀ as t, (∀ a ∈ as, a.alone) →
      Machine.run step s as = some t → AtRest step Action.alone t → Ended (abs s) (abs t)

theorem Linked.explains (h : Linked s) : Explained s where
  run := h.explained
  sleeps := h.asleep
  ends := by
    intro going inLoop quiet idle
    have start : Leaving s s := ⟨h, quiet, onWay_start h.reasoned going inLoop idle⟩
    exact ⟨start.ends, fun as t alone hrun rests => (start.run alone hrun).ended rests⟩

end ThreadJs.Script.Pooled
