import ThreadJs.Timers.Sound
import ThreadJs.Timers.TickOrder

/-!
Cleared timers and their callbacks.

`Timer::call` runs the queued ticks first and the function of the timer then. A tick that
clears the timer deletes the object that the call goes on with, and `fn.call()` is made on
it all the same. The other way round the law is a tick queue that holds on to identifiers:
a timer that gets one from there is called as a tick, and later once more.
-/

namespace ThreadJs.Timers

open Function Machine

/-- The timer whose `Timer::call` is in the middle of its `do_tick`. -/
def Pc.pending : Pc → Option Nat
  | .ticking c | .tickFn c _ => c.timer
  | _ => none

/-- An identifier that is neither in the pool nor, for a timer that is not a tick, left
over in the queue. -/
def Unused (s : State) (r : Request) : Prop :=
  s.pool (s.lastId + 1) = none ∧ (r.kind ≠ .tick → s.lastId + 1 ∉ s.tickQueue)

instance (s : State) (r : Request) : Decidable (Unused s r) :=
  inferInstanceAs (Decidable (_ ∧ _))

/-- `createTimer` gives out unused identifiers, and no timer is cleared by a tick that its
own call runs. -/
def NotInOwnTicks (h : History) : Move → Prop
  | .create r => Unused h.state r
  | .clear p => ∀ t ∈ h.state.heap p, ∀ q ∈ h.state.pool t.id, h.state.pc.pending ≠ some q
  | _ => True

instance (h : History) (m : Move) : Decidable (NotInOwnTicks h m) :=
  match m with
  | .create r => inferInstanceAs (Decidable (Unused h.state r))
  | .clear p =>
      inferInstanceAs (Decidable (∀ t ∈ h.state.heap p, ∀ q ∈ h.state.pool t.id, _ ≠ some q))
  | .tickEvent | .tick | .fire _ | .returns | .destroy => isTrue trivial

/-- After the clear of a timer has returned, its callback is not called. -/
def NeverAgain (log : List Event) : Prop :=
  ∀ p removed pre post, log = pre ++ .cleared p removed :: post → ∀ kind, .started p kind ∉ post

/-- What is queued is a tick, if it is there at all. -/
def OnlyTicksQueued (s : State) : Prop :=
  ∀ id ∈ s.tickQueue, ∀ p t, s.pool id = some p → s.heap p = some t → t.kind = .tick

structure NoneCalled (h : History) : Prop where
  sound : Sound h.state
  onlyTicks : OnlyTicksQueued h.state
  pending : ∀ p t, h.state.pc.pending = some p → h.state.heap p = some t →
    h.state.pool t.id = some p
  gone : ∀ p removed, .cleared p removed ∈ h.log →
    ∃ t, h.state.heap p = some t ∧ h.state.pool t.id ≠ some p
  silent : NeverAgain h.log

theorem noneCalled_init : NoneCalled .init where
  sound := sound_init
  onlyTicks id hid := by cases hid
  pending p t hpc := by cases hpc
  gone p removed h := by cases h
  silent p removed pre post h := by simp [History.init] at h

/-- What comes after the clear of a timer in a longer log. -/
theorem NeverAgain.append {log ev : List Event} (h : NeverAgain log)
    (old : ∀ p removed, .cleared p removed ∈ log → ∀ kind, .started p kind ∉ ev)
    (new : NeverAgain ev) : NeverAgain (log ++ ev) := by
  intro p removed pre post split kind called
  rcases List.append_eq_append_iff.mp split with ⟨mid, rfl, rfl⟩ | ⟨mid, rfl, tail⟩
  · exact new p removed mid post rfl kind called
  · cases mid with
    | nil => exact new p removed [] post tail.symm kind called
    | cons e mid =>
        obtain ⟨rfl, rfl⟩ := List.cons_eq_cons.mp tail
        rcases List.mem_append.mp called with called | called
        · exact h p removed pre mid rfl kind called
        · exact old p removed (by simp) kind called

theorem neverAgain_short {ev : List Event} (h : ∀ p kind, .started p kind ∈ ev →
    ∀ q removed, .cleared q removed ∉ ev) : NeverAgain ev := by
  rintro p removed pre post rfl kind called
  exact h p kind (List.mem_append_right _ (List.mem_cons_of_mem _ called)) p removed (by simp)

namespace Effect

variable {s u : State} {m : Move} {ev : List Event}

/-- A pending call stays or is made. -/
theorem pending_cases (effect : Effect s m u ev) {p : Nat} (hpc : u.pc.pending = some p) :
    s.pc.pending = some p ∨
      ∃ t, s.heap p = some t ∧ t.active = true ∧ s.pc = .idle ∧ u.pool = s.pool := by
  cases effect with
  | create | miss | clear | stale => exact .inl hpc
  | take c id q t used hpc' last hit hp =>
      rw [hpc']
      exact .inl hpc
  | tickDone c q t used hpc' hp =>
      rw [hpc']
      exact .inl hpc
  | fire q t used idle hp active pooled =>
      obtain rfl := Option.some.inj ((t.caller_timer q).symm.trans hpc)
      exact .inr ⟨t, hp, active, idle, rfl⟩
  | tickEvent | drained | call | fireAlone | oneShotDone | repeatDone | destroy => cases hpc

theorem queue_cases (effect : Effect s m u ev) {id : TimerId} (hid : id ∈ u.tickQueue) :
    id ∈ s.tickQueue ∨ id = s.lastId + 1 ∧ ∃ r, m = .create r ∧ r.kind = .tick := by
  cases effect with
  | create r js =>
      simp only [State.createTimer] at hid
      split at hid
      · next kind =>
          rcases List.mem_append.mp hid with hid | hid
          · exact .inl hid
          · exact .inr ⟨List.mem_singleton.mp hid, r, rfl, kind⟩
      · exact .inl hid
  | take | stale => exact .inl (List.dropLast_subset _ hid)
  | destroy idle =>
      rw [destroy_eq] at hid
      exact .inl hid
  | miss | clear | tickEvent | drained | call | fire | fireAlone | tickDone | oneShotDone
  | repeatDone => exact .inl hid

end Effect

section Steps

variable {s u : State} {held : Bool} {log ev : List Event} {m : Move}

theorem OnlyTicksQueued.step (keyed : Keyed s) (h : OnlyTicksQueued s)
    (unused : ∀ r, m = .create r → Unused s r) (effect : Effect s m u ev) :
    OnlyTicksQueued u := by
  intro id hid p t entry hp
  rcases effect.heap_cases hp with ⟨t', hp', later⟩ | ⟨rfl, r, rfl, rfl⟩
  · have entry := effect.pool_old keyed hp' entry
    rcases effect.queue_cases hid with hid | ⟨rfl, r, rfl, -⟩
    · exact later.kind.trans (h id hid p t' entry hp')
    · rw [(unused r rfl).1] at entry
      cases entry
  · -- The identifier of the new timer is in the queue only if the timer is a tick.
    obtain rfl := effect.pool_new keyed entry
    by_contra kind
    rcases effect.queue_cases hid with hid | ⟨-, r', same, kind'⟩
    · exact (unused r rfl).2 kind hid
    · exact kind (Move.create.inj same ▸ kind')

/-- The timer of a pending call stays in the pool. -/
theorem NoneCalled.pending_step (keyed : Keyed s) (inv : NoneCalled ⟨s, held, log⟩)
    (ok : NotInOwnTicks ⟨s, held, log⟩ m) (effect : Effect s m u ev) {p : Nat} {t : Timer}
    (hpc : u.pc.pending = some p) (hp : u.heap p = some t) : u.pool t.id = some p := by
  rcases effect.pending_cases hpc with before | ⟨t₀, hp₀, active, idle, same⟩
  · obtain ⟨c, caller, own⟩ : ∃ c, s.pc.caller = some c ∧ c.timer = some p := by
      cases at_ : s.pc <;> simp only [Pc.pending, at_, reduceCtorEq] at before <;>
        exact ⟨_, rfl, before⟩
    obtain ⟨t₀, hp₀, -, kind⟩ := keyed.caller c p caller own
    obtain ⟨t', hp', later⟩ := effect.kept keyed hp₀
    have entry := inv.pending p t₀ before hp₀
    rw [Option.some.inj (hp.symm.trans hp'), later.id]
    cases effect with
    | create r js => exact createTimer_pool_kept ok.1 entry
    | clear hd q v v' used js handle hit hq =>
        refine update_pool_of_ne hit entry ?_
        rintro rfl
        exact ok v handle p hit before
    | take c' id q v used hpc' last hit hq =>
        refine update_pool_of_ne hit entry ?_
        rintro rfl
        obtain ⟨front, queue⟩ := List.getLast?_eq_some_iff.mp last
        exact kind (inv.onlyTicks id (by simp [queue]) p t₀ hit hp₀)
    | miss | stale | tickDone => exact entry
    | tickEvent | drained | call | fireAlone | oneShotDone | repeatDone | destroy => cases hpc
    | fire q v used idle => simp [idle, Pc.pending] at before
  · have entry := inv.sound.entry (by rw [idle]; rfl) hp₀ active
    obtain ⟨t', hp', later⟩ := effect.kept keyed hp₀
    rwa [Option.some.inj (hp.symm.trans hp'), later.id, same]

/-- What is called is in the pool when its turn comes. -/
theorem NoneCalled.started_pooled (keyed : Keyed s) (inv : NoneCalled ⟨s, held, log⟩)
    (effect : Effect s m u ev) {p : Nat} {kind : Kind} (called : .started p kind ∈ ev) :
    ∃ t, s.heap p = some t ∧ s.pool t.id = some p := by
  cases effect with
  | take c id q t used hpc last hit hp =>
      obtain ⟨rfl, -⟩ := Event.started.inj (List.mem_singleton.mp called)
      exact ⟨t, hp, keyed.entry_id hit hp ▸ hit⟩
  | call c q t used hpc own empty hp =>
      obtain ⟨rfl, -⟩ : p = q ∧ kind = t.kind := by simpa using called
      exact ⟨t, hp, inv.pending p t (by rw [hpc]; exact own) hp⟩
  | fireAlone q t used idle hp active pooled =>
      obtain ⟨rfl, -⟩ := Event.started.inj (List.mem_singleton.mp called)
      exact ⟨t, hp, inv.sound.entry (by rw [idle]; rfl) hp active⟩
  | create | miss | clear | tickEvent | stale | drained | fire | tickDone | oneShotDone | repeatDone
  | destroy => simp at called

theorem NoneCalled.step (keyed : Keyed s) (inv : NoneCalled ⟨s, held, log⟩)
    (ok : NotInOwnTicks ⟨s, held, log⟩ m) (effect : Effect s m u ev) :
    NoneCalled ⟨u, m.tickRef s held, log ++ ev⟩ where
  sound := by
    have fresh : FreshId ⟨s, held, log⟩ m := by
      cases m with
      | create r => exact ok.1
      | clear | tickEvent | tick | fire | returns | destroy => trivial
    exact inv.sound.step keyed fresh effect
  onlyTicks := inv.onlyTicks.step keyed (fun r e => by subst e; exact ok) effect
  pending p t hpc hp := inv.pending_step keyed ok effect hpc hp
  gone p removed cleared := by
    rcases List.mem_append.mp cleared with old | new
    · obtain ⟨t, hp, out⟩ := inv.gone p removed old
      obtain ⟨t', hp', later⟩ := effect.kept keyed hp
      refine ⟨t', hp', fun entry => ?_⟩
      rw [later.id] at entry
      exact out (effect.pool_old keyed hp entry)
    · cases effect with
      | miss hd t js handle gone =>
          obtain ⟨rfl, -⟩ := Event.cleared.inj (List.mem_singleton.mp new)
          exact ⟨t, handle, by rw [gone]; nofun⟩
      | clear hd q t t' used js handle hit hq =>
          obtain ⟨rfl, -⟩ := Event.cleared.inj (List.mem_singleton.mp new)
          obtain ⟨u', hu, later⟩ := update_heap_kept hq t'.released_later handle
          refine ⟨u', hu, ?_⟩
          rw [later.id]
          exact fun entry => by simp at entry
      | create | take | call | fireAlone | tickEvent | stale | drained | fire | tickDone
      | oneShotDone | repeatDone | destroy => simp at new
  silent := by
    refine inv.silent.append (fun p removed cleared kind called => ?_)
      (neverAgain_short fun p kind called q removed cleared => ?_)
    · obtain ⟨t, hp, out⟩ := inv.gone p removed cleared
      obtain ⟨t', hp', entry⟩ := inv.started_pooled keyed effect called
      rw [Option.some.inj (hp'.symm.trans hp)] at entry
      exact out entry
    · cases effect <;> simp at called cleared

end Steps

/-- **A cleared timer is not called**, in every run in which `createTimer` gives out no
identifier that is in use and no tick clears the timer whose call is waiting for it. -/
theorem cleared_never_called (ms : List Move) (ok : Meets History.step NotInOwnTicks .init ms) :
    Always History.step (fun h => NeverAgain h.log) .init ms :=
  (always_of_effects (fun _ _ _ _ _ _ keyed inv hc effect => NoneCalled.step keyed inv hc effect)
    noneCalled_init ok).imp fun _ inv => inv.silent

/-- A timeout whose ticks clear an interval, and an interval that clears itself. -/
theorem cleared_never_called_example : Always History.step (fun h => NeverAgain h.log) .init
    [.create (.setTimeout 10), .create (.setInterval 5), .create (.setInterval 5),
      .create .nextTick, .fire 0, .tick, .clear 1, .returns, .tick, .returns, .fire 2, .tick,
      .clear 2, .returns] :=
  cleared_never_called _ (by decide)

/-- A tick clears the timeout that is waiting for it, and the timeout is called. -/
theorem called_after_clear : ¬ Always History.step (fun h => NeverAgain h.log) .init
    [.create (.setTimeout 10), .create .nextTick, .fire 0, .tick, .clear 0, .returns, .tick] := by
  intro all
  have last : ∃ h, run History.step .init
      [.create (.setTimeout 10), .create .nextTick, .fire 0, .tick, .clear 0, .returns, .tick] =
        some h ∧ h.log = [.created 0 (.setTimeout 10), .created 1 .nextTick, .started 1 .tick] ++
          .cleared 0 (some 0) :: [.returned 1, .drained [], .started 0 .oneShot] := ⟨_, rfl, rfl⟩
  obtain ⟨h, hrun, hlog⟩ := last
  exact all.last hrun 0 (some 0) _ _ hlog .oneShot (by simp)

end ThreadJs.Timers
