import ThreadJs.Timers.History

/-!
What a step of the timers can do.

`Effect` says it once, in the terms that the invariants need: nearly every branch may
have used a deleted object on the way, which ends the run. `Keyed` is what holds in
every run, whatever is cleared and however the identifiers come round.
-/

namespace ThreadJs.Timers

open Function Machine

/-- A move, the state after it and what it adds to the log. `used` is the flag that an
object was used after its deletion. -/
inductive Effect (s : State) : Move → State → List Event → Prop where
  | create (r : Request) (js : s.inJs = true) :
      Effect s (.create r) (s.createTimer r) [.created s.size r]
  | miss (h : Nat) (t : Timer) (js : s.inJs = true) (handle : s.heap h = some t)
      (gone : s.pool t.id = none) : Effect s (.clear h) s [.cleared h none]
  | clear (h p : Nat) (t t' : Timer) (used : Bool) (js : s.inJs = true)
      (handle : s.heap h = some t) (hit : s.pool t.id = some p) (hp : s.heap p = some t') :
      Effect s (.clear h) { s with
        pool := update s.pool t.id none
        heap := update s.heap p (some t'.released)
        usedDeleted := used } [.cleared h (some p)]
  | tickEvent (idle : s.pc = .idle) (pending : s.tickPending = true) :
      Effect s .tickEvent { s with pc := .ticking .tickEvent, tickPending := false } []
  | take (c : Caller) (id : TimerId) (p : Nat) (t : Timer) (used : Bool) (hpc : s.pc = .ticking c)
      (last : s.tickQueue.getLast? = some id) (hit : s.pool id = some p) (hp : s.heap p = some t) :
      Effect s .tick { s with
        tickQueue := s.tickQueue.dropLast
        pool := update s.pool id none
        pc := .tickFn c p
        usedDeleted := used } [.started p t.kind]
  | stale (c : Caller) (id : TimerId) (hpc : s.pc = .ticking c)
      (last : s.tickQueue.getLast? = some id) (gone : s.pool id = none) :
      Effect s .tick { s with tickQueue := s.tickQueue.dropLast } []
  | drained (hpc : s.pc = .ticking .tickEvent) (empty : s.tickQueue = []) :
      Effect s .tick { s with pc := .idle } [.drained []]
  | call (c : Caller) (p : Nat) (t : Timer) (used : Bool) (hpc : s.pc = .ticking c)
      (own : c.timer = some p) (empty : s.tickQueue = []) (hp : s.heap p = some t) :
      Effect s .tick { s with pc := .fireFn c, usedDeleted := used }
        [.drained [], .started p t.kind]
  | fire (p : Nat) (t : Timer) (used : Bool) (idle : s.pc = .idle) (hp : s.heap p = some t)
      (active : t.active = true) (pooled : t.pooled = true) :
      Effect s (.fire p) { s with
        heap := update s.heap p (some t.fired)
        pc := .ticking (t.caller p)
        usedDeleted := used } []
  /-- The object is in no pool any more. -/
  | fireAlone (p : Nat) (t : Timer) (used : Bool) (idle : s.pc = .idle) (hp : s.heap p = some t)
      (active : t.active = true) (pooled : t.pooled = false) :
      Effect s (.fire p) { s with
        heap := update s.heap p (some t.fired)
        pc := .fireFn (t.caller p)
        usedDeleted := used } [.started p t.kind]
  | tickDone (c : Caller) (p : Nat) (t : Timer) (used : Bool) (hpc : s.pc = .tickFn c p)
      (hp : s.heap p = some t) :
      Effect s .returns { s with
        heap := update s.heap p (some t.released)
        pc := .ticking c
        usedDeleted := used } [.returned p]
  | oneShotDone (p : Nat) (t : Timer) (used : Bool) (hpc : s.pc = .fireFn (.oneShot p))
      (hp : s.heap p = some t) :
      Effect s .returns { s with
        heap := update s.heap p (some t.deleted)
        pool := if t.pooled && t.id != 0 then update s.pool t.id none else s.pool
        pc := .idle
        usedDeleted := used } [.returned p]
  | repeatDone (p : Nat) (hpc : s.pc = .fireFn (.repeating p)) :
      Effect s .returns { s with pc := .idle } [.returned p]
  | destroy (idle : s.pc = .idle) : Effect s .destroy s.destroy []

/-- The caller of `do_tick`, from its call until the function of the caller's own timer
returns. -/
def Pc.caller : Pc → Option Caller
  | .ticking c | .tickFn c _ | .fireFn c => some c
  | .idle | .destroyed => none

/-- The timer that `do_tick` is calling. -/
def Pc.ticked : Pc → Option Nat
  | .tickFn _ p => some p
  | _ => none

/-- What holds in every run: entries of the pool and of the C++ stack are objects, under
their own identifier. -/
structure Keyed (s : State) : Prop where
  allocated : ∀ p t, s.heap p = some t → p < s.size
  entry : ∀ id p, s.pool id = some p → ∃ t, s.heap p = some t ∧ t.id = id
  ticked : ∀ p, s.pc.ticked = some p → ∃ t, s.heap p = some t
  caller : ∀ c p, s.pc.caller = some c → c.timer = some p →
    ∃ t, s.heap p = some t ∧ t.caller p = c ∧ t.kind ≠ .tick
  /-- The tick event has no timer of its own. -/
  firing : s.pc ≠ .fireFn .tickEvent
  /-- The handle of a tick is never started. -/
  passive : ∀ p t, s.heap p = some t → t.kind = .tick → t.active = false

theorem start_eq {s : State} {p : Nat} {t : Timer} (hp : s.heap p = some t) :
    s.start p = [.started p t.kind] := by
  rw [State.start, hp]
  rfl

theorem Keyed.clearTime_effect {s : State} (keyed : Keyed s) {h : Nat} {t : Timer}
    (js : s.inJs = true) (handle : s.heap h = some t) :
    Effect s (.clear h) (s.clearTime t.id) (Move.events s (.clear h)) := by
  have out : Move.events s (.clear h) = [.cleared h (s.pool t.id)] := by
    simp [Move.events, handle]
  rw [out]
  cases hit : s.pool t.id with
  | none =>
      have after : s.clearTime t.id = s := by simp only [State.clearTime, hit]
      exact after.symm ▸ .miss h t js handle hit
  | some p =>
      obtain ⟨t', hp, -⟩ := keyed.entry t.id p hit
      have after : s.clearTime t.id = (s.pop t.id).release p := by simp only [State.clearTime, hit]
      rw [after, release_eq (s := s.pop t.id) hp]
      exact .clear h p t t' _ js handle hit hp

theorem Keyed.doTick_effect {s : State} (keyed : Keyed s) {c : Caller} (hpc : s.pc = .ticking c) :
    Effect s .tick (s.doTick c) (Move.events s .tick) := by
  cases last : s.tickQueue.getLast? with
  | some id =>
      have out : Move.events s .tick = (s.pool id).toList.flatMap s.start := by
        simp only [Move.events, hpc, last]
      rw [out]
      cases hit : s.pool id with
      | some p =>
          obtain ⟨t, hp, -⟩ := keyed.entry id p hit
          have entered :=
            enter_eq (s := State.pop { s with tickQueue := s.tickQueue.dropLast } id) hp
          have after : s.doTick c = { s with
              tickQueue := s.tickQueue.dropLast
              pool := update s.pool id none
              pc := .tickFn c p
              usedDeleted := s.usedDeleted || decide (t.deletes ≠ 0) } := by
            simp only [State.doTick, last, hit]
            rw [entered]
            rfl
          rw [after, Option.toList_some, List.flatMap_singleton, start_eq hp]
          exact .take c id p t _ hpc last hit hp
      | none =>
          have after : s.doTick c = { s with tickQueue := s.tickQueue.dropLast } := by
            simp only [State.doTick, last, hit]
          rw [after]
          exact .stale c id hpc last hit
  | none =>
      have empty := List.getLast?_eq_none_iff.mp last
      have out : Move.events s .tick = .drained [] :: c.timer.toList.flatMap s.start := by
        simp only [Move.events, hpc, empty, List.getLast?_nil]
      rw [out]
      cases own : c.timer with
      | none =>
          obtain rfl : c = .tickEvent := by cases c <;> simp [Caller.timer] at own ⊢
          have after : s.doTick .tickEvent = { s with pc := .idle } := by
            simp only [State.doTick, last]
          rw [after]
          exact .drained hpc empty
      | some p =>
          obtain ⟨t, hp, -⟩ := keyed.caller c p (by rw [hpc]; rfl) own
          have after : s.doTick c = { s with
              pc := .fireFn c
              usedDeleted := s.usedDeleted || decide (t.deletes ≠ 0) } := by
            cases c <;> simp only [Caller.timer, Option.some.injEq, reduceCtorEq] at own <;>
              simp only [State.doTick, last, own, enter_eq hp]
          rw [after, Option.toList_some, List.flatMap_singleton, start_eq hp]
          exact .call c p t _ hpc own empty hp

theorem fire_effect {s : State} {p : Nat} {t : Timer} (idle : s.pc = .idle)
    (hp : s.heap p = some t) (active : t.active = true) :
    Effect s (.fire p) (s.fire p t) (Move.events s (.fire p)) := by
  cases pooled : t.pooled with
  | true =>
      have out : Move.events s (.fire p) = [] := by simp [Move.events, hp, pooled]
      have after : s.fire p t = { s with
          heap := update s.heap p (some t.fired)
          pc := .ticking (t.caller p)
          usedDeleted := s.usedDeleted || decide (t.deletes ≠ 0) } := by
        simp only [State.fire, enter_eq hp, pooled, if_true, Timer.fired, Timer.caller]
      rw [out, after]
      exact .fire p t _ idle hp active pooled
  | false =>
      have out : Move.events s (.fire p) = [.started p t.kind] := by
        simp [Move.events, hp, pooled, start_eq hp]
      have after : s.fire p t = { s with
          heap := update s.heap p (some t.fired)
          pc := .fireFn (t.caller p)
          usedDeleted := s.usedDeleted || decide (t.deletes ≠ 0) } := by
        simp only [State.fire, enter_eq hp, pooled, Bool.false_eq_true, if_false, Timer.fired,
          Timer.caller]
      rw [out, after]
      exact .fireAlone p t _ idle hp active pooled

/-- Every step has one of the effects. -/
theorem action_effect {s u : State} {m : Move} {a : Action} (keyed : Keyed s)
    (ha : m.action s = some a) (hu : Timers.step s a = some u) : Effect s m u (m.events s) := by
  have alive : ¬ s.usedDeleted = true := fun used => by simp [Timers.step, used] at hu
  unfold Timers.step at hu
  rw [if_neg alive] at hu
  cases m with
  | create r =>
      obtain rfl := Option.some.inj ha
      obtain ⟨js, hu⟩ := Option.ite_none_right_eq_some.mp hu
      obtain rfl := Option.some.inj hu
      exact .create r js
  | clear h =>
      obtain ⟨t, handle, rfl⟩ := Option.map_eq_some_iff.mp ha
      obtain ⟨js, hu⟩ := Option.ite_none_right_eq_some.mp hu
      obtain rfl := Option.some.inj hu
      rw [readId_hiddenId]
      exact keyed.clearTime_effect js handle
  | tickEvent =>
      obtain rfl := Option.some.inj ha
      obtain ⟨⟨idle, pending⟩, hu⟩ := Option.ite_none_right_eq_some.mp hu
      obtain rfl := Option.some.inj hu
      exact .tickEvent idle pending
  | tick =>
      obtain rfl := Option.some.inj ha
      dsimp only at hu
      split at hu
      · next c hpc =>
          obtain rfl := Option.some.inj hu
          exact keyed.doTick_effect hpc
      · cases hu
  | fire p =>
      obtain rfl := Option.some.inj ha
      dsimp only at hu
      split at hu
      · next t idle hp =>
          obtain ⟨active, hu⟩ := Option.ite_none_right_eq_some.mp hu
          obtain rfl := Option.some.inj hu
          exact fire_effect idle hp active
      · cases hu
  | returns =>
      obtain rfl := Option.some.inj ha
      dsimp only at hu
      split at hu
      · next c p hpc =>
          obtain rfl := Option.some.inj hu
          obtain ⟨t, hp⟩ := keyed.ticked p (by rw [hpc]; rfl)
          have out : Move.events s .returns = [.returned p] := by simp only [Move.events, hpc]
          rw [out, release_eq hp]
          exact .tickDone c p t _ hpc hp
      · next p hpc =>
          obtain rfl := Option.some.inj hu
          obtain ⟨t, hp, -⟩ := keyed.caller (.oneShot p) p (by rw [hpc]; rfl) rfl
          have out : Move.events s .returns = [.returned p] := by
            simp only [Move.events, hpc, Caller.timer, Option.map_some, Option.toList_some]
          rw [out, delete_eq hp]
          exact .oneShotDone p t _ hpc hp
      · next c other hpc =>
          obtain rfl := Option.some.inj hu
          cases c with
          | tickEvent => exact absurd hpc keyed.firing
          | oneShot q => exact absurd rfl (other q)
          | repeating q =>
              have out : Move.events s .returns = [.returned q] := by
                simp only [Move.events, hpc, Caller.timer, Option.map_some, Option.toList_some]
              rw [out]
              exact .repeatDone q hpc
      · cases hu
  | destroy =>
      obtain rfl := Option.some.inj ha
      obtain ⟨idle, hu⟩ := Option.ite_none_right_eq_some.mp hu
      obtain rfl := Option.some.inj hu
      exact .destroy idle

theorem step_effect {h h' : History} {m : Move} (keyed : Keyed h.state)
    (hs : h.step m = some h') : Effect h.state m h'.state (m.events h.state) ∧
      h'.log = h.log ++ m.events h.state ∧ h'.tickRef = m.tickRef h.state h.tickRef := by
  obtain ⟨u, hu, rfl⟩ := Option.map_eq_some_iff.mp hs
  obtain ⟨a, ha, hu⟩ := Option.bind_eq_some_iff.mp hu
  exact ⟨action_effect keyed ha hu, rfl, rfl⟩

/-! ### Objects and entries over a step -/

/-- The object at a later moment: it stays what it is, and its handle is started only
once. -/
structure Timer.Later (t t' : Timer) : Prop where
  id : t'.id = t.id
  kind : t'.kind = t.kind
  active : t'.active = true → t.active = true
  deletes : t.deletes ≤ t'.deletes

theorem Timer.Later.refl (t : Timer) : t.Later t := ⟨rfl, rfl, fun h => h, Nat.le_refl _⟩

theorem Timer.released_later (t : Timer) : t.Later t.released :=
  ⟨rfl, rfl, fun h => (by cases h), Nat.le_succ _⟩

theorem Timer.deleted_later (t : Timer) : t.Later t.deleted :=
  ⟨rfl, rfl, fun h => (by cases h), Nat.le_succ _⟩

theorem Timer.fired_later {t : Timer} (active : t.active = true) : t.Later t.fired :=
  ⟨rfl, rfl, fun _ => active, Nat.le_refl _⟩

theorem Timer.Later.caller {t t' : Timer} (h : t.Later t') (p : Nat) :
    t'.caller p = t.caller p := by
  rw [Timer.caller, Timer.caller, h.kind]

theorem Timer.caller_timer (t : Timer) (p : Nat) : (t.caller p).timer = some p := by
  unfold Timer.caller
  split <;> rfl

theorem update_heap_kept {heap : Nat → Option Timer} {p q : Nat} {t t' u : Timer}
    (hp : heap p = some t) (later : t.Later t') (hq : heap q = some u) :
    ∃ u', update heap p (some t') q = some u' ∧ u.Later u' := by
  by_cases e : q = p
  · subst e
    rw [Option.some.inj (hq.symm.trans hp)]
    exact ⟨t', update_self .., later⟩
  · exact ⟨u, (update_of_ne e ..).trans hq, .refl u⟩

namespace Effect

variable {s u : State} {m : Move} {ev : List Event}

/-- An object after a step is an old one or the timer that was created. -/
theorem heap_cases (effect : Effect s m u ev) {p : Nat} {t' : Timer} (hp : u.heap p = some t') :
    (∃ t, s.heap p = some t ∧ t.Later t') ∨ p = s.size ∧ ∃ r, m = .create r ∧
      t' = ⟨s.lastId + 1, true, r.kind, decide (r.kind ≠ .tick), 0⟩ := by
  have overwritten : ∀ {q v v'}, s.heap q = some v → v.Later v' →
      update s.heap q (some v') p = some t' → ∃ t, s.heap p = some t ∧ t.Later t' := by
    intro q v v' hq later hp
    rcases update_heap_cases hp with ⟨rfl, rfl⟩ | ⟨-, hp⟩
    · exact ⟨v, hq, later⟩
    · exact ⟨t', hp, .refl t'⟩
  cases effect with
  | create r js =>
      rw [State.createTimer_heap, update_apply] at hp
      split at hp
      · next new => exact .inr ⟨new, r, rfl, (Option.some.inj hp).symm⟩
      · exact .inl ⟨t', hp, .refl t'⟩
  | clear hd q v v' used js handle hit hq => exact .inl (overwritten hq v'.released_later hp)
  | fire q v used idle hq active pooled => exact .inl (overwritten hq (v.fired_later active) hp)
  | fireAlone q v used idle hq active pooled =>
      exact .inl (overwritten hq (v.fired_later active) hp)
  | tickDone c q v used hpc hq => exact .inl (overwritten hq v.released_later hp)
  | oneShotDone q v used hpc hq => exact .inl (overwritten hq v.deleted_later hp)
  | destroy idle =>
      rw [destroy_eq] at hp
      dsimp only at hp
      split at hp
      · obtain ⟨t, hp', rfl⟩ := Option.map_eq_some_iff.mp hp
        exact .inl ⟨t, hp', t.released_later⟩
      · exact .inl ⟨t', hp, .refl t'⟩
  | miss | tickEvent | take | stale | drained | call | repeatDone => exact .inl ⟨t', hp, .refl t'⟩

/-- An entry of the pool after a step is an old one or the timer that was created. -/
theorem pool_cases (effect : Effect s m u ev) {id : TimerId} {p : Nat} (hid : u.pool id = some p) :
    s.pool id = some p ∨ p = s.size ∧ id = s.lastId + 1 ∧ ∃ r, m = .create r := by
  cases effect with
  | create r js =>
      simp only [State.createTimer] at hid
      split at hid
      · exact .inl hid
      · rw [update_apply] at hid
        split at hid
        · next new => exact .inr ⟨(Option.some.inj hid).symm, new, r, rfl⟩
        · exact .inl hid
  | clear | take => exact .inl (update_pool hid)
  | oneShotDone =>
      dsimp only at hid
      split at hid
      · exact .inl (update_pool hid)
      · exact .inl hid
  | destroy idle => cases hid
  | miss | tickEvent | stale | drained | call | fire | fireAlone | tickDone | repeatDone =>
      exact .inl hid

/-- An object that there was gets no entry. -/
theorem pool_old (effect : Effect s m u ev) (keyed : Keyed s) {id : TimerId} {p : Nat} {t : Timer}
    (hp : s.heap p = some t) (hid : u.pool id = some p) : s.pool id = some p := by
  rcases effect.pool_cases hid with old | ⟨rfl, -⟩
  · exact old
  · exact absurd (keyed.allocated _ t hp) (Nat.lt_irrefl _)

/-- The entry of the timer that was created. -/
theorem pool_new (effect : Effect s m u ev) (keyed : Keyed s) {id : TimerId}
    (hid : u.pool id = some s.size) : id = s.lastId + 1 := by
  rcases effect.pool_cases hid with old | ⟨-, new, -⟩
  · obtain ⟨t, hp, -⟩ := keyed.entry id _ old
    exact absurd (keyed.allocated _ t hp) (Nat.lt_irrefl _)
  · exact new

theorem size_le (effect : Effect s m u ev) : s.size ≤ u.size := by
  cases effect with
  | create r js => exact Nat.le_succ _
  | destroy idle =>
      apply Nat.le_of_eq
      rw [destroy_eq]
  | miss | clear | tickEvent | take | stale | drained | call | fire | fireAlone | tickDone
  | oneShotDone | repeatDone => exact Nat.le_refl _

/-- The objects that there are stay. -/
theorem kept (effect : Effect s m u ev) (keyed : Keyed s) {p : Nat} {t : Timer}
    (hp : s.heap p = some t) : ∃ t', u.heap p = some t' ∧ t.Later t' := by
  cases effect with
  | create r js =>
      rw [State.createTimer_heap, update_of_ne (Nat.ne_of_lt (keyed.allocated p t hp))]
      exact ⟨t, hp, .refl t⟩
  | clear hd q v v' used js handle hit hq => exact update_heap_kept hq v'.released_later hp
  | fire q v used idle hq active pooled => exact update_heap_kept hq (v.fired_later active) hp
  | fireAlone q v used idle hq active pooled => exact update_heap_kept hq (v.fired_later active) hp
  | tickDone c q v used hpc hq => exact update_heap_kept hq v.released_later hp
  | oneShotDone q v used hpc hq => exact update_heap_kept hq v.deleted_later hp
  | destroy idle =>
      rw [destroy_eq]
      dsimp only
      rw [hp]
      split
      · exact ⟨_, rfl, t.released_later⟩
      · exact ⟨t, rfl, .refl t⟩
  | miss | tickEvent | take | stale | drained | call | repeatDone => exact ⟨t, hp, .refl t⟩

theorem caller_cases (effect : Effect s m u ev) {c : Caller} (hpc : u.pc.caller = some c) :
    s.pc.caller = some c ∨ c = .tickEvent ∨
      ∃ p t, s.heap p = some t ∧ t.active = true ∧ u.heap p = some t.fired ∧ c = t.caller p := by
  cases effect with
  | create | miss | clear | stale => exact .inl hpc
  | tickEvent idle pending => exact .inr (.inl (Option.some.inj hpc).symm)
  | take c' id p t used hpc' last hit hp =>
      rw [hpc']
      exact .inl hpc
  | call c' p t used hpc' own empty hp =>
      rw [hpc']
      exact .inl hpc
  | tickDone c' p t used hpc' hp =>
      rw [hpc']
      exact .inl hpc
  | fire p t used idle hp active pooled =>
      exact .inr (.inr ⟨p, t, hp, active, update_self .., (Option.some.inj hpc).symm⟩)
  | fireAlone p t used idle hp active pooled =>
      exact .inr (.inr ⟨p, t, hp, active, update_self .., (Option.some.inj hpc).symm⟩)
  | drained | oneShotDone | repeatDone | destroy => cases hpc

theorem ticked_cases (effect : Effect s m u ev) {p : Nat} (hpc : u.pc.ticked = some p) :
    s.pc.ticked = some p ∨ ∃ t, s.heap p = some t := by
  cases effect with
  | create | miss | clear | stale => exact .inl hpc
  | take c id q t used hpc' last hit hp => exact .inr ⟨t, Option.some.inj hpc ▸ hp⟩
  | tickEvent | drained | call | fire | fireAlone | tickDone | oneShotDone | repeatDone | destroy =>
      cases hpc

end Effect

/-! ### What every run keeps -/

theorem keyed_init : Keyed Timers.init where
  allocated p t hp := by cases hp
  entry id p hid := by cases hid
  ticked p hpc := by cases hpc
  caller c p hpc := by cases hpc
  firing hpc := by cases hpc
  passive p t hp := by cases hp

namespace Keyed

variable {s u : State} (h : Keyed s)

include h

/-- The entry of an object is under its own identifier. -/
theorem entry_id {id : TimerId} {p : Nat} {t : Timer} (hid : s.pool id = some p)
    (hp : s.heap p = some t) : id = t.id := by
  obtain ⟨t', hp', rfl⟩ := h.entry id p hid
  rw [Option.some.inj (hp.symm.trans hp')]

/-- Once the entry of an object is taken out, the pool does not hold it. -/
theorem pop_self {id : TimerId} {p : Nat} (hid : s.pool id = some p) (other : TimerId) :
    update s.pool id none other ≠ some p := by
  intro left
  obtain ⟨t, hp, -⟩ := h.entry id p hid
  have same : other = id := (h.entry_id (update_pool left) hp).trans (h.entry_id hid hp).symm
  rw [same, update_self] at left
  cases left

theorem not_tick {p : Nat} {t : Timer} (hp : s.heap p = some t) (active : t.active = true) :
    t.kind ≠ .tick := by
  intro kind
  exact absurd (active.symm.trans (h.passive p t hp kind)) nofun

theorem step {m : Move} {ev : List Event} (effect : Effect s m u ev) : Keyed u where
  allocated p t hp := by
    rcases effect.heap_cases hp with ⟨t', hp, -⟩ | ⟨rfl, r, rfl, -⟩
    · exact Nat.lt_of_lt_of_le (h.allocated p t' hp) effect.size_le
    · cases effect
      exact Nat.lt_succ_self _
  entry id p hid := by
    rcases effect.pool_cases hid with hid | ⟨rfl, rfl, r, rfl⟩
    · obtain ⟨t, hp, rfl⟩ := h.entry id p hid
      obtain ⟨t', hp', later⟩ := effect.kept h hp
      exact ⟨t', hp', later.id⟩
    · cases effect
      exact ⟨_, update_self .., rfl⟩
  ticked p hpc := by
    obtain ⟨t, hp⟩ : ∃ t, s.heap p = some t :=
      (effect.ticked_cases hpc).elim (h.ticked p) fun object => object
    obtain ⟨t', hp', -⟩ := effect.kept h hp
    exact ⟨t', hp'⟩
  caller c p hpc own := by
    obtain ⟨t, hp, rfl, kind⟩ : ∃ t, s.heap p = some t ∧ t.caller p = c ∧ t.kind ≠ .tick := by
      rcases effect.caller_cases hpc with hpc | rfl | ⟨q, t, hq, active, -, rfl⟩
      · exact h.caller c p hpc own
      · cases own
      · obtain rfl := Option.some.inj ((t.caller_timer q).symm.trans own)
        exact ⟨t, hq, rfl, h.not_tick hq active⟩
    obtain ⟨t', hp', later⟩ := effect.kept h hp
    exact ⟨t', hp', later.caller p, later.kind ▸ kind⟩
  firing hpc := by
    cases effect with
    | create | miss | clear | stale => exact h.firing hpc
    | call c p t used hpc' own empty hp =>
        cases hpc
        cases own
    | fireAlone p t used idle hp active pooled =>
        have own := t.caller_timer p
        rw [Pc.fireFn.inj hpc] at own
        cases own
    | tickEvent | take | drained | fire | tickDone | oneShotDone | repeatDone | destroy => cases hpc
  passive p t hp kind := by
    rcases effect.heap_cases hp with ⟨t', hp, later⟩ | ⟨-, r, -, rfl⟩
    · have passive := h.passive p t' hp (later.kind.symm.trans kind)
      exact Bool.eq_false_iff.mpr fun active => absurd (later.active active) (by simp [passive])
    · simpa using kind

end Keyed

/-- An invariant of the runs under a condition, step by step. -/
theorem always_of_effects {C : History → Move → Prop} {I : History → Prop}
    (keep : ∀ s held log m u ev, Keyed s → I ⟨s, held, log⟩ → C ⟨s, held, log⟩ m →
      Effect s m u ev → I ⟨u, m.tickRef s held, log ++ ev⟩)
    (init : I .init) {ms : List Move} (meets : Meets History.step C .init ms) :
    Always History.step I .init ms := by
  have both : Always History.step (fun h => Keyed h.state ∧ I h) .init ms := by
    refine Always.of_invariant ?_ ⟨keyed_init, init⟩ meets
    intro ⟨s, held, log⟩ m h' ⟨keyed, inv⟩ hc hs
    obtain ⟨effect, hlog, href⟩ := step_effect keyed hs
    obtain ⟨u, held', log'⟩ := h'
    obtain rfl : log' = log ++ m.events s := hlog
    obtain rfl : held' = m.tickRef s held := href
    exact ⟨keyed.step effect, keep s held log m u _ keyed inv hc effect⟩
  exact both.imp fun _ hh => hh.2

end ThreadJs.Timers
