import ThreadJs.Timers.Effect

/-!
The order in which ticks run.

`push_tick` puts a tick at the back of the queue, and `do_tick` takes it from the back:
of two that are queued the later one runs first. So the order of the calls of
`_next_tick` is kept as long as `do_tick` finds no second tick that is still to run.
-/

namespace ThreadJs.Timers

open Function Machine

def Event.tickStart : Event → Option Nat
  | .started p .tick => some p
  | _ => none

/-- The ticks whose callbacks were called, in that order. Timers are numbered as they are
created. -/
def tickStarts (log : List Event) : List Nat := log.filterMap Event.tickStart

/-- The tick that is to run when `do_tick` takes `id` from its queue. -/
def State.tickAt (s : State) (id : TimerId) : Option Nat :=
  (s.pool id).filter fun p => (s.heap p).any fun t => t.kind = .tick

/-- No other queued tick is still to run when `do_tick` takes one. -/
def TakesOnlyTick (h : History) : Move → Prop
  | .tick => ∀ id ∈ h.state.tickQueue.getLast?, (h.state.tickAt id).isSome →
      ∀ other ∈ h.state.tickQueue, other ≠ id → h.state.tickAt other = none
  | _ => True

/-- By the queue, as there are too many identifiers to try them all. -/
instance (h : History) (m : Move) : Decidable (TakesOnlyTick h m) :=
  match m with
  | .tick =>
      decidable_of_iff (h.state.tickQueue.getLast?.all (fun id => (h.state.tickAt id).isNone ||
        h.state.tickQueue.all fun other => other == id || (h.state.tickAt other).isNone) = true) (by
          rw [Option.all_eq_true]
          refine forall₂_congr fun id _ => ?_
          cases h.state.tickAt id with
          | none => simp
          | some p => simp [or_iff_not_imp_left])
  | .create _ | .clear _ | .tickEvent | .fire _ | .returns | .destroy => isTrue trivial

structure TicksInOrder (h : History) : Prop where
  ordered : (tickStarts h.log).Pairwise (· < ·)
  started : ∀ q ∈ tickStarts h.log, q < h.state.size
  /-- A tick of the pool is queued. -/
  queued : ∀ id p t, h.state.pool id = some p → h.state.heap p = some t → t.kind = .tick →
    id ∈ h.state.tickQueue
  /-- The ticks that are still to run are newer than those that have run. -/
  newer : ∀ id p t, h.state.pool id = some p → h.state.heap p = some t → t.kind = .tick →
    ∀ q ∈ tickStarts h.log, q < p

theorem tickAt_eq {s : State} {id : TimerId} {p : Nat} {t : Timer} (hid : s.pool id = some p)
    (hp : s.heap p = some t) (kind : t.kind = .tick) : s.tickAt id = some p := by
  simp [State.tickAt, hid, Option.filter, hp, kind]

theorem ticksInOrder_init : TicksInOrder .init where
  ordered := .nil
  started q hq := by cases hq
  queued id p t hid := by cases hid
  newer id p t hid := by cases hid

theorem tickStarts_append (log ev : List Event) :
    tickStarts (log ++ ev) = tickStarts log ++ tickStarts ev := List.filterMap_append

theorem tickStarts_started_of_ne {p : Nat} {kind : Kind} (h : kind ≠ .tick) :
    tickStarts [.started p kind] = [] := by
  cases kind with
  | tick => exact absurd rfl h
  | oneShot => rfl
  | repeating => rfl

theorem mem_dropLast {l : List TimerId} {id other : TimerId} (last : l.getLast? = some id)
    (mem : other ∈ l) (ne : other ≠ id) : other ∈ l.dropLast := by
  obtain ⟨front, rfl⟩ := List.getLast?_eq_some_iff.mp last
  rw [List.dropLast_concat]
  exact (List.mem_append.mp mem).resolve_right fun h => ne (List.mem_singleton.mp h)

section Steps

variable {s u : State} {held : Bool} {log ev : List Event} {m : Move}

/-- A step that starts no tick. -/
theorem TicksInOrder.of_quiet (keyed : Keyed s) (inv : TicksInOrder ⟨s, held, log⟩)
    (effect : Effect s m u ev) (quiet : tickStarts ev = [])
    (queued : ∀ id p t, s.pool id = some p → u.pool id = some p → s.heap p = some t →
      t.kind = .tick → id ∈ s.tickQueue → id ∈ u.tickQueue)
    (created : ∀ r, m = .create r → r.kind = .tick → s.lastId + 1 ∈ u.tickQueue) (held' : Bool) :
    TicksInOrder ⟨u, held', log ++ ev⟩ := by
  have same : tickStarts (log ++ ev) = tickStarts log := by
    rw [tickStarts_append, quiet, List.append_nil]
  -- An entry of the pool is an old one or the new timer.
  have entries : ∀ id p t, u.pool id = some p → u.heap p = some t → t.kind = .tick →
      (∃ t', s.pool id = some p ∧ s.heap p = some t' ∧ t'.kind = .tick) ∨
        (p = s.size ∧ id ∈ u.tickQueue) := by
    intro id p t hid hp kind
    rcases effect.heap_cases hp with ⟨t', hp, later⟩ | ⟨rfl, r, rfl, rfl⟩
    · exact .inl ⟨t', effect.pool_old keyed hp hid, hp, later.kind.symm.trans kind⟩
    · obtain rfl := effect.pool_new keyed hid
      exact .inr ⟨rfl, created r rfl kind⟩
  refine ⟨same ▸ inv.ordered, fun q hq => ?_, fun id p t hid hp kind => ?_,
    fun id p t hid hp kind q hq => ?_⟩
  · exact Nat.lt_of_lt_of_le (inv.started q (same ▸ hq)) effect.size_le
  · rcases entries id p t hid hp kind with ⟨t', hid', hp, kind⟩ | ⟨-, new⟩
    · exact queued id p t' hid' hid hp kind (inv.queued id p t' hid' hp kind)
    · exact new
  · replace hq := same ▸ hq
    rcases entries id p t hid hp kind with ⟨t', hid, hp, kind⟩ | ⟨rfl, -⟩
    · exact inv.newer id p t' hid hp kind q hq
    · exact inv.started q hq

/-- `do_tick` takes a timer from the queue: of the ticks it is the only one, so all that
are still to come will be newer. -/
theorem TicksInOrder.take {used : Bool} {c : Caller} {id : TimerId} {p : Nat} {t : Timer}
    (keyed : Keyed s) (inv : TicksInOrder ⟨s, held, log⟩) (hpc : s.pc = .ticking c)
    (last : s.tickQueue.getLast? = some id) (hit : s.pool id = some p) (hp : s.heap p = some t)
    (only : t.kind = .tick → ∀ other ∈ s.tickQueue, other ≠ id → s.tickAt other = none)
    (held' : Bool) :
    TicksInOrder ⟨{ s with
      tickQueue := s.tickQueue.dropLast
      pool := update s.pool id none
      pc := .tickFn c p
      usedDeleted := used }, held', log ++ [.started p t.kind]⟩ := by
  have other : ∀ {id' : TimerId} {q : Nat}, update s.pool id none id' = some q → id' ≠ id := by
    rintro id' q hq rfl
    rw [update_self] at hq
    cases hq
  by_cases kind : t.kind = .tick
  · have none : ∀ id' q u, update s.pool id none id' = some q → s.heap q = some u →
        u.kind ≠ .tick := by
      intro id' q u hq hu hkind
      have old := update_pool hq
      have gone := only kind id' (inv.queued id' q u old hu hkind) (other hq)
      rw [tickAt_eq old hu hkind] at gone
      cases gone
    have starts : tickStarts (log ++ [.started p t.kind]) = tickStarts log ++ [p] := by
      rw [tickStarts_append, kind]
      rfl
    refine ⟨?_, fun q hq => ?_, fun id' q u hq hu hkind => ?_, fun id' q u hq hu hkind => ?_⟩
    · rw [starts, List.pairwise_append]
      refine ⟨inv.ordered, List.pairwise_singleton _ _, fun q hq q' hq' => ?_⟩
      rw [List.mem_singleton.mp hq']
      exact inv.newer id p t hit hp kind q hq
    · rw [starts, List.mem_append, List.mem_singleton] at hq
      rcases hq with hq | rfl
      · exact inv.started q hq
      · exact keyed.allocated q t hp
    · exact absurd hkind (none id' q u hq hu)
    · exact absurd hkind (none id' q u hq hu)
  · exact inv.of_quiet keyed (.take c id p t used hpc last hit hp) (tickStarts_started_of_ne kind)
      (fun id' q v _ hid' _ _ queued => mem_dropLast last queued (other hid')) nofun held'

theorem TicksInOrder.step (keyed : Keyed s) (inv : TicksInOrder ⟨s, held, log⟩)
    (only : TakesOnlyTick ⟨s, held, log⟩ m) (effect : Effect s m u ev) :
    TicksInOrder ⟨u, m.tickRef s held, log ++ ev⟩ := by
  have still : ∀ id p t, s.pool id = some p → u.pool id = some p → s.heap p = some t →
      t.kind = .tick → id ∈ s.tickQueue → id ∈ s.tickQueue := fun _ _ _ _ _ _ _ queued => queued
  have step := effect
  cases effect with
  | create r js =>
      refine inv.of_quiet keyed step rfl (fun id _ _ _ _ _ _ queued => ?_) (fun r' e kind => ?_) _
      · simp only [State.createTimer]
        split
        · exact List.mem_append_left _ queued
        · exact queued
      · rw [← Move.create.inj e] at kind
        simp only [State.createTimer, kind, if_true]
        exact List.mem_append_right _ (List.mem_singleton.mpr rfl)
  | take c id p t used hpc last hit hp =>
      refine inv.take keyed hpc last hit hp (fun kind => ?_) _
      exact only id last (by rw [tickAt_eq hit hp kind]; rfl)
  | stale c id hpc last gone =>
      refine inv.of_quiet keyed step rfl (fun other q v hid _ _ _ queued => ?_)
        (fun _ e => by cases e) _
      refine mem_dropLast last queued ?_
      rintro rfl
      exact absurd (hid.symm.trans gone) (Option.some_ne_none q)
  | call c p t used hpc own empty hp =>
      obtain ⟨t', hp', -, kind⟩ := keyed.caller c p (by rw [hpc]; rfl) own
      obtain rfl := Option.some.inj (hp.symm.trans hp')
      exact inv.of_quiet keyed step (tickStarts_started_of_ne kind) still (fun _ e => by cases e) _
  | fireAlone p t used idle hp active pooled =>
      exact inv.of_quiet keyed step (tickStarts_started_of_ne (keyed.not_tick hp active)) still
        (fun _ e => by cases e) _
  | destroy idle =>
      refine inv.of_quiet keyed step rfl (fun _ _ _ _ hid => ?_) (fun _ e => by cases e) _
      cases hid
  | miss | clear | tickEvent | drained | fire | tickDone | oneShotDone | repeatDone =>
      exact inv.of_quiet keyed step rfl still (fun _ e => by cases e) _

end Steps

/-- **Ticks run in the order of their `_next_tick` calls** in every run in which `do_tick`
never takes a tick while another is still to run. -/
theorem ticks_in_order (ms : List Move) (only : Meets History.step TakesOnlyTick .init ms) :
    Always History.step (fun h => (tickStarts h.log).Pairwise (· < ·)) .init ms :=
  (always_of_effects (fun _ _ _ _ _ _ keyed inv hc effect => TicksInOrder.step keyed inv hc effect)
    ticksInOrder_init only).imp fun _ inv => inv.ordered

/-- A tick that queues the next one, and one that is queued while a cleared one is left. -/
theorem ticks_in_order_example : Always History.step
    (fun h => (tickStarts h.log).Pairwise (· < ·)) .init
    [.create .nextTick, .tickEvent, .tick, .create .nextTick, .returns, .tick, .create .nextTick,
      .clear 2, .create .nextTick, .returns, .tick, .returns, .tick, .tick] :=
  ticks_in_order _ (by decide)

/-- Two ticks are queued, and the second one runs first. -/
theorem second_tick_first : ¬ Always History.step
    (fun h => (tickStarts h.log).Pairwise (· < ·)) .init
    [.create .nextTick, .create .nextTick, .tickEvent, .tick, .returns, .tick] := by
  decide

end ThreadJs.Timers
