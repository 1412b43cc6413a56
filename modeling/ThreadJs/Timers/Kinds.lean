import ThreadJs.Timers.Cleared
import ThreadJs.Timers.TickQueue

/-!
Intervals and one-shot timers over whole runs.

`Timer::start` takes the kind of a timer from its repeat value, which for `setInterval` is
the delay that the script passes: an interval of 0 is a one-shot timer. One that has been
called leaves the pool when `timeout_one_cb` deletes it, unless its identifier is 0.
-/

namespace ThreadJs.Timers

open Function Machine

/-- `setTimeout` and `setImmediate`. -/
def Request.once : Request → Bool
  | .setTimeout _ | .setImmediate => true
  | .setInterval _ | .nextTick => false

/-- `createTimer` gives out an unused identifier, not 0 to a one-shot timer, and the delay
of an interval is not 0. -/
def SafeCreation (h : History) : Move → Prop
  | .create r => Unused h.state r ∧ (r.kind = .oneShot → h.state.lastId + 1 ≠ 0) ∧
      r ≠ .setInterval 0
  | _ => True

instance (h : History) (m : Move) : Decidable (SafeCreation h m) :=
  match m with
  | .create _ => inferInstanceAs (Decidable (_ ∧ _ ∧ _))
  | .clear _ | .tickEvent | .tick | .fire _ | .returns | .destroy => isTrue trivial

structure KindsKept (h : History) : Prop where
  /-- An interval stays in the pool and scheduled until it is cleared or the pool goes. -/
  interval : h.state.pc ≠ .destroyed → ∀ p delay, .created p (.setInterval delay) ∈ h.log →
    removed h.log p = false →
      ∃ t, h.state.heap p = some t ∧ h.state.pool t.id = some p ∧ t.active = true
  /-- A one-shot timer that is neither cleared nor done is in the pool, and scheduled until
  the loop calls it. -/
  waiting : h.state.pc ≠ .destroyed → ∀ p r, .created p r ∈ h.log → r.once = true →
    removed h.log p = false → .returned p ∉ h.log →
      ∃ t, h.state.heap p = some t ∧ h.state.pool t.id = some p ∧
        (t.active = true ∨ h.state.pc.caller = some (.oneShot p))
  /-- Its callback runs once, and then it has left the pool. -/
  once : ∀ p r, .created p r ∈ h.log → r.once = true → starts h.log p ≤ 1 ∧
    (.returned p ∈ h.log → starts h.log p = 1 ∧ ∀ id, h.state.pool id ≠ some p)

/-- The timer that an event is about. -/
def Event.subject : Event → Option Nat
  | .created p _ | .started p _ | .returned p => some p
  | .cleared _ removed => removed
  | .drained _ => none

/-- The one-shot timer `t` at `p`, from its creation to its end. -/
structure Once (h : History) (p : Nat) (t : Timer) : Prop where
  nonzero : t.id ≠ 0
  scheduled : t.active = true → starts h.log p = 0 ∧
    ∀ c, h.state.pc.caller = some c → c.timer ≠ some p
  pending : h.state.pc.pending = some p → starts h.log p = 0
  called : h.state.pc = .fireFn (.oneShot p) → starts h.log p = 1
  le_one : starts h.log p ≤ 1
  returned : .returned p ∈ h.log → starts h.log p = 1 ∧ (∀ id, h.state.pool id ≠ some p) ∧
    ∀ c, h.state.pc.caller = some c → c.timer ≠ some p

structure KindsTold (h : History) : Prop where
  sound : Sound h.state
  onlyTicks : OnlyTicksQueued h.state
  /-- `do_tick` calls ticks only. -/
  ticked : ∀ p t, h.state.pc.ticked = some p → h.state.heap p = some t → t.kind = .tick
  known : ∀ e ∈ h.log, ∀ p ∈ e.subject, p < h.state.size
  kinds : ∀ p r, .created p r ∈ h.log → r ≠ .setInterval 0 ∧
    ∃ t, h.state.heap p = some t ∧ t.kind = r.kind
  gone : ∀ p, removed h.log p = true → ∀ id, h.state.pool id ≠ some p
  resident : h.state.pc ≠ .destroyed → ∀ p t, h.state.heap p = some t → t.kind ≠ .tick →
    removed h.log p = false → (t.kind = .oneShot → .returned p ∉ h.log) →
      h.state.pool t.id = some p ∧
        (t.active = true ∨ h.state.pc.caller = some (.oneShot p) ∧ t.kind = .oneShot)
  once : ∀ p t, h.state.heap p = some t → t.kind = .oneShot → Once h p t

theorem Request.kind_of_once {r : Request} (once : r.once = true) : r.kind = .oneShot := by
  cases r with
  | setTimeout | setImmediate => rfl
  | setInterval | nextTick => cases once

theorem KindsTold.kept {h : History} (inv : KindsTold h) : KindsKept h where
  interval alive p delay made left := by
    obtain ⟨nonzero, t, hp, kind⟩ := inv.kinds p _ made
    have repeating : t.kind = .repeating := by
      rw [kind, Request.kind, if_neg]
      rintro rfl
      exact nonzero rfl
    obtain ⟨entry, active | ⟨-, oneShot⟩⟩ := inv.resident alive p t hp (by rw [repeating]; decide)
      left (fun oneShot => absurd (repeating.symm.trans oneShot) (by decide))
    · exact ⟨t, hp, entry, active⟩
    · exact absurd (repeating.symm.trans oneShot) (by decide)
  waiting alive p r made once left pending := by
    obtain ⟨-, t, hp, kind⟩ := inv.kinds p r made
    have oneShot := kind.trans (Request.kind_of_once once)
    obtain ⟨entry, scheduled⟩ := inv.resident alive p t hp (by rw [oneShot]; decide) left
      fun _ => pending
    exact ⟨t, hp, entry, scheduled.imp_right And.left⟩
  once p r made once := by
    obtain ⟨-, t, hp, kind⟩ := inv.kinds p r made
    have once := inv.once p t hp (kind.trans (Request.kind_of_once once))
    exact ⟨once.le_one, fun done => ⟨(once.returned done).1, (once.returned done).2.1⟩⟩

theorem kindsTold_init : KindsTold .init where
  sound := sound_init
  onlyTicks id hid := by cases hid
  ticked p t hpc := by cases hpc
  known e he := by cases he
  kinds p r made := by cases made
  gone p h := by cases h
  resident _ p t hp := by cases hp
  once p t hp := by cases hp

theorem Pc.caller_of_pending {pc : Pc} {p : Nat} (h : pc.pending = some p) :
    ∃ c, pc.caller = some c ∧ c.timer = some p := by
  cases pc with
  | ticking c | tickFn c q => exact ⟨c, rfl, h⟩
  | idle | fireFn | destroyed => cases h

namespace Effect

variable {s u : State} {m : Move} {ev : List Event}

theorem subject_lt (effect : Effect s m u ev) (keyed : Keyed s) {e : Event} (he : e ∈ ev) {p : Nat}
    (hp : p ∈ e.subject) : p < u.size := by
  have object : ∀ t, s.heap p = some t → p < u.size := fun t ht =>
    Nat.lt_of_lt_of_le (keyed.allocated p t ht) effect.size_le
  cases effect with
  | create r js =>
      obtain rfl := List.mem_singleton.mp he
      obtain rfl := Option.some.inj hp
      exact Nat.lt_succ_self _
  | clear hd q t t' used js handle hit hq =>
      obtain rfl := List.mem_singleton.mp he
      obtain rfl := Option.some.inj hp
      exact object t' hq
  | take c id q t used hpc last hit hq =>
      obtain rfl := List.mem_singleton.mp he
      obtain rfl := Option.some.inj hp
      exact object t hq
  | call c q t used hpc own empty hq =>
      rcases List.mem_pair.mp he with rfl | rfl
      · cases hp
      · obtain rfl := Option.some.inj hp
        exact object t hq
  | fireAlone q t used idle hq active pooled =>
      obtain rfl := List.mem_singleton.mp he
      obtain rfl := Option.some.inj hp
      exact object t hq
  | tickDone c q t used hpc hq | oneShotDone q t used hpc hq =>
      obtain rfl := List.mem_singleton.mp he
      obtain rfl := Option.some.inj hp
      exact object t hq
  | repeatDone q hpc =>
      obtain rfl := List.mem_singleton.mp he
      obtain rfl := Option.some.inj hp
      obtain ⟨t, hq, -⟩ := keyed.caller (.repeating q) q (by rw [hpc]; rfl) rfl
      exact object t hq
  | miss =>
      obtain rfl := List.mem_singleton.mp he
      cases hp
  | drained =>
      obtain rfl := List.mem_singleton.mp he
      cases hp
  | tickEvent | stale | fire | destroy => cases he

/-- A one-shot timer is called by `Timer::call` once the ticks are done. -/
theorem oneShot_called (effect : Effect s m u ev) (keyed : Keyed s) (sound : Sound s)
    (onlyTicks : OnlyTicksQueued s) {p : Nat} {t : Timer} (hp : s.heap p = some t)
    (kind : t.kind = .oneShot) : starts ev p = 0 ∨
      starts ev p = 1 ∧ s.pc.pending = some p ∧ u.pc = .fireFn (.oneShot p) := by
  by_contra other
  rw [not_or] at other
  obtain ⟨called, other⟩ := other
  cases effect with
  | take c id q t' used hpc last hit hq =>
      obtain rfl : q = p := by simpa [starts, Event.starts] using called
      obtain ⟨front, queue⟩ := List.getLast?_eq_some_iff.mp last
      have tick := onlyTicks id (by simp [queue]) q t hit hp
      rw [kind] at tick
      cases tick
  | call c q t' used hpc own empty hq =>
      obtain rfl : q = p := by simpa [starts, Event.starts] using called
      obtain ⟨t₀, hp₀, caller, -⟩ := keyed.caller c q (by rw [hpc]; rfl) own
      rw [Option.some.inj (hp₀.symm.trans hp), Timer.caller, if_pos kind] at caller
      exact other ⟨by simp [starts, Event.starts], by rw [hpc]; exact own, by rw [caller]⟩
  | fireAlone q t' used idle hq active pooled =>
      cases (sound.pooled_active idle hq active).symm.trans pooled
  | create | miss | clear | tickEvent | stale | drained | fire | tickDone | oneShotDone | repeatDone
  | destroy => simp [starts, Event.starts] at called

theorem called_cases (effect : Effect s m u ev) (sound : Sound s) {c : Caller} {p : Nat}
    (hpc : u.pc = .fireFn c) (own : c.timer = some p) :
    s.pc = .fireFn c ∨ s.pc.pending = some p ∧ starts ev p = 1 := by
  cases effect with
  | create | miss | clear => exact .inl hpc
  | call c' q t used hpc' own' empty hq =>
      cases hpc
      obtain rfl := Option.some.inj (own'.symm.trans own)
      exact .inr ⟨by rw [hpc']; exact own', by simp [starts, Event.starts]⟩
  | fireAlone q t used idle hq active pooled =>
      cases (sound.pooled_active idle hq active).symm.trans pooled
  | stale _ _ hpc' =>
      rw [show s.pc = _ from hpc] at hpc'
      cases hpc'
  | tickEvent | take | drained | fire | tickDone | oneShotDone | repeatDone | destroy => cases hpc

end Effect

section Steps

variable {s u : State} {held : Bool} {log ev : List Event} {m : Move}

theorem SafeCreation.unused (ok : SafeCreation ⟨s, held, log⟩ m) {r : Request}
    (e : m = .create r) : Unused s r := by
  subst e
  exact ok.1

theorem SafeCreation.freshId (ok : SafeCreation ⟨s, held, log⟩ m) : FreshId ⟨s, held, log⟩ m := by
  cases m with
  | create r => exact ok.1.1
  | clear | tickEvent | tick | fire | returns | destroy => trivial

/-- The callback of a one-shot timer returns to `timeout_one_cb`. -/
theorem Effect.oneShot_done (effect : Effect s m u ev) (keyed : Keyed s)
    (inv : KindsTold ⟨s, held, log⟩) {p : Nat} {t : Timer} (hp : s.heap p = some t)
    (kind : t.kind = .oneShot) (done : .returned p ∈ ev) : s.pc = .fireFn (.oneShot p) ∧
      u.pool = (if t.pooled && t.id != 0 then update s.pool t.id none else s.pool) ∧
      u.pc = .idle := by
  cases effect with
  | tickDone c q v used hpc hq =>
      obtain rfl := Event.returned.inj (List.mem_singleton.mp done)
      have tick := inv.ticked p t (by rw [hpc]; rfl) hp
      rw [kind] at tick
      cases tick
  | oneShotDone q v used hpc hq =>
      obtain rfl := Event.returned.inj (List.mem_singleton.mp done)
      obtain rfl := Option.some.inj (hq.symm.trans hp)
      exact ⟨hpc, rfl, rfl⟩
  | repeatDone q hpc =>
      obtain rfl := Event.returned.inj (List.mem_singleton.mp done)
      obtain ⟨t₀, hp₀, caller, -⟩ := keyed.caller (.repeating p) p (by rw [hpc]; rfl) rfl
      rw [Option.some.inj (hp₀.symm.trans hp), Timer.caller, if_pos kind] at caller
      cases caller
  | create | miss | clear | take | stale | tickEvent | drained | call | fire | fireAlone
  | destroy =>
      simp at done

/-- A one-shot timer that there is. -/
theorem Once.step (keyed : Keyed s) (inv : KindsTold ⟨s, held, log⟩) (effect : Effect s m u ev)
    {p : Nat} {t t' : Timer} (hp : s.heap p = some t) (hp' : u.heap p = some t')
    (later : t.Later t')
    (kind : t.kind = .oneShot) (ref : Bool) : Once ⟨u, ref, log ++ ev⟩ p t' := by
  have once : Once ⟨s, held, log⟩ p t := inv.once p t hp kind
  -- A call is made only if the timer has not been called before.
  have called : starts (log ++ ev) p = starts log p ∨ starts log p = 0 ∧
      starts (log ++ ev) p = 1 ∧ s.pc.pending = some p ∧ u.pc = .fireFn (.oneShot p) := by
    have total := starts_append log ev p
    rcases effect.oneShot_called keyed inv.sound inv.onlyTicks hp kind with
      zero | ⟨one, pending, hpc⟩
    · exact .inl (by omega)
    · have before : starts log p = 0 := once.pending pending
      exact .inr ⟨before, by omega, pending, hpc⟩
  have still : starts log p = 1 → starts (log ++ ev) p = 1 := by
    intro one
    rcases called with same | ⟨zero, -⟩
    · exact same.trans one
    · omega
  have fired : ∀ c, u.pc.caller = some c → c.timer = some p →
      s.pc.caller = some c ∨ t.active = true ∧ t'.active = false := by
    intro c caller own
    rcases effect.caller_cases caller with caller | rfl | ⟨q, v, hq, active, fired, rfl⟩
    · exact .inl caller
    · cases own
    · obtain rfl := Option.some.inj ((v.caller_timer q).symm.trans own)
      obtain rfl := Option.some.inj (hq.symm.trans hp)
      refine .inr ⟨active, ?_⟩
      rw [Option.some.inj (hp'.symm.trans fired), Timer.fired, kind]
      rfl
  refine ⟨later.id ▸ once.nonzero, fun active => ?_, fun pending => ?_, fun hpc => ?_, ?_,
    fun done => ?_⟩
  · obtain ⟨zero, away⟩ := once.scheduled (later.active active)
    refine ⟨?_, fun c caller own => ?_⟩
    · rcases called with same | ⟨-, -, pending, -⟩
      · exact same.trans zero
      · obtain ⟨c, caller, own⟩ := Pc.caller_of_pending pending
        exact absurd own (away c caller)
    · rcases fired c caller own with caller | ⟨-, stopped⟩
      · exact away c caller own
      · cases active.symm.trans stopped
  · have zero : starts log p = 0 := by
      rcases effect.pending_cases pending with pending | ⟨v, hq, active, -⟩
      · exact once.pending pending
      · obtain rfl := Option.some.inj (hq.symm.trans hp)
        exact (once.scheduled active).1
    rcases called with same | ⟨-, -, -, hpc⟩
    · exact same.trans zero
    · rw [show u.pc = _ from hpc] at pending
      cases pending
  · rcases effect.called_cases inv.sound hpc rfl with before | ⟨pending, one⟩
    · exact still (once.called before)
    · have zero : starts log p = 0 := once.pending pending
      exact (starts_append log ev p).trans (by omega)
  · rcases called with same | ⟨-, one, -⟩
    · exact same ▸ once.le_one
    · exact Nat.le_of_eq one
  · rcases List.mem_append.mp done with done | done
    · obtain ⟨one, out, away⟩ := once.returned done
      refine ⟨still one, fun id entry => out id (effect.pool_old keyed hp entry),
        fun c caller own => ?_⟩
      rcases fired c caller own with caller | ⟨active, -⟩
      · exact away c caller own
      · cases (once.scheduled active).1.symm.trans one
    · obtain ⟨hpc, pool, idle⟩ := effect.oneShot_done keyed inv hp kind done
      refine ⟨still (once.called hpc), fun id entry => ?_, fun c caller => ?_⟩
      · -- `~Timer` takes the entry out.
        dsimp only at entry
        rw [pool] at entry
        split at entry
        · next own =>
            have same := keyed.entry_id (update_pool entry) hp
            rw [same, update_self] at entry
            cases entry
        · next other =>
            have same := keyed.entry_id entry hp
            have pooled := inv.sound.pooled id p t entry hp
            exact other (by simp [pooled, once.nonzero])
      · dsimp only at caller
        rw [idle] at caller
        cases caller

/-- A timer that is to stay in the pool over a step. -/
theorem KindsTold.resident_step (keyed : Keyed s) (inv : KindsTold ⟨s, held, log⟩)
    (ok : SafeCreation ⟨s, held, log⟩ m) (effect : Effect s m u ev) (alive : u.pc ≠ .destroyed)
    {p : Nat} {t t' : Timer} (hp : s.heap p = some t) (hp' : u.heap p = some t')
    (kind : t.kind ≠ .tick) (left : removed ev p = false)
    (pending : t.kind = .oneShot → .returned p ∉ ev) (entry : s.pool t.id = some p)
    (scheduled : t.active = true ∨ s.pc.caller = some (.oneShot p) ∧ t.kind = .oneShot) :
    u.pool t.id = some p ∧
      (t'.active = true ∨ u.pc.caller = some (.oneShot p) ∧ t.kind = .oneShot) := by
  have same : u.heap p = s.heap p → t' = t := fun e =>
    Option.some.inj (hp'.symm.trans (e.trans hp))
  cases effect with
  | create r js =>
      refine ⟨createTimer_pool_kept ok.1.1 entry, ?_⟩
      rw [same (update_of_ne (Nat.ne_of_lt (keyed.allocated p t hp)) ..)]
      exact scheduled
  | clear hd q v v' used js handle hit hq =>
      have ne : p ≠ q := by
        rintro rfl
        simp [removed, Event.removes] at left
      refine ⟨update_pool_of_ne hit entry ne, ?_⟩
      rw [same (update_of_ne ne ..)]
      exact scheduled
  | take c id q v used hpc last hit hq =>
      have ne : p ≠ q := by
        rintro rfl
        obtain ⟨front, queue⟩ := List.getLast?_eq_some_iff.mp last
        exact kind (inv.onlyTicks id (by simp [queue]) p t hit hp)
      refine ⟨update_pool_of_ne hit entry ne, ?_⟩
      rw [same rfl]
      rwa [hpc] at scheduled
  | fire q v used idle hq active pooled =>
      refine ⟨entry, ?_⟩
      by_cases e : p = q
      · subst e
        obtain rfl := Option.some.inj (hq.symm.trans hp)
        obtain rfl := Option.some.inj (hp'.symm.trans (update_self ..))
        by_cases oneShot : v.kind = .oneShot
        · exact .inr ⟨by simp [Pc.caller, Timer.caller, oneShot], oneShot⟩
        · exact .inl (decide_eq_true oneShot)
      · rw [same (update_of_ne e ..)]
        rw [idle] at scheduled
        exact .inl (scheduled.resolve_right fun both => by cases both.1)
  | fireAlone q v used idle hq active pooled =>
      cases (inv.sound.pooled_active idle hq active).symm.trans pooled
  | tickDone c q v used hpc hq =>
      have ne : p ≠ q := by
        rintro rfl
        exact kind (inv.ticked p t (by rw [hpc]; rfl) hp)
      refine ⟨entry, ?_⟩
      rw [same (update_of_ne ne ..)]
      rwa [hpc] at scheduled
  | oneShotDone q v used hpc hq =>
      have ne : p ≠ q := by
        rintro rfl
        obtain ⟨t₀, hp₀, caller, -⟩ := keyed.caller (.oneShot p) p (by rw [hpc]; rfl) rfl
        obtain rfl := Option.some.inj (hp₀.symm.trans hp)
        refine pending ?_ (by simp)
        by_contra repeating
        simp [Timer.caller, repeating] at caller
      refine ⟨inv.sound.deleted_keeps hpc hq entry ne, ?_⟩
      rw [same (update_of_ne ne ..)]
      rw [hpc] at scheduled
      refine .inl (scheduled.resolve_right fun both => ne ?_)
      simpa [Pc.caller, eq_comm] using both.1
  | destroy idle => exact absurd rfl alive
  | miss => exact ⟨entry, same rfl ▸ scheduled⟩
  | stale => exact ⟨entry, same rfl ▸ scheduled⟩
  | tickEvent idle =>
      rw [idle] at scheduled
      exact ⟨entry, .inl (same rfl ▸ scheduled.resolve_right fun both => by cases both.1)⟩
  | drained hpc =>
      rw [hpc] at scheduled
      exact ⟨entry, .inl (same rfl ▸ scheduled.resolve_right fun both => by cases both.1)⟩
  | call c q v used hpc =>
      rw [hpc] at scheduled
      exact ⟨entry, same rfl ▸ scheduled⟩
  | repeatDone q hpc =>
      rw [hpc] at scheduled
      exact ⟨entry, .inl (same rfl ▸ scheduled.resolve_right fun both => by cases both.1)⟩

theorem removed_event {log : List Event} {p : Nat} (h : removed log p = true) :
    ∃ e ∈ log, e.subject = some p := by
  obtain ⟨e, he, gone⟩ := List.any_eq_true.mp h
  cases e with
  | cleared q r => exact ⟨_, he, by simpa [Event.removes, Event.subject] using gone⟩
  | created | started | returned | drained => cases gone

theorem started_event {log : List Event} {p : Nat} (h : starts log p ≠ 0) :
    ∃ e ∈ log, e.subject = some p := by
  obtain ⟨e, he, called⟩ := List.countP_pos_iff.mp (Nat.pos_of_ne_zero h)
  cases e with
  | started q kind => exact ⟨_, he, by simpa [Event.starts, Event.subject] using called⟩
  | created | cleared | returned | drained => cases called

theorem KindsTold.step (keyed : Keyed s) (inv : KindsTold ⟨s, held, log⟩)
    (ok : SafeCreation ⟨s, held, log⟩ m) (effect : Effect s m u ev) :
    KindsTold ⟨u, m.tickRef s held, log ++ ev⟩ where
  sound := inv.sound.step keyed ok.freshId effect
  onlyTicks := inv.onlyTicks.step keyed (fun _ e => ok.unused e) effect
  ticked p t hpc hp := by
    cases effect with
    | take c id q v used hpc' last hit hq =>
        obtain rfl := Option.some.inj hpc
        obtain ⟨front, queue⟩ := List.getLast?_eq_some_iff.mp last
        exact inv.onlyTicks id (by simp [queue]) q t hit hp
    | create r js =>
        obtain ⟨v, hv⟩ := keyed.ticked p hpc
        dsimp only at hp
        rw [State.createTimer_heap, update_of_ne (Nat.ne_of_lt (keyed.allocated p v hv))] at hp
        exact inv.ticked p t hpc hp
    | clear hd q v v' used js handle hit hq =>
        rcases update_heap_cases hp with ⟨rfl, rfl⟩ | ⟨-, hp⟩
        · exact inv.ticked p v' hpc hq
        · exact inv.ticked p t hpc hp
    | miss => exact inv.ticked p t hpc hp
    | stale => exact inv.ticked p t hpc hp
    | tickEvent | drained | call | fire | fireAlone | tickDone | oneShotDone | repeatDone
    | destroy => cases hpc
  known e he p hp := by
    rcases List.mem_append.mp he with he | he
    · exact Nat.lt_of_lt_of_le (inv.known e he p hp) effect.size_le
    · exact effect.subject_lt keyed he hp
  kinds p r made := by
    rcases List.mem_append.mp made with made | made
    · obtain ⟨nonzero, t, hp, kind⟩ := inv.kinds p r made
      obtain ⟨t', hp', later⟩ := effect.kept keyed hp
      exact ⟨nonzero, t', hp', later.kind.trans kind⟩
    · obtain ⟨rfl, rfl⟩ := effect.created_mem made
      cases effect
      exact ⟨ok.2.2, _, update_self .., rfl⟩
  gone p out id entry := by
    rw [removed_append, Bool.or_eq_true] at out
    rcases out with out | out
    · rcases effect.pool_cases entry with entry | ⟨rfl, -⟩
      · exact inv.gone p out id entry
      · obtain ⟨e, he, subject⟩ := removed_event out
        exact absurd (inv.known e he _ subject) (Nat.lt_irrefl _)
    · cases effect with
      | clear hd q v v' used js handle hit hq =>
          obtain rfl : q = p := by simpa [removed, Event.removes] using out
          exact keyed.pop_self hit id entry
      | create | miss | take | stale | tickEvent | drained | call | fire | fireAlone | tickDone
      | oneShotDone | repeatDone | destroy => simp [removed, Event.removes] at out
  resident alive p t' hp' kind left pending := by
    rw [removed_append, Bool.or_eq_false_iff] at left
    rcases effect.heap_cases hp' with ⟨t, hp, later⟩ | ⟨rfl, r, rfl, rfl⟩
    · rw [later.kind] at kind pending
      obtain ⟨entry, scheduled⟩ := inv.resident effect.not_destroyed p t hp kind left.1
        fun oneShot done => pending oneShot (List.mem_append_left _ done)
      rw [later.id, later.kind]
      exact inv.resident_step keyed ok effect alive hp hp' kind left.2
        (fun oneShot done => pending oneShot (List.mem_append_right _ done)) entry scheduled
    · cases effect
      refine ⟨?_, .inl (decide_eq_true kind)⟩
      rw [createTimer_pool ok.1.1, update_self]
  once p t' hp' kind := by
    rcases effect.heap_cases hp' with ⟨t, hp, later⟩ | ⟨rfl, r, rfl, rfl⟩
    · exact Once.step keyed inv effect hp hp' later (later.kind.symm.trans kind) _
    · -- Nothing has happened to the new timer yet.
      have fresh : ∀ e ∈ log ++ ev, e.subject = some s.size → e ∈ ev := fun e he subject =>
        (List.mem_append.mp he).resolve_left fun old =>
          absurd (inv.known e old _ subject) (Nat.lt_irrefl _)
      have away : ∀ c, s.pc.caller = some c → c.timer ≠ some s.size := by
        intro c caller own
        obtain ⟨t, hp, -⟩ := keyed.caller c _ caller own
        exact absurd (keyed.allocated _ t hp) (Nat.lt_irrefl _)
      cases effect with
      | create _ js =>
          have zero : starts (log ++ [.created s.size r]) s.size = 0 := by
            have before : starts log s.size = 0 := by
              by_contra called
              obtain ⟨e, old, subject⟩ := started_event called
              exact absurd (inv.known e old _ subject) (Nat.lt_irrefl _)
            simpa [starts, Event.starts] using before
          refine ⟨ok.2.1 kind, fun _ => ⟨zero, away⟩, fun _ => zero, fun hpc => ?_,
            zero ▸ Nat.zero_le 1, fun done => ?_⟩
          · exact absurd rfl (away (.oneShot s.size) (by rw [show s.pc = _ from hpc]; rfl))
          · simpa using fresh _ done rfl

end Steps

/-- **Intervals and one-shot timers keep their kind** in every run without an interval of 0
in which the identifiers do not come round. -/
theorem kinds_kept (ms : List Move) (ok : Meets History.step SafeCreation .init ms) :
    Always History.step KindsKept .init ms :=
  (always_of_effects (fun _ _ _ _ _ _ keyed inv hc effect => KindsTold.step keyed inv hc effect)
    kindsTold_init ok).imp fun _ inv => inv.kept

/-- An interval that is fired twice and cleared, and two one-shot timers. -/
theorem kinds_kept_example : Always History.step KindsKept .init
    [.create (.setInterval 5), .create (.setTimeout 0), .create .setImmediate, .fire 0, .tick,
      .returns, .fire 1, .tick, .returns, .fire 0, .tick, .clear 0, .returns, .fire 2, .tick,
      .returns, .destroy] :=
  kinds_kept _ (by decide)

/-- `setInterval(fn, 0)` is called once and deleted. -/
theorem interval_called_once : ¬ Always History.step KindsKept .init
    [.create (.setInterval 0), .fire 0, .tick, .returns] := by
  intro all
  have last : ∃ h, run History.step .init [.create (.setInterval 0), .fire 0, .tick, .returns] =
      some h ∧
        h.log = [.created 0 (.setInterval 0), .drained [], .started 0 .oneShot, .returned 0] ∧
        h.state.pc = .idle ∧ ∀ id, h.state.pool id ≠ some 0 := by
    refine ⟨_, rfl, rfl, rfl, fun id entry => ?_⟩
    have entry : update (update (fun _ => none) 2 (some 0)) 2 none id = some 0 := entry
    rw [update_idem] at entry
    by_cases e : id = 2
    · rw [e, update_self] at entry
      cases entry
    · rw [update_of_ne e] at entry
      cases entry
  obtain ⟨h, hrun, hlog, idle, out⟩ := last
  obtain ⟨t, -, entry, -⟩ := (all.last hrun).interval (by rw [idle]; nofun) 0 0 (by simp [hlog])
    (by rw [hlog]; rfl)
  exact out t.id entry

end ThreadJs.Timers
