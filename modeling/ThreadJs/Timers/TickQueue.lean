import ThreadJs.Timers.ComeRound
import ThreadJs.Timers.TickOrder

/-!
The book-keeping of `do_tick`: the queue of identifiers, the pool, and the reference on
`tick_event` that keeps the loop alive.

The reference is held exactly while something is queued, in every run. That `do_tick`
leaves no tick behind holds as long as `createTimer` gives out no identifier that is in
use: a tick that gets one is not in the pool, and `do_tick` calls the other timer in its
place.
-/

namespace ThreadJs.Timers

open Function Machine

def Event.starts (p : Nat) : Event → Bool
  | .started q _ => q == p
  | _ => false

def Event.removes (p : Nat) : Event → Bool
  | .cleared _ removed => removed == some p
  | _ => false

/-- How often the callback of `p` was called. -/
def starts (log : List Event) (p : Nat) : Nat := log.countP (Event.starts p)

/-- The timer `p` was cleared. -/
def removed (log : List Event) (p : Nat) : Bool := log.any (Event.removes p)

/-- The callback was called exactly once, or cleared before its turn. -/
def Settled (log : List Event) (p : Nat) : Prop :=
  starts log p = 1 ∨ starts log p = 0 ∧ removed log p = true

/-- `do_tick` is running. -/
def Pc.inDoTick : Pc → Bool
  | .ticking _ | .tickFn _ _ => true
  | _ => false

structure TicksKept (h : History) : Prop where
  /-- When `do_tick` returns, the queue is empty and all ticks so far are settled. -/
  settled : ∀ pre left, pre ++ [.drained left] <+: h.log →
    left = [] ∧ ∀ p, .created p .nextTick ∈ pre → Settled pre p
  held : h.state.pc.inDoTick = false → (h.tickRef = true ↔ h.state.tickQueue ≠ [])

structure TicksQueued (h : History) : Prop where
  sound : Sound h.state
  kinds : ∀ p r, .created p r ∈ h.log → ∃ t, h.state.heap p = some t ∧ t.kind = r.kind
  known : ∀ p, starts h.log p ≠ 0 → p < h.state.size
  once : ∀ p, .created p .nextTick ∈ h.log →
    starts h.log p = 0 ∨ starts h.log p = 1 ∧ ∀ id, h.state.pool id ≠ some p
  waiting : h.state.pc ≠ .destroyed → ∀ p t, .created p .nextTick ∈ h.log → starts h.log p = 0 →
    removed h.log p = false → h.state.heap p = some t →
      h.state.pool t.id = some p ∧ t.id ∈ h.state.tickQueue
  kept : TicksKept h

theorem Request.kind_eq_tick {r : Request} : r.kind = .tick ↔ r = .nextTick := by
  cases r with
  | setInterval delay =>
      simp only [Request.kind]
      split <;> simp
  | setTimeout | setImmediate | nextTick => simp [Request.kind]

theorem starts_append (log ev : List Event) (p : Nat) :
    starts (log ++ ev) p = starts log p + starts ev p := List.countP_append

theorem removed_append (log ev : List Event) (p : Nat) :
    removed (log ++ ev) p = (removed log p || removed ev p) := List.any_append

/-- A moment of a longer log lies in the old one or in the addition. -/
theorem prefix_append_cases {α : Type} {pre log ev : List α} {x : α}
    (h : pre ++ [x] <+: log ++ ev) :
    pre ++ [x] <+: log ∨ ∃ pre', pre = log ++ pre' ∧ pre' ++ [x] <+: ev := by
  rcases List.prefix_or_prefix_of_prefix h (List.prefix_append log ev) with old | new
  · exact .inl old
  · rcases List.prefix_concat_iff.mp new with e | ⟨pre', rfl⟩
    · exact .inl (e ▸ List.prefix_refl _)
    · rw [List.append_assoc, List.prefix_append_right_inj] at h
      exact .inr ⟨pre', rfl, h⟩

theorem ticksQueued_init : TicksQueued .init where
  sound := sound_init
  kinds p r h := by cases h
  known p h := absurd rfl h
  once p h := by cases h
  waiting _ p t h := by cases h
  kept := ⟨fun pre left h => by simp [History.init] at h,
    fun _ => by simp [History.init, Timers.init]⟩

namespace Effect

variable {s u : State} {m : Move} {ev : List Event}

theorem not_destroyed (effect : Effect s m u ev) : s.pc ≠ .destroyed := by
  intro hpc
  cases effect with
  | create _ js | miss _ _ js | clear _ _ _ _ _ js => simp [State.inJs, hpc] at js
  | tickEvent idle | fire _ _ _ idle | fireAlone _ _ _ idle | destroy idle =>
      rw [hpc] at idle
      cases idle
  | take _ _ _ _ _ hpc' | stale _ _ hpc' | drained hpc' | call _ _ _ _ hpc' | tickDone _ _ _ _ hpc'
  | oneShotDone _ _ _ hpc' | repeatDone _ hpc' =>
      rw [hpc] at hpc'
      cases hpc'

theorem created_mem (effect : Effect s m u ev) {p : Nat} {r : Request} (h : .created p r ∈ ev) :
    p = s.size ∧ m = .create r := by
  cases effect <;> simp at h
  obtain ⟨rfl, rfl⟩ := h
  exact ⟨rfl, rfl⟩

/-- What is called is there, and in the pool unless it is the caller's own timer. -/
theorem started_mem (effect : Effect s m u ev) (keyed : Keyed s) {p : Nat}
    (h : starts ev p ≠ 0) : ∃ t, s.heap p = some t ∧
      (t.kind = .tick → ev = [.started p .tick] ∧
        ∃ id, s.pool id = some p ∧ u.pool = update s.pool id none) := by
  cases effect with
  | take c id q t used hpc last hit hp =>
      obtain rfl : q = p := by simpa [starts, Event.starts] using h
      exact ⟨t, hp, fun kind => ⟨by rw [kind], id, hit, rfl⟩⟩
  | call c q t used hpc own empty hp =>
      obtain rfl : q = p := by simpa [starts, Event.starts] using h
      obtain ⟨t', hp', -, kind⟩ := keyed.caller c q (by rw [hpc]; rfl) own
      exact ⟨t', hp', fun tick => absurd tick kind⟩
  | fireAlone q t used idle hp active pooled =>
      obtain rfl : q = p := by simpa [starts, Event.starts] using h
      exact ⟨t, hp, fun tick => absurd tick (keyed.not_tick hp active)⟩
  | create | miss | clear | tickEvent | stale | drained | fire | tickDone | oneShotDone | repeatDone
  | destroy => simp [starts, Event.starts] at h

/-- The moment at which `do_tick` returns. -/
theorem drained_prefix (effect : Effect s m u ev) {pre : List Event} {left : List TimerId}
    (h : pre ++ [.drained left] <+: ev) : pre = [] ∧ left = [] ∧ s.tickQueue = [] := by
  have mem : Event.drained left ∈ ev :=
    h.subset (List.mem_append_right _ (List.mem_singleton.mpr rfl))
  cases effect with
  | drained hpc empty =>
      rcases List.append_eq_singleton_iff.mp (h.eq_of_length_le (by simp)) with ⟨rfl, e⟩ | ⟨-, e⟩
      · obtain rfl := Event.drained.inj (List.singleton_inj.mp e)
        exact ⟨rfl, rfl, empty⟩
      · cases e
  | call c p t used hpc own empty hp =>
      cases pre with
      | nil =>
          obtain ⟨e, -⟩ := List.cons_prefix_cons.mp h
          obtain rfl := Event.drained.inj e
          exact ⟨rfl, rfl, empty⟩
      | cons e pre =>
          obtain ⟨-, tail⟩ := List.cons_prefix_cons.mp h
          have mem := tail.subset (List.mem_append_right pre (List.mem_singleton.mpr rfl))
          cases List.mem_singleton.mp mem
  | create | miss | clear | tickEvent | take | stale | fire | fireAlone | tickDone | oneShotDone
  | repeatDone | destroy => simp at mem

/-- A tick stays queued until it is called or cleared. -/
theorem waiting_kept (effect : Effect s m u ev) (keyed : Keyed s) (sound : Sound s)
    (fresh : m ≠ .destroy → ∀ r, m = .create r → s.pool (s.lastId + 1) = none)
    (alive : u.pc ≠ .destroyed) {p : Nat} {t : Timer} (hp : s.heap p = some t)
    (kind : t.kind = .tick) (entry : s.pool t.id = some p) (queued : t.id ∈ s.tickQueue)
    (quiet : starts ev p = 0) (left : removed ev p = false) :
    u.pool t.id = some p ∧ t.id ∈ u.tickQueue := by
  cases effect with
  | create r js =>
      refine ⟨createTimer_pool_kept (fresh (by simp) r rfl) entry, ?_⟩
      simp only [State.createTimer]
      split
      · exact List.mem_append_left _ queued
      · exact queued
  | clear hd q v v' used js handle hit hq =>
      refine ⟨update_pool_of_ne hit entry ?_, queued⟩
      rintro rfl
      simp [removed, Event.removes] at left
  | take c id q v used hpc last hit hq =>
      have ne : p ≠ q := by
        rintro rfl
        simp [starts, Event.starts] at quiet
      refine ⟨update_pool_of_ne hit entry ne, mem_dropLast last queued ?_⟩
      rintro rfl
      exact ne (Option.some.inj (entry.symm.trans hit))
  | stale c id hpc last gone =>
      refine ⟨entry, mem_dropLast last queued ?_⟩
      rintro rfl
      exact absurd (entry.symm.trans gone) (Option.some_ne_none p)
  | oneShotDone q v used hpc hq =>
      refine ⟨sound.deleted_keeps hpc hq entry ?_, queued⟩
      -- The timer that is deleted is not a tick.
      obtain ⟨v', hv', -, other⟩ := keyed.caller (.oneShot q) q (by rw [hpc]; rfl) rfl
      rintro rfl
      exact other (Option.some.inj (hp.symm.trans hv') ▸ kind)
  | destroy idle => exact absurd rfl alive
  | miss | tickEvent | drained | call | fire | fireAlone | tickDone | repeatDone =>
      exact ⟨entry, queued⟩

/-- The reference on `tick_event` and the queue. -/
theorem held (effect : Effect s m u ev) {ref : Bool}
    (before : s.pc.inDoTick = false → (ref = true ↔ s.tickQueue ≠ []))
    (after : u.pc.inDoTick = false) : m.tickRef s ref = true ↔ u.tickQueue ≠ [] := by
  cases effect with
  | create r js =>
      have outside := before after
      simp only [Move.tickRef, Bool.or_eq_true, decide_eq_true_eq, State.createTimer,
        Request.kind_eq_tick]
      by_cases tick : r = .nextTick
      · simp [tick]
      · simpa [tick] using outside
  | take c id q v used hpc last hit hq => cases after
  | stale c id hpc last gone =>
      change s.pc.inDoTick = false at after
      rw [hpc] at after
      cases after
  | drained hpc empty => simp [Move.tickRef, hpc, empty]
  | call c p t used hpc own empty hp => simp [Move.tickRef, hpc, empty]
  | tickEvent | fire | tickDone => cases after
  | miss | clear => exact before after
  | fireAlone p t used idle => exact before (by rw [idle]; rfl)
  | oneShotDone p t used hpc => exact before (by rw [hpc]; rfl)
  | repeatDone p hpc => exact before (by rw [hpc]; rfl)
  | destroy idle =>
      rw [destroy_eq]
      exact before (by rw [idle]; rfl)

end Effect

theorem TicksQueued.step {s u : State} {ref : Bool} {log ev : List Event} {m : Move}
    (keyed : Keyed s) (inv : TicksQueued ⟨s, ref, log⟩) (fresh : FreshId ⟨s, ref, log⟩ m)
    (effect : Effect s m u ev) : TicksQueued ⟨u, m.tickRef s ref, log ++ ev⟩ := by
  have alive := effect.not_destroyed
  have below : ∀ p, .created p .nextTick ∈ log → ∃ t, s.heap p = some t ∧ t.kind = .tick :=
    fun p made => inv.kinds p .nextTick made
  -- A tick that has been created before is called at most once, and then left the pool.
  have old : ∀ p, .created p .nextTick ∈ log → starts (log ++ ev) p = 0 ∨
      starts (log ++ ev) p = 1 ∧ ∀ id, u.pool id ≠ some p := by
    intro p made
    obtain ⟨t, hp, kind⟩ := below p made
    have out : (∀ id, s.pool id ≠ some p) → ∀ id, u.pool id ≠ some p := fun none id hid =>
      none id (effect.pool_old keyed hp hid)
    rw [starts_append]
    by_cases quiet : starts ev p = 0
    · rw [quiet, Nat.add_zero]
      exact (inv.once p made).imp_right fun ⟨one, gone⟩ => ⟨one, out gone⟩
    · obtain ⟨t', hp', taken⟩ := effect.started_mem keyed quiet
      rw [Option.some.inj (hp'.symm.trans hp)] at taken
      obtain ⟨rfl, id, hit, hpool⟩ := taken kind
      rcases inv.once p made with zero | ⟨-, gone⟩
      · have zero : starts log p = 0 := zero
        refine .inr ⟨by rw [zero]; simp [starts, Event.starts], ?_⟩
        rw [hpool]
        exact keyed.pop_self hit
      · exact absurd hit (gone id)
  refine ⟨inv.sound.step keyed fresh effect, fun p r made => ?_, fun p called => ?_,
    fun p made => ?_, fun live p t made zero left hp => ?_, ⟨fun pre left moment => ?_,
    fun outside => effect.held inv.kept.held outside⟩⟩
  · rcases List.mem_append.mp made with made | made
    · obtain ⟨t, hp, kind⟩ := inv.kinds p r made
      obtain ⟨t', hp', later⟩ := effect.kept keyed hp
      exact ⟨t', hp', later.kind.trans kind⟩
    · obtain ⟨rfl, rfl⟩ := effect.created_mem made
      cases effect
      exact ⟨_, update_self .., rfl⟩
  · rw [starts_append] at called
    refine Nat.lt_of_lt_of_le ?_ effect.size_le
    by_cases before : starts log p = 0
    · obtain ⟨t, hp, -⟩ := effect.started_mem (p := p) keyed (by omega)
      exact keyed.allocated p t hp
    · exact inv.known p before
  · rcases List.mem_append.mp made with made | made
    · exact old p made
    · -- The new timer has not been called yet.
      obtain ⟨rfl, rfl⟩ := effect.created_mem made
      refine .inl ?_
      have before : starts log s.size = 0 := by
        by_contra called
        exact absurd (inv.known _ called) (Nat.lt_irrefl _)
      cases effect
      simpa [starts, Event.starts] using before
  · obtain ⟨before, now⟩ := Nat.add_eq_zero_iff.mp ((starts_append log ev p).symm.trans zero)
    rw [removed_append, Bool.or_eq_false_iff] at left
    rcases List.mem_append.mp made with made | made
    · obtain ⟨t₀, hp₀, kind⟩ := below p made
      obtain ⟨entry, queued⟩ := inv.waiting alive p t₀ made before left.1 hp₀
      obtain ⟨t', hp', later⟩ := effect.kept keyed hp₀
      rw [Option.some.inj (hp.symm.trans hp'), later.id]
      refine effect.waiting_kept keyed inv.sound (fun _ r e => ?_) live hp₀ kind entry queued
        now left.2
      subst e
      exact fresh
    · obtain ⟨rfl, rfl⟩ := effect.created_mem made
      cases effect
      dsimp only at hp ⊢
      rw [State.createTimer_heap, update_self] at hp
      rw [← Option.some.inj hp, createTimer_pool fresh]
      refine ⟨update_self .., ?_⟩
      simp [State.createTimer, Request.kind]
  · rcases prefix_append_cases moment with before | ⟨pre', rfl, now⟩
    · exact inv.kept.settled pre left before
    · obtain ⟨rfl, rfl, empty⟩ := effect.drained_prefix now
      rw [List.append_nil]
      refine ⟨rfl, fun p made => ?_⟩
      rcases inv.once p made with zero | ⟨one, -⟩
      · refine .inr ⟨zero, ?_⟩
        by_contra left
        obtain ⟨t, hp, -⟩ := below p made
        obtain ⟨-, queued⟩ := inv.waiting alive p t made zero (by simpa using left) hp
        rw [empty] at queued
        cases queued
      · exact .inl one

/-- **No tick is lost, and the loop is held while one is queued**, in every run in which
`createTimer` gives out no identifier that is in use. -/
theorem ticks_kept (ms : List Move) (fresh : Meets History.step FreshId .init ms) :
    Always History.step TicksKept .init ms :=
  (always_of_effects (fun _ _ _ _ _ _ keyed inv hc effect => TicksQueued.step keyed inv hc effect)
    ticksQueued_init fresh).imp fun _ inv => inv.kept

/-- A tick that queues another one and clears a third, and a timer that fires. -/
theorem ticks_kept_example : Always History.step TicksKept .init
    [.create .nextTick, .create .nextTick, .create (.setTimeout 5), .clear 0, .fire 2, .tick,
      .create .nextTick, .returns, .tick, .returns, .tick, .tick, .returns, .tickEvent, .tick] :=
  ticks_kept _ (by decide)

/-- The identifier of an interval comes round to a tick: `do_tick` calls the interval for
it, and the tick is neither called nor cleared. -/
theorem tick_lost : ¬ Always History.step TicksKept .init
    (comeRound ++ [.create .nextTick, .tickEvent, .tick, .returns, .tick]) := by
  obtain ⟨heap, log, interval, about, rest⟩ := run_comeRound
  have known : heap = update heap 0 (some ⟨2, true, .repeating, true, 0⟩) := by
    rw [← interval, update_eq_self]
  obtain ⟨t, hrun, hlog⟩ : ∃ t, run History.step .init
      (comeRound ++ [.create .nextTick, .tickEvent, .tick, .returns, .tick]) = some t ∧
      t.log = ([.created 0 (.setInterval 1)] ++ log ++
        [.created 0x100000000 .nextTick, .started 0 .repeating, .returned 0]) ++ [.drained []] := by
    have steps : .created 0 (.setInterval 1) :: log ++ [.created 0x100000000 .nextTick] ++ [] ++
        [.started 0 .repeating] ++ [.returned 0] ++ [.drained []] =
        ([.created 0 (.setInterval 1)] ++ log ++ [.created 0x100000000 .nextTick,
          .started 0 .repeating, .returned 0]) ++ [Event.drained []] := by simp
    rw [rest, known, ← steps]
    exact ⟨_, rfl, rfl⟩
  intro all
  have moment := (all.last hrun).settled
  rw [hlog] at moment
  obtain ⟨-, settled⟩ := moment _ _ (List.prefix_refl _)
  have other : ∀ e ∈ log,
      Event.starts 0x100000000 e = false ∧ Event.removes 0x100000000 e = false := by
    intro e he
    obtain ⟨p, -, lt, rfl | rfl⟩ := about e he
    · exact ⟨rfl, rfl⟩
    · refine ⟨rfl, ?_⟩
      simp [Event.removes, Nat.ne_of_lt lt]
  have unstarted : starts log 0x100000000 = 0 :=
    List.countP_eq_zero.mpr fun e he => by simp [(other e he).1]
  have unremoved : removed log 0x100000000 = false :=
    List.any_eq_false.mpr fun e he => by simp [(other e he).2]
  rcases settled 0x100000000 (by simp) with one | ⟨-, gone⟩
  · rw [starts_append, starts_append, unstarted] at one
    cases one
  · rw [removed_append, removed_append, unremoved] at gone
    cases gone

end ThreadJs.Timers
