import ThreadJs.Timers.Effect

/-!
Pool and timers agree as long as no identifier is given out while it is in use.

`std::map::insert` does nothing for a key that is there. A timer that gets the identifier
of another is then in no pool: it cannot be cleared, and when it goes it takes the entry
of the other with it. Where `createTimer` always finds its identifier free, every timer
that is to fire is in the pool, apart from the one that `do_tick` has just taken out.
-/

namespace ThreadJs.Timers

open Function Machine

/-- `createTimer` finds no entry of the pool under its identifier. -/
def FreshId (h : History) : Move → Prop
  | .create _ => h.state.pool (h.state.lastId + 1) = none
  | _ => True

instance (h : History) (m : Move) : Decidable (FreshId h m) :=
  match m with
  | .create _ => inferInstanceAs (Decidable (_ = _))
  | .clear _ | .tickEvent | .tick | .fire _ | .returns | .destroy => isTrue trivial

structure Sound (s : State) : Prop where
  active : ∀ p t, s.heap p = some t → t.active = true →
    s.pool t.id = some p ∨ s.pc.ticked = some p
  firing : ∀ c p t, s.pc.caller = some c → c.timer = some p → s.heap p = some t →
    t.pooled = true → s.pool t.id = some p ∨ s.pc.ticked = some p
  pooled : ∀ id p t, s.pool id = some p → s.heap p = some t → t.pooled = true
  ticked : ∀ p, s.pc.ticked = some p → ∀ id, s.pool id ≠ some p

theorem sound_init : Sound Timers.init where
  active p t hp := by cases hp
  firing c p t hpc := by cases hpc
  pooled id p t hid := by cases hid
  ticked p hpc := by cases hpc

theorem Sound.create {s u : State} {r : Request} {ev : List Event} (h : Sound s) (keyed : Keyed s)
    (fresh : s.pool (s.lastId + 1) = none) (effect : Effect s (.create r) u ev) : Sound u := by
  have js := effect
  cases js
  have new : (s.createTimer r).pool (s.lastId + 1) = some s.size := by
    rw [createTimer_pool fresh, update_self]
  refine ⟨fun p t hp active => ?_, fun c p t hpc own hp pooled => ?_, fun id p t hid hp => ?_,
    fun p hpc id hid => ?_⟩
  · rcases effect.heap_cases hp with ⟨t', hp, later⟩ | ⟨rfl, r, -, rfl⟩
    · rw [later.id]
      exact (h.active p t' hp (later.active active)).imp_left (createTimer_pool_kept fresh)
    · exact .inl new
  · rw [State.createTimer_heap, update_apply] at hp
    split at hp
    · next isNew =>
        rw [isNew, ← Option.some.inj hp]
        exact .inl new
    · exact (h.firing c p t hpc own hp pooled).imp_left (createTimer_pool_kept fresh)
  · rw [State.createTimer_heap, update_apply] at hp
    split at hp
    · rw [← Option.some.inj hp]
    · next old =>
        rcases effect.pool_cases hid with hid | ⟨isNew, -⟩
        · exact h.pooled id p t hid hp
        · exact absurd isNew old
  · -- The new timer is not the one that is being called.
    obtain ⟨t, hp⟩ := keyed.ticked _ hpc
    exact h.ticked p hpc id (effect.pool_old keyed hp hid)

/-- Outside the calls of `do_tick` a timer that is to fire is in the pool. -/
theorem Sound.entry {s : State} (h : Sound s) (quiet : s.pc.ticked = none) {p : Nat} {t : Timer}
    (hp : s.heap p = some t) (active : t.active = true) : s.pool t.id = some p := by
  have entry := h.active p t hp active
  rw [quiet] at entry
  exact entry.resolve_right nofun

/-- So a timer that fires has not been taken out of its pool. -/
theorem Sound.pooled_active {s : State} (h : Sound s) (idle : s.pc = .idle) {p : Nat} {t : Timer}
    (hp : s.heap p = some t) (active : t.active = true) : t.pooled = true :=
  h.pooled t.id p t (h.entry (by rw [idle]; rfl) hp active) hp

/-- `~Timer` takes out no entry but its own. -/
theorem Sound.deleted_keeps {s : State} (h : Sound s) {p q : Nat} {t : Timer} {id : TimerId}
    (hpc : s.pc = .fireFn (.oneShot p)) (hp : s.heap p = some t) (entry : s.pool id = some q)
    (ne : q ≠ p) :
    (if t.pooled && t.id != 0 then update s.pool t.id none else s.pool) id = some q := by
  split
  · next pooled =>
      have own := h.firing (.oneShot p) p t (by rw [hpc]; rfl) rfl hp
        (Bool.and_eq_true_iff.mp pooled).1
      rw [hpc] at own
      exact update_pool_of_ne (own.resolve_right nofun) entry ne
  · exact entry

theorem Sound.step {s u : State} {held : Bool} {log ev : List Event} {m : Move} (h : Sound s)
    (keyed : Keyed s) (fresh : FreshId ⟨s, held, log⟩ m) (effect : Effect s m u ev) : Sound u := by
  cases effect with
  | create r js => exact h.create keyed fresh (.create r js)
  | miss hd t js handle gone => exact h
  | clear hd p t t' used js handle hit hp =>
      refine ⟨fun q v hq active => ?_, fun c q v hpc own hq pooled => ?_, fun id q v hid hq => ?_,
        fun q hpc id hid => h.ticked q hpc id (update_pool hid)⟩
      · rcases update_heap_cases hq with ⟨-, rfl⟩ | ⟨ne, hq⟩
        · cases active
        · exact (h.active q v hq active).imp_left fun entry => update_pool_of_ne hit entry ne
      · rcases update_heap_cases hq with ⟨-, rfl⟩ | ⟨ne, hq⟩
        · cases pooled
        · exact (h.firing c q v hpc own hq pooled).imp_left fun entry =>
            update_pool_of_ne hit entry ne
      · rcases update_heap_cases hq with ⟨rfl, -⟩ | ⟨-, hq⟩
        · exact absurd hid (keyed.pop_self hit id)
        · exact h.pooled id q v (update_pool hid) hq
  | tickEvent idle pending =>
      refine ⟨fun q v hq active => .inl (h.entry (by rw [idle]; rfl) hq active),
        fun c q v hpc own => ?_, h.pooled, fun q hpc => by cases hpc⟩
      cases hpc
      cases own
  | take c id p t used hpc last hit hp =>
      have entries : ∀ q v, s.heap q = some v → s.pool v.id = some q ∨ s.pc.ticked = some q →
          update s.pool id none v.id = some q ∨ (Pc.tickFn c p).ticked = some q := by
        intro q v hq entry
        rw [hpc] at entry
        by_cases e : q = p
        · exact .inr (e ▸ rfl)
        · exact .inl (update_pool_of_ne hit (entry.resolve_right nofun) e)
      refine ⟨fun q v hq active => entries q v hq (h.active q v hq active),
        fun c' q v hpc' own hq pooled => entries q v hq (h.firing c' q v ?_ own hq pooled),
        fun other q v hid => h.pooled other q v (update_pool hid), fun q hpc' other => ?_⟩
      · rw [hpc]
        exact hpc'
      · obtain rfl := Option.some.inj hpc'
        exact keyed.pop_self hit other
  | stale c id hpc last gone => exact ⟨h.active, h.firing, h.pooled, h.ticked⟩
  | drained hpc empty =>
      exact ⟨fun q v hq active => .inl (h.entry (by rw [hpc]; rfl) hq active),
        fun c q v hpc' => (by cases hpc'), h.pooled, fun q hpc' => by cases hpc'⟩
  | call c p t used hpc own empty hp =>
      refine ⟨fun q v hq active => .inl (h.entry (by rw [hpc]; rfl) hq active),
        fun c' q v hpc' own' hq pooled => ?_, h.pooled, fun q hpc' => by cases hpc'⟩
      cases hpc'
      have entry := h.firing c q v (by rw [hpc]; rfl) own' hq pooled
      rw [hpc] at entry
      exact .inl (entry.resolve_right nofun)
  | fire p t used idle hp active pooled =>
      have quiet : s.pc.ticked = none := by rw [idle]; rfl
      have entry := h.entry quiet hp active
      refine ⟨fun q v hq active' => ?_, fun c q v hpc own hq _ => ?_, fun id q v hid hq => ?_,
        fun q hpc => by cases hpc⟩
      · rcases update_heap_cases hq with ⟨rfl, rfl⟩ | ⟨-, hq⟩
        · exact .inl entry
        · exact .inl (h.entry quiet hq active')
      · cases hpc
        rw [t.caller_timer p] at own
        rcases update_heap_cases hq with ⟨rfl, rfl⟩ | ⟨ne, -⟩
        · exact .inl entry
        · exact absurd (Option.some.inj own).symm ne
      · rcases update_heap_cases hq with ⟨rfl, rfl⟩ | ⟨-, hq⟩
        · exact pooled
        · exact h.pooled id q v hid hq
  | fireAlone p t used idle hp active pooled =>
      cases (h.pooled_active idle hp active).symm.trans pooled
  | tickDone c p t used hpc hp =>
      have none := h.ticked p (by rw [hpc]; rfl)
      have entries : ∀ (q : Nat) (v : Timer), q ≠ p → s.pool v.id = some q ∨ s.pc.ticked = some q →
          s.pool v.id = some q := by
        intro q v ne entry
        rw [hpc] at entry
        exact entry.resolve_right fun e => ne (Option.some.inj e).symm
      refine ⟨fun q v hq active => ?_, fun c' q v hpc' own hq pooled => ?_, fun id q v hid hq => ?_,
        fun q hpc' => by cases hpc'⟩
      · rcases update_heap_cases hq with ⟨-, rfl⟩ | ⟨ne, hq⟩
        · cases active
        · exact .inl (entries q v ne (h.active q v hq active))
      · rcases update_heap_cases hq with ⟨-, rfl⟩ | ⟨ne, hq⟩
        · cases pooled
        · refine .inl (entries q v ne (h.firing c' q v ?_ own hq pooled))
          rw [hpc]
          exact hpc'
      · rcases update_heap_cases hq with ⟨rfl, -⟩ | ⟨-, hq⟩
        · exact absurd hid (none id)
        · exact h.pooled id q v hid hq
  | oneShotDone p t used hpc hp =>
      have own : ∀ id q, (if t.pooled && t.id != 0 then update s.pool t.id none else s.pool) id =
          some q → s.pool id = some q := by
        intro id q hid
        split at hid
        · exact update_pool hid
        · exact hid
      refine ⟨fun q v hq active => ?_, fun c q v hpc' => (by cases hpc'), fun id q v hid hq => ?_,
        fun q hpc' => by cases hpc'⟩
      · rcases update_heap_cases hq with ⟨-, rfl⟩ | ⟨ne, hq⟩
        · cases active
        · exact .inl (h.deleted_keeps hpc hp (h.entry (by rw [hpc]; rfl) hq active) ne)
      · rcases update_heap_cases hq with ⟨rfl, rfl⟩ | ⟨-, hq⟩
        · exact h.pooled id q t (own id q hid) hp
        · exact h.pooled id q v (own id q hid) hq
  | repeatDone p hpc =>
      exact ⟨fun q v hq active => .inl (h.entry (by rw [hpc]; rfl) hq active),
        fun c q v hpc' => (by cases hpc'), h.pooled, fun q hpc' => by cases hpc'⟩
  | destroy idle =>
      rw [destroy_eq]
      refine ⟨fun q v hq active => ?_, fun c q v hpc => (by cases hpc),
        fun id q v hid => (by cases hid),
        fun q hpc => by cases hpc⟩
      dsimp only at hq
      split at hq
      · obtain ⟨v', -, rfl⟩ := Option.map_eq_some_iff.mp hq
        cases active
      · next left =>
          have entry := h.entry (by rw [idle]; rfl) hq active
          exact absurd ((mem_entries keyed.allocated).mpr ⟨v, hq, entry⟩) left

end ThreadJs.Timers
