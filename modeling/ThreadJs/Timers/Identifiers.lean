import ThreadJs.Timers.ComeRound

/-!
The pool as a map from identifiers to timers.

An identifier is a number of 32 bits that comes round, and nothing in `createTimer` or
`j_clear_time` asks whose it is. The pool holds the timers that there are, and a handle
clears its own timer, exactly as long as no identifier is that of two timers at once.
-/

namespace ThreadJs.Timers

open Function Machine

/-- The object at `p` is a timer that has not been deleted. -/
def Live (s : State) (p : Nat) (t : Timer) : Prop := s.heap p = some t ∧ t.deletes = 0

structure Represents (h : History) : Prop where
  /-- A tick is out of the pool while `do_tick` calls it. -/
  entries : ∀ id p, h.state.pool id = some p ↔
    (∃ t, Live h.state p t ∧ t.id = id) ∧ h.state.pc.ticked ≠ some p
  nonzero : ∀ p t, Live h.state p t → t.id ≠ 0
  distinct : ∀ p q t t', Live h.state p t → Live h.state q t' → t.id = t'.id → p = q
  /-- A handle clears the timer that it was returned for, or none. -/
  own : ∀ p q, .cleared p (some q) ∈ h.log → q = p

/-- The next identifier is not 0 and not in use, and so is that of a handle that is
cleared, if its timer is gone. The tick that is being called cannot be cleared. -/
def NoCollision (h : History) : Move → Prop
  | .create _ => h.state.lastId + 1 ≠ 0 ∧
      ∀ q < h.state.size, ∀ t ∈ h.state.heap q, t.deletes = 0 → t.id ≠ h.state.lastId + 1
  | .clear p => ∀ own ∈ h.state.heap p, ∀ q < h.state.size, ∀ t ∈ h.state.heap q,
      t.deletes = 0 → t.id = own.id → q = p ∨ h.state.pc.ticked = some q
  | _ => True

instance (h : History) (m : Move) : Decidable (NoCollision h m) :=
  match m with
  | .create _ => inferInstanceAs (Decidable (_ ∧ ∀ q < h.state.size, _))
  | .clear p => inferInstanceAs (Decidable (∀ own ∈ h.state.heap p, ∀ q < h.state.size, _))
  | .tickEvent | .tick | .fire _ | .returns | .destroy => isTrue trivial

structure Numbered (h : History) : Prop where
  sound : Sound h.state
  entry : ∀ id p, h.state.pool id = some p → ∃ t, Live h.state p t ∧ t.id = id
  pooled : ∀ p t, Live h.state p t → h.state.pool t.id = some p ∨ h.state.pc.ticked = some p
  nonzero : ∀ p t, Live h.state p t → t.id ≠ 0
  distinct : ∀ p q t t', Live h.state p t → Live h.state q t' → t.id = t'.id → p = q
  own : ∀ p q, .cleared p (some q) ∈ h.log → q = p

theorem numbered_init : Numbered .init where
  sound := sound_init
  entry id p hid := by cases hid
  pooled p t live := by cases live.1
  nonzero p t live := by cases live.1
  distinct p q t t' live := by cases live.1
  own p q h := by cases h

theorem Numbered.represents {h : History} (inv : Numbered h) : Represents h where
  entries id p := by
    constructor
    · intro hid
      exact ⟨inv.entry id p hid, fun ticked => inv.sound.ticked p ticked id hid⟩
    · rintro ⟨⟨t, live, rfl⟩, away⟩
      exact (inv.pooled p t live).resolve_right away
  nonzero := inv.nonzero
  distinct := inv.distinct
  own := inv.own

section Steps

variable {s u : State} {held : Bool} {log ev : List Event} {m : Move}

/-- A live timer was live before, or is the one that was created. -/
theorem Effect.live_cases (effect : Effect s m u ev) {p : Nat} {t' : Timer} (live : Live u p t') :
    (∃ t, Live s p t ∧ t.id = t'.id) ∨ p = s.size ∧ t'.id = s.lastId + 1 ∧ ∃ r, m = .create r := by
  rcases effect.heap_cases live.1 with ⟨t, hp, later⟩ | ⟨rfl, r, rfl, rfl⟩
  · exact .inl ⟨t, ⟨hp, Nat.le_zero.mp (live.2 ▸ later.deletes)⟩, later.id.symm⟩
  · exact .inr ⟨rfl, rfl, r, rfl⟩

theorem Numbered.freshId (keyed : Keyed s) (inv : Numbered ⟨s, held, log⟩)
    (ok : NoCollision ⟨s, held, log⟩ m) : FreshId ⟨s, held, log⟩ m := by
  cases m with
  | create r =>
      refine Option.eq_none_iff_forall_ne_some.mpr fun p hid => ?_
      obtain ⟨t, live, same⟩ := inv.entry _ p hid
      exact ok.2 p (keyed.allocated p t live.1) t live.1 live.2 same
  | clear | tickEvent | tick | fire | returns | destroy => trivial

theorem Live.not_deleted {p : Nat} {t v : Timer} (live : Live s p t) (hp : s.heap p = some v) :
    ¬ v.deletes ≠ 0 := by
  rw [Option.some.inj (hp.symm.trans live.1)]
  exact not_not_intro live.2

theorem Live.fired {p q : Nat} {t v : Timer} (live : Live s p t) (hq : s.heap q = some v) {b : Bool}
    {pc : Pc} : ∃ t', Live { s with
      heap := update s.heap q (some v.fired), pc := pc, usedDeleted := b } p t' ∧ t'.id = t.id := by
  by_cases e : p = q
  · subst e
    obtain rfl := Option.some.inj (hq.symm.trans live.1)
    exact ⟨v.fired, ⟨update_self .., live.2⟩, rfl⟩
  · exact ⟨t, ⟨(update_of_ne e ..).trans live.1, live.2⟩, rfl⟩

/-- What is in the pool after a step is live. -/
theorem Numbered.entry_step (keyed : Keyed s) (inv : Numbered ⟨s, held, log⟩)
    (effect : Effect s m u ev) {id : TimerId} {p : Nat} (hid : u.pool id = some p) :
    ∃ t, Live u p t ∧ t.id = id := by
  rcases effect.pool_cases hid with old | ⟨rfl, rfl, r, rfl⟩
  · obtain ⟨t, live, rfl⟩ := inv.entry id p old
    -- Only an object that leaves the pool is deleted.
    have still : ∀ q v, q ≠ p → Live { u with heap := update s.heap q (some v) } p t :=
      fun q v ne => ⟨(update_of_ne ne.symm ..).trans live.1, live.2⟩
    cases effect with
    | create r js =>
        have ne := Nat.ne_of_lt (keyed.allocated p t live.1)
        exact ⟨t, ⟨(update_of_ne ne ..).trans live.1, live.2⟩, rfl⟩
    | clear hd q v v' used js handle hit hq =>
        refine ⟨t, still q v'.released ?_, rfl⟩
        rintro rfl
        exact keyed.pop_self hit t.id hid
    | fire q v used idle hq active pooled => exact live.fired hq
    | fireAlone q v used idle hq active pooled => exact live.fired hq
    | tickDone c q v used hpc hq =>
        refine ⟨t, still q v.released ?_, rfl⟩
        rintro rfl
        exact inv.sound.ticked q (by rw [hpc]; rfl) t.id hid
    | oneShotDone q v used hpc hq =>
        refine ⟨t, still q v.deleted ?_, rfl⟩
        rintro rfl
        obtain rfl := Option.some.inj (hq.symm.trans live.1)
        have pooled := inv.sound.pooled v.id q v old hq
        simp [pooled, inv.nonzero q v live] at hid
    | destroy => cases hid
    | miss | tickEvent | take | stale | drained | call | repeatDone => exact ⟨t, live, rfl⟩
  · cases effect
    exact ⟨_, ⟨update_self .., rfl⟩, rfl⟩

/-- What is live after a step is in the pool or being called by `do_tick`. -/
theorem Numbered.pooled_step (keyed : Keyed s) (inv : Numbered ⟨s, held, log⟩)
    (ok : NoCollision ⟨s, held, log⟩ m) (effect : Effect s m u ev) {p : Nat} {t' : Timer}
    (live' : Live u p t') : u.pool t'.id = some p ∨ u.pc.ticked = some p := by
  have fresh := inv.freshId keyed ok
  rcases effect.live_cases live' with ⟨t, live, same⟩ | ⟨rfl, id, r, rfl⟩
  · rw [← same]
    have before := inv.pooled p t live
    have quiet : s.pc.ticked = none → s.pool t.id = some p := fun none =>
      before.resolve_right (by rw [none]; nofun)
    cases effect with
    | create r js => exact before.imp_left (createTimer_pool_kept fresh)
    | clear hd q v v' used js handle hit hq =>
        refine before.imp_left fun entry => update_pool_of_ne hit entry ?_
        rintro rfl
        exact live'.not_deleted (update_self ..) (Nat.succ_ne_zero _)
    | take c id q v used hpc last hit hq =>
        by_cases e : p = q
        · exact .inr (congrArg some e.symm)
        · exact .inl (update_pool_of_ne hit (quiet (by rw [hpc]; rfl)) e)
    | tickDone c q v used hpc hq =>
        refine .inl (before.resolve_right fun ticked => ?_)
        rw [hpc] at ticked
        obtain rfl := Option.some.inj ticked
        exact live'.not_deleted (update_self ..) (Nat.succ_ne_zero _)
    | oneShotDone q v used hpc hq =>
        have ne : p ≠ q := by
          rintro rfl
          exact live'.not_deleted (update_self ..) (Nat.succ_ne_zero _)
        exact .inl (inv.sound.deleted_keeps hpc hq (quiet (by rw [hpc]; rfl)) ne)
    | destroy idle =>
        have entry := quiet (by rw [idle]; rfl)
        have gone : s.destroy.heap p = some t.released := by
          rw [destroy_eq]
          simp [(mem_entries keyed.allocated).mpr ⟨t, live.1, entry⟩, live.1]
        exact absurd (Nat.succ_ne_zero _) (live'.not_deleted gone)
    | miss => exact before
    | stale => exact before
    | tickEvent idle => exact .inl (quiet (by rw [idle]; rfl))
    | drained hpc | call _ _ _ _ hpc | repeatDone _ hpc => exact .inl (quiet (by rw [hpc]; rfl))
    | fire _ _ _ idle | fireAlone _ _ _ idle => exact .inl (quiet (by rw [idle]; rfl))
  · cases effect
    rw [id]
    exact .inl (by rw [createTimer_pool fresh, update_self])

theorem Numbered.step (keyed : Keyed s) (inv : Numbered ⟨s, held, log⟩)
    (ok : NoCollision ⟨s, held, log⟩ m) (effect : Effect s m u ev) :
    Numbered ⟨u, m.tickRef s held, log ++ ev⟩ where
  sound := inv.sound.step keyed (inv.freshId keyed ok) effect
  entry id p hid := inv.entry_step keyed effect hid
  pooled p t live := inv.pooled_step keyed ok effect live
  nonzero p t live := by
    rcases effect.live_cases live with ⟨t', live, same⟩ | ⟨-, id, r, rfl⟩
    · exact same ▸ inv.nonzero p t' live
    · exact id ▸ ok.1
  distinct p q t t' live live' same := by
    rcases effect.live_cases live with ⟨v, old, e⟩ | ⟨rfl, id, r, rfl⟩
    · rcases effect.live_cases live' with ⟨v', old', e'⟩ | ⟨rfl, id, r, rfl⟩
      · exact inv.distinct p q v v' old old' (e.trans (same.trans e'.symm))
      · exact absurd (e.trans (same.trans id)) (ok.2 p (keyed.allocated p v old.1) v old.1 old.2)
    · rcases effect.live_cases live' with ⟨v', old', e'⟩ | ⟨rfl, -⟩
      · exact absurd (e'.trans (same.symm.trans id))
          (ok.2 q (keyed.allocated q v' old'.1) v' old'.1 old'.2)
      · rfl
  own p q cleared := by
    rcases List.mem_append.mp cleared with old | new
    · exact inv.own p q old
    · cases effect with
      | clear hd q' v v' used js handle hit hq =>
          obtain ⟨rfl, same⟩ := Event.cleared.inj (List.mem_singleton.mp new)
          obtain rfl := Option.some.inj same
          obtain ⟨t, live, id⟩ := inv.entry v.id q hit
          refine (ok v handle q (keyed.allocated q t live.1) t live.1 live.2 id).resolve_right ?_
          exact fun ticked => inv.sound.ticked q ticked v.id hit
      | create | miss | take | call | fireAlone | tickEvent | stale | drained | fire | tickDone
      | oneShotDone | repeatDone | destroy => simp at new

/-- A step that lets an identifier be that of two timers. -/
theorem Numbered.collision (inv : Numbered ⟨s, held, log⟩)
    (bad : ¬ NoCollision ⟨s, held, log⟩ m) (effect : Effect s m u ev) {ref : Bool} :
    ¬ Represents ⟨u, ref, log ++ ev⟩ := by
  intro all
  cases effect with
  | create r js =>
      have new : Live (s.createTimer r) s.size
          ⟨s.lastId + 1, true, r.kind, decide (r.kind ≠ .tick), 0⟩ := ⟨update_self .., rfl⟩
      refine bad ⟨all.nonzero _ _ new, fun q hq t hp live same => ?_⟩
      have old : Live (s.createTimer r) q t := ⟨(update_of_ne (Nat.ne_of_lt hq) ..).trans hp, live⟩
      exact Nat.ne_of_lt hq (all.distinct _ _ _ _ old new same)
  | miss hd v js handle gone =>
      refine bad fun own hown q hq t hp live same => .inr ?_
      obtain rfl := Option.some.inj (handle.symm.trans hown)
      refine (inv.pooled q t ⟨hp, live⟩).resolve_left fun entry => ?_
      rw [same] at entry
      cases gone.symm.trans entry
  | clear hd q v v' used js handle hit hq =>
      refine bad fun own hown q' hq' t hp live same => ?_
      obtain rfl := Option.some.inj (handle.symm.trans hown)
      refine (inv.pooled q' t ⟨hp, live⟩).imp_left fun entry => ?_
      obtain rfl := Option.some.inj (hit.symm.trans (same ▸ entry))
      exact all.own hd q (by simp)
  | tickEvent | take | stale | drained | call | fire | fireAlone | tickDone | oneShotDone
  | repeatDone | destroy => exact bad trivial

end Steps

/-- **The pool represents the timers** after every step of a history if and only if no
identifier is that of two timers at once. -/
theorem pool_represents_iff (ms : List Move) :
    Always History.step Represents .init ms ↔ Meets History.step NoCollision .init ms := by
  have init : Keyed History.init.state ∧ Numbered .init := ⟨keyed_init, numbered_init⟩
  refine always_iff_meets (I := fun h => Keyed h.state ∧ Numbered h)
    ?_ (fun h inv => inv.2.represents)
    ?_ init ms
  · intro ⟨s, held, log⟩ m ⟨u, held', log'⟩ ⟨keyed, inv⟩ ok hs
    obtain ⟨effect, hlog, href⟩ := step_effect keyed hs
    obtain rfl : log' = log ++ m.events s := hlog
    obtain rfl : held' = m.tickRef s held := href
    exact ⟨keyed.step effect, inv.step keyed ok effect⟩
  · intro ⟨s, held, log⟩ m ⟨u, held', log'⟩ ⟨keyed, inv⟩ bad hs
    obtain ⟨effect, hlog, -⟩ := step_effect keyed hs
    obtain rfl : log' = log ++ m.events s := hlog
    exact inv.collision bad effect

/-- The identifier of an interval comes round to an immediate. -/
theorem identifier_given_twice : ¬ Always History.step Represents .init
    (comeRound ++ [.create .setImmediate]) := by
  obtain ⟨heap, log, interval, -, rest⟩ := run_comeRound
  let s : State := { Timers.init with
    lastId := 1
    pool := update (fun _ => none) 2 (some 0)
    heap := heap
    size := 0x100000000 }
  have hrun : run History.step .init (comeRound ++ [.create .setImmediate]) =
      some ⟨s.createTimer .setImmediate, false, .created 0 (.setInterval 1) :: log ++
        [.created 0x100000000 .setImmediate]⟩ := rest [.create .setImmediate]
  have old : Live (s.createTimer .setImmediate) 0 ⟨2, true, .repeating, true, 0⟩ := by
    refine ⟨?_, rfl⟩
    rw [State.createTimer_heap, update_of_ne (Nat.ne_of_lt (Nat.succ_pos _))]
    exact interval
  have new : Live (s.createTimer .setImmediate) s.size ⟨2, true, .oneShot, true, 0⟩ := by
    refine ⟨?_, rfl⟩
    rw [State.createTimer_heap, update_self]
    rfl
  intro all
  exact absurd ((all.last hrun).distinct 0 s.size _ _ old new rfl) (Nat.ne_of_lt (Nat.succ_pos _))

end ThreadJs.Timers
