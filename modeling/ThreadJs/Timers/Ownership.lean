import ThreadJs.Timers.Pool

/-!
Who owns a `Timer`.

A live object is owned by the pool, or by `do_tick`, which takes it out of the pool
before it calls it. `timeout_one_cb` does not: it calls first and deletes then, so
a callback that clears its own timer deletes it twice. This, clearing a timer from
a tick that runs on the way into its call, and an identifier that comes round to
one still in use are the only openings; without them every object is deleted exactly
once and never used afterwards (`timers_deleted_once`).
-/

namespace ThreadJs.Timers

open Machine Function

/-- The timer that a uv callback is in the middle of calling and that it will use
again. -/
def State.firing (s : State) : Option Nat :=
  match s.pc with
  | .ticking (.oneShot p) | .ticking (.repeating p) => some p
  | .tickFn (.oneShot p) _ | .tickFn (.repeating p) _ => some p
  | .fireFn (.oneShot p) => some p
  | _ => none

/-- The timer that `do_tick` is calling. -/
def State.ticked (s : State) : Option Nat :=
  match s.pc with
  | .tickFn _ p => some p
  | _ => none

/-- No object is used after its deletion or deleted twice, and `~TimerPool` leaves
none behind. -/
structure DeletedOnce (s : State) : Prop where
  unused : s.usedDeleted = false
  atMost : ∀ p t, s.heap p = some t → t.deletes ≤ 1
  all : s.pc = .destroyed → ∀ p t, s.heap p = some t → t.deletes = 1

/-- An identifier that `createTimer` may give out: not 0, and in use neither in the
pool nor in the tick queue. -/
def State.Free (s : State) (id : TimerId) : Prop :=
  id ≠ 0 ∧ s.pool id = none ∧ id ∉ s.tickQueue

/-- No timer is cleared in the middle of its own call, and identifiers do not come
round to one in use. -/
def Spares (s : State) : Action → Prop
  | .clear id => s.pool id = none ∨ s.pool id ≠ s.firing
  | .create _ => s.Free (s.lastId + 1)
  | _ => True

instance (s : State) (a : Action) : Decidable (Spares s a) :=
  match a with
  | .clear id => inferInstanceAs (Decidable (s.pool id = none ∨ s.pool id ≠ s.firing))
  | .create _ => inferInstanceAs (Decidable (_ ∧ _ ∧ _))
  | .tickEvent | .tick | .fire _ | .returns | .destroy => isTrue trivial

structure Owned (s : State) : Prop where
  unused : s.usedDeleted = false
  allocated : ∀ p t, s.heap p = some t → p < s.size
  once : ∀ p t, s.heap p = some t → t.deletes ≤ 1
  /-- An entry of the pool is a live object under its own identifier. -/
  pooled : ∀ id p, s.pool id = some p →
    ∃ t, s.heap p = some t ∧ t.id = id ∧ t.pooled = true ∧ t.deletes = 0 ∧ id ≠ 0
  /-- A live object has an owner. -/
  owner : ∀ p t, s.heap p = some t → t.deletes = 0 → s.pool t.id = some p ∨ s.ticked = some p
  active : ∀ p t, s.heap p = some t → t.active = true → t.deletes = 0 ∧ t.kind ≠ .tick
  queue : ∀ id ∈ s.tickQueue, ∀ p t, s.pool id = some p → s.heap p = some t → t.kind = .tick
  ticked : ∀ p, s.ticked = some p →
    ∃ t, s.heap p = some t ∧ t.deletes = 0 ∧ s.pool t.id ≠ some p
  firing : ∀ p, s.firing = some p →
    ∃ t, s.heap p = some t ∧ s.pool t.id = some p ∧ t.kind ≠ .tick
  destroyed : s.pc = .destroyed → ∀ p t, s.heap p = some t → t.deletes = 1

theorem Owned.deletedOnce {s : State} (h : Owned s) : DeletedOnce s :=
  ⟨h.unused, h.once, h.destroyed⟩

theorem owned_init : Owned init where
  unused := rfl
  allocated := nofun
  once := nofun
  pooled := nofun
  owner := nofun
  active := nofun
  queue := nofun
  ticked := nofun
  firing := nofun
  destroyed := nofun

/-! ### Methods of a live object -/

section Live

variable {s : State} {p : Nat} {t : Timer}

theorem enter_live (hp : s.heap p = some t) (live : t.deletes = 0) : s.enter p = s := by
  simp only [State.enter, hp, live, if_true]

/-- Releasing a live object touches nothing but the object. -/
theorem release_live (hp : s.heap p = some t) (live : t.deletes = 0) :
    s.release p = { s with heap := update s.heap p (some t.released) } := by
  simp [release_eq hp, live]

/-- Deleting a live object that its pool still holds takes it out. -/
theorem delete_live (hp : s.heap p = some t) (live : t.deletes = 0) (pooled : t.pooled = true)
    (hid : t.id ≠ 0) : s.delete p = { s with
      heap := update s.heap p (some t.deleted)
      pool := update s.pool t.id none } := by
  simp [delete_eq hp, live, pooled, hid]

end Live

/-! ### Steps -/

section Steps

variable {s u : State}

/-- The entry of a live object of the pool. -/
theorem Owned.pool_iff (h : Owned s) {p : Nat} {t : Timer} (hp : s.heap p = some t) {id : TimerId}
    (hid : s.pool id = some p) : id = t.id := by
  obtain ⟨t', hp', rfl, -⟩ := h.pooled id p hid
  rw [Option.some.inj (hp.symm.trans hp')]

/-- The timer that is being ticked is in no pool and is nobody else's timer. -/
theorem Owned.ticked_alone (h : Owned s) {p : Nat} (hticked : s.ticked = some p) :
    (∀ id, s.pool id ≠ some p) ∧ s.firing ≠ some p := by
  obtain ⟨t, hp, -, out⟩ := h.ticked p hticked
  refine ⟨fun id hid => out (h.pool_iff hp hid ▸ hid), fun hfiring => ?_⟩
  obtain ⟨t', hp', hin, -⟩ := h.firing p hfiring
  rw [Option.some.inj (hp'.symm.trans hp)] at hin
  exact out hin

/-- A live object is deleted and leaves its owner, and all others stay as they are. -/
theorem Owned.retire (h : Owned s) {p : Nat} {t t' : Timer} (hp : s.heap p = some t)
    (live : t.deletes = 0) (hdel : t'.deletes = t.deletes + 1) (hact : t'.active = false)
    (hheap : u.heap = update s.heap p (some t'))
    (hunused : u.usedDeleted = false) (hsize : u.size = s.size)
    (hqueue : u.tickQueue = s.tickQueue)
    (hpool : ∀ id q, u.pool id = some q ↔ s.pool id = some q ∧ q ≠ p)
    (hticked : ∀ q, u.ticked = some q ↔ s.ticked = some q ∧ q ≠ p)
    (hfiring : ∀ q, u.firing = some q → s.firing = some q ∧ q ≠ p) (hpc : u.pc ≠ .destroyed) :
    Owned u := by
  have other : ∀ {q t}, u.heap q = some t → q = p ∧ t = t' ∨ q ≠ p ∧ s.heap q = some t :=
    fun hq => update_heap_cases (hheap ▸ hq)
  have one : t'.deletes = 1 := by rw [hdel, live]
  have same : ∀ {q}, q ≠ p → u.heap q = s.heap q := fun hq => by rw [hheap, update_of_ne hq]
  refine ⟨hunused, ?_, ?_, ?_, ?_, ?_, ?_, ?_, ?_, fun gone => absurd gone hpc⟩
  · intro q t hq
    rw [hsize]
    rcases other hq with ⟨rfl, -⟩ | ⟨-, hq⟩
    · exact h.allocated _ _ hp
    · exact h.allocated _ _ hq
  · intro q t hq
    rcases other hq with ⟨-, rfl⟩ | ⟨-, hq⟩
    · exact Nat.le_of_eq one
    · exact h.once _ _ hq
  · intro id q hid
    obtain ⟨hin, hne⟩ := (hpool id q).mp hid
    obtain ⟨t, hq, rest⟩ := h.pooled id q hin
    exact ⟨t, (same hne).trans hq, rest⟩
  · intro q t hq live
    rcases other hq with ⟨-, rfl⟩ | ⟨hne, hq⟩
    · exact absurd (one.symm.trans live) nofun
    · rcases h.owner q t hq live with hin | hin
      · exact .inl ((hpool _ _).mpr ⟨hin, hne⟩)
      · exact .inr ((hticked q).mpr ⟨hin, hne⟩)
  · intro q t hq active
    rcases other hq with ⟨-, rfl⟩ | ⟨-, hq⟩
    · exact absurd (hact.symm.trans active) nofun
    · exact h.active _ _ hq active
  · rw [hqueue]
    intro id hin q t hid hq
    obtain ⟨hid, hne⟩ := (hpool id q).mp hid
    exact h.queue id hin q t hid ((same hne).symm.trans hq)
  · intro q hq
    obtain ⟨hin, hne⟩ := (hticked q).mp hq
    obtain ⟨t, hq, live, out⟩ := h.ticked q hin
    exact ⟨t, (same hne).trans hq, live, fun hid => out ((hpool _ _).mp hid).1⟩
  · intro q hq
    obtain ⟨hin, hne⟩ := hfiring q hq
    obtain ⟨t, hq, hid, hkind⟩ := h.firing q hin
    exact ⟨t, (same hne).trans hq, (hpool _ _).mpr ⟨hid, hne⟩, hkind⟩

/-- Taking out the entry of `p` takes out nothing else. -/
theorem Owned.pop_iff (h : Owned s) {p : Nat} {t : Timer} (hp : s.heap p = some t) {id : TimerId}
    (hid : s.pool id = some p) (id' : TimerId) (q : Nat) :
    update s.pool id none id' = some q ↔ s.pool id' = some q ∧ q ≠ p := by
  rw [update_apply]
  split
  · next heq =>
      rw [heq, hid]
      exact ⟨nofun, fun ⟨hq, hne⟩ => absurd (Option.some.inj hq).symm hne⟩
  · next hne =>
      refine ⟨fun hq => ⟨hq, ?_⟩, fun hq => hq.1⟩
      rintro rfl
      exact hne ((h.pool_iff hp hq).trans (h.pool_iff hp hid).symm)

theorem Owned.clearTime (h : Owned s) {id : TimerId} (hjs : s.inJs = true)
    (hc : Spares s (.clear id)) : Owned (s.clearTime id) := by
  unfold State.clearTime
  split
  · next p hid =>
      obtain ⟨t, hp, -, -, live, -⟩ := h.pooled id p hid
      have notFiring : s.firing ≠ some p := by
        rcases hc with none | hc
        · exact absurd (hid.symm.trans none) nofun
        · exact fun hfiring => hc (hid.trans hfiring.symm)
      have notTicked : s.ticked ≠ some p := fun hticked => (h.ticked_alone hticked).1 id hid
      rw [release_live (s := s.pop id) hp live]
      refine h.retire hp live rfl rfl rfl h.unused rfl rfl (h.pop_iff hp hid) ?_ ?_ ?_
      · exact fun q => ⟨fun hq => ⟨hq, fun e => notTicked (e ▸ hq)⟩, fun hq => hq.1⟩
      · exact fun q hq => ⟨hq, fun e => notFiring (e ▸ hq)⟩
      · intro gone
        change s.pc = .destroyed at gone
        rw [State.inJs, gone] at hjs
        cases hjs
  · exact h

theorem Owned.createTimer (h : Owned s) (r : Request) (hjs : s.inJs = true)
    (hc : Spares s (.create r)) : Owned (s.createTimer r) := by
  obtain ⟨nonzero, fresh, unqueued⟩ := hc
  have below : ∀ {q t}, s.heap q = some t → (s.createTimer r).heap q = some t := by
    intro q t hq
    have hne : q ≠ s.size := Nat.ne_of_lt (h.allocated q t hq)
    rw [State.createTimer_heap, update_of_ne hne, hq]
  have split : ∀ {q t}, (s.createTimer r).heap q = some t →
      q = s.size ∧ t = ⟨s.lastId + 1, true, r.kind, decide (r.kind ≠ .tick), 0⟩ ∨
      s.heap q = some t := fun hq => (update_heap_cases hq).imp_right And.right
  have hpool := createTimer_pool (r := r) fresh
  have kept : ∀ {id q}, s.pool id = some q → (s.createTimer r).pool id = some q :=
    createTimer_pool_kept fresh
  refine ⟨h.unused, ?_, ?_, ?_, ?_, ?_, ?_, ?_, ?_, ?_⟩
  · intro q t hq
    rcases split hq with ⟨rfl, -⟩ | hq
    · exact Nat.lt_succ_self _
    · exact Nat.lt_succ_of_lt (h.allocated q t hq)
  · intro q t hq
    rcases split hq with ⟨-, rfl⟩ | hq
    · exact Nat.zero_le 1
    · exact h.once q t hq
  · intro id q hid
    rw [hpool, update_apply] at hid
    split at hid
    · next hnew =>
        obtain rfl := Option.some.inj hid
        exact ⟨_, by rw [State.createTimer_heap, update_self], hnew.symm, rfl, rfl, hnew ▸ nonzero⟩
    · obtain ⟨t, hq, rest⟩ := h.pooled id q hid
      exact ⟨t, below hq, rest⟩
  · intro q t hq live
    rcases split hq with ⟨rfl, rfl⟩ | hq
    · exact .inl (by rw [hpool, update_self])
    · exact (h.owner q t hq live).imp_left kept
  · intro q t hq active
    rcases split hq with ⟨-, rfl⟩ | hq
    · exact ⟨rfl, of_decide_eq_true active⟩
    · exact h.active q t hq active
  · intro id hin q t hid hq
    by_cases hnew : id = s.lastId + 1
    · -- The identifier was not queued before, so it was queued as a tick just now.
      rw [hpool, hnew, update_self] at hid
      obtain rfl := Option.some.inj hid
      rw [State.createTimer_heap, update_self] at hq
      obtain rfl := Option.some.inj hq
      by_contra hkind
      have queued : id ∈ s.tickQueue := by simpa [State.createTimer, hkind] using hin
      exact unqueued (hnew ▸ queued)
    · have queued : id ∈ s.tickQueue := by
        by_cases hkind : r.kind = .tick <;> simpa [State.createTimer, hkind, hnew] using hin
      rw [hpool, update_of_ne hnew] at hid
      obtain ⟨t', hq', -⟩ := h.pooled id q hid
      rw [Option.some.inj (hq.symm.trans (below hq'))]
      exact h.queue id queued q t' hid hq'
  · intro q hq
    obtain ⟨t, hq', live, out⟩ := h.ticked q hq
    refine ⟨t, below hq', live, fun hid => ?_⟩
    rw [hpool, update_apply] at hid
    split at hid
    · exact absurd (Option.some.inj hid) (Nat.ne_of_gt (h.allocated q t hq'))
    · exact out hid
  · intro q hq
    obtain ⟨t, hq', hid, hkind⟩ := h.firing q hq
    exact ⟨t, below hq', kept hid, hkind⟩
  · intro gone
    change s.pc = .destroyed at gone
    rw [State.inJs, gone] at hjs
    cases hjs

/-- A step that changes no object, moves no ownership and does not end the run. -/
theorem Owned.of_pc (h : Owned s) (hheap : u.heap = s.heap) (hpool : u.pool = s.pool)
    (hsize : u.size = s.size) (hqueue : ∀ id ∈ u.tickQueue, id ∈ s.tickQueue)
    (hunused : u.usedDeleted = false) (hticked : u.ticked = s.ticked)
    (hfiring : ∀ q, u.firing = some q → s.firing = some q) (hpc : u.pc ≠ .destroyed) : Owned u where
  unused := hunused
  allocated := by rw [hheap, hsize]; exact h.allocated
  once := by rw [hheap]; exact h.once
  pooled := by rw [hheap, hpool]; exact h.pooled
  owner := by rw [hheap, hpool, hticked]; exact h.owner
  active := by rw [hheap]; exact h.active
  queue := by rw [hheap, hpool]; exact fun id hin => h.queue id (hqueue id hin)
  ticked := by rw [hheap, hpool, hticked]; exact h.ticked
  firing := by rw [hheap, hpool]; exact fun q hq => h.firing q (hfiring q hq)
  destroyed := fun gone => absurd gone hpc

/-- The timer that a frame of `Timer::call` comes back to is alive. -/
theorem Owned.enter_firing (h : Owned s) {p : Nat} (hp : s.firing = some p) : s.enter p = s := by
  obtain ⟨t, hheap, hid, -⟩ := h.firing p hp
  obtain ⟨t', hheap', -, -, live, -⟩ := h.pooled _ p hid
  exact enter_live hheap' live

/-- `do_tick` takes a timer out of the pool and calls it. -/
theorem Owned.take (h : Owned s) {c : Caller} (hpc : s.pc = .ticking c) {p : Nat} {t : Timer}
    (hp : s.heap p = some t) (live : t.deletes = 0) (hid : s.pool t.id = some p)
    (htick : t.kind = .tick) (hpool : u.pool = update s.pool t.id none) (hheap : u.heap = s.heap)
    (hsize : u.size = s.size) (hqueue : ∀ id ∈ u.tickQueue, id ∈ s.tickQueue)
    (hunused : u.usedDeleted = false) (hupc : u.pc = .tickFn c p) : Owned u := by
  have pops := h.pop_iff hp hid
  rw [← hpool] at pops
  have noTick : ∀ q, s.ticked ≠ some q := fun q => by rw [State.ticked, hpc]; nofun
  have ticked : u.ticked = some p := by rw [State.ticked, hupc]
  have firing : u.firing = s.firing := by cases c <;> rw [State.firing, State.firing, hpc, hupc]
  refine ⟨hunused, ?_, ?_, ?_, ?_, ?_, ?_, ?_, ?_, fun gone => absurd (hupc.symm.trans gone) nofun⟩
  · rw [hheap, hsize]
    exact h.allocated
  · rw [hheap]
    exact h.once
  · intro id q hq
    rw [hheap]
    exact h.pooled id q ((pops id q).mp hq).1
  · intro q t' hq live'
    rw [hheap] at hq
    by_cases hqp : q = p
    · exact .inr (hqp ▸ ticked)
    · rcases h.owner q t' hq live' with hin | hin
      · exact .inl ((pops _ _).mpr ⟨hin, hqp⟩)
      · exact absurd hin (noTick q)
  · rw [hheap]
    exact h.active
  · intro id hin q t' hq
    rw [hheap]
    exact h.queue id (hqueue id hin) q t' ((pops id q).mp hq).1
  · intro q hq
    obtain rfl := Option.some.inj (ticked.symm.trans hq)
    exact ⟨t, hheap ▸ hp, live, fun hin => ((pops _ _).mp hin).2 rfl⟩
  · intro q hq
    obtain ⟨t', hq', hin, hkind⟩ := h.firing q (firing ▸ hq)
    refine ⟨t', hheap ▸ hq', (pops _ _).mpr ⟨hin, ?_⟩, hkind⟩
    rintro rfl
    exact hkind (Option.some.inj (hq'.symm.trans hp) ▸ htick)

theorem Owned.doTick (h : Owned s) {c : Caller} (hpc : s.pc = .ticking c) : Owned (s.doTick c) := by
  have noTick : s.ticked = none := by rw [State.ticked, hpc]
  have shorter : ∀ id ∈ s.tickQueue.dropLast, id ∈ s.tickQueue := fun _ hin =>
    List.dropLast_subset _ hin
  unfold State.doTick
  split
  · next id last =>
      dsimp only
      split
      · next p hid =>
          obtain ⟨t, hp, rfl, -, live, -⟩ := h.pooled id p hid
          have htick := h.queue t.id (List.mem_of_getLast? last) p t hid hp
          have entered : (State.pop { s with tickQueue := s.tickQueue.dropLast } t.id).enter p =
              State.pop { s with tickQueue := s.tickQueue.dropLast } t.id := enter_live hp live
          rw [entered]
          exact h.take hpc hp live hid htick rfl rfl rfl shorter h.unused rfl
      · exact h.of_pc rfl rfl rfl shorter h.unused rfl (fun _ hq => hq) (by rw [hpc]; nofun)
  · cases c with
    | tickEvent => exact h.of_pc rfl rfl rfl (fun _ => id) h.unused noTick.symm nofun nofun
    | oneShot p =>
        have firing : s.firing = some p := by rw [State.firing, hpc]
        simp only [h.enter_firing firing]
        exact h.of_pc rfl rfl rfl (fun _ => id) h.unused noTick.symm (fun _ => firing.trans) nofun
    | repeating p =>
        have firing : s.firing = some p := by rw [State.firing, hpc]
        simp only [h.enter_firing firing]
        exact h.of_pc rfl rfl rfl (fun _ => id) h.unused noTick.symm nofun nofun

/-- A uv callback begins its call: from now on its timer is needed. -/
theorem Owned.fire (h : Owned s) (hpc : s.pc = .idle) {p : Nat} {t : Timer}
    (hp : s.heap p = some t) (hact : t.active = true) : Owned (s.fire p t) := by
  obtain ⟨live, hkind⟩ := h.active p t hp hact
  have noTick : ∀ q, s.ticked ≠ some q := fun q => by rw [State.ticked, hpc]; nofun
  have hid : s.pool t.id = some p := (h.owner p t hp live).resolve_right (noTick p)
  obtain ⟨t', hp', -, pooled, -⟩ := h.pooled _ p hid
  obtain rfl := Option.some.inj (hp.symm.trans hp')
  obtain ⟨pool, size, queue, unused⟩ : (s.fire p t).pool = s.pool ∧ (s.fire p t).size = s.size ∧
      (s.fire p t).tickQueue = s.tickQueue ∧ (s.fire p t).usedDeleted = s.usedDeleted := by
    simp only [State.fire, enter_live hp live, and_self]
  have hupc : (s.fire p t).pc =
      .ticking (if t.kind = .oneShot then .oneShot p else .repeating p) := if_pos pooled
  have ticked : ∀ q, (s.fire p t).ticked ≠ some q := fun q => by rw [State.ticked, hupc]; nofun
  have firing : (s.fire p t).firing = some p := by
    rw [State.firing, hupc]
    by_cases one : t.kind = .oneShot <;> simp [one]
  -- Only the field `active` of the timer itself changes.
  have hheap : (s.fire p t).heap = update s.heap p (some t.fired) := rfl
  have before : ∀ {q t'}, (s.fire p t).heap q = some t' → ∃ t₀, s.heap q = some t₀ ∧
      t'.id = t₀.id ∧ t'.deletes = t₀.deletes ∧ t'.kind = t₀.kind ∧
      (t'.active = true → t₀.active = true) := by
    intro q t' hq
    rcases update_heap_cases (hheap ▸ hq) with ⟨rfl, rfl⟩ | ⟨-, hq⟩
    · exact ⟨t, hp, rfl, rfl, rfl, fun _ => hact⟩
    · exact ⟨t', hq, rfl, rfl, rfl, id⟩
  have after : ∀ {q t₀}, s.heap q = some t₀ → ∃ t', (s.fire p t).heap q = some t' ∧
      t'.id = t₀.id ∧ t'.pooled = t₀.pooled ∧ t'.deletes = t₀.deletes ∧ t'.kind = t₀.kind := by
    intro q t₀ hq
    rw [hheap, update_apply]
    split
    · next hqp =>
        rw [hqp, hp] at hq
        rw [← Option.some.inj hq]
        exact ⟨_, rfl, rfl, rfl, rfl, rfl⟩
    · exact ⟨t₀, hq, rfl, rfl, rfl, rfl⟩
  refine ⟨unused.trans h.unused, ?_, ?_, ?_, ?_, ?_, ?_, fun q hq => absurd hq (ticked q), ?_,
    fun gone => absurd (hupc.symm.trans gone) nofun⟩
  · intro q t' hq
    obtain ⟨t₀, hq, -⟩ := before hq
    exact size ▸ h.allocated q t₀ hq
  · intro q t' hq
    obtain ⟨t₀, hq, -, deletes, -⟩ := before hq
    exact deletes ▸ h.once q t₀ hq
  · rw [pool]
    intro id q hq
    obtain ⟨t₀, hq₀, rfl, pooled, live, nonzero⟩ := h.pooled id q hq
    obtain ⟨t', hq', sameId, samePooled, sameDeletes, -⟩ := after hq₀
    exact ⟨t', hq', sameId, samePooled.trans pooled, sameDeletes.trans live, nonzero⟩
  · rw [pool]
    intro q t' hq live
    obtain ⟨t₀, hq, sameId, deletes, -⟩ := before hq
    rw [sameId]
    exact .inl ((h.owner q t₀ hq (deletes.symm.trans live)).resolve_right (noTick q))
  · intro q t' hq active
    obtain ⟨t₀, hq, -, deletes, kind, was⟩ := before hq
    rw [deletes, kind]
    exact h.active q t₀ hq (was active)
  · rw [queue, pool]
    intro id hin q t' hid hq
    obtain ⟨t₀, hq, -, -, kind, -⟩ := before hq
    exact kind.trans (h.queue id hin q t₀ hid hq)
  · intro q hq
    obtain rfl := Option.some.inj (firing.symm.trans hq)
    obtain ⟨t', hq, sameId, -, -, kind⟩ := after hp
    exact ⟨t', hq, by rw [pool, sameId, hid], kind ▸ hkind⟩

/-- The function of a timer returns to `do_tick` or to the uv callback. -/
theorem Owned.returns (h : Owned s) (hs : step s .returns = some u) : Owned u := by
  simp only [step, h.unused, Bool.false_eq_true, if_false] at hs
  split at hs
  · next c p hpc =>
      obtain rfl := Option.some.inj hs
      have hticked : s.ticked = some p := by rw [State.ticked, hpc]
      obtain ⟨t, hp, live, -⟩ := h.ticked p hticked
      obtain ⟨out, notFiring⟩ := h.ticked_alone hticked
      rw [release_live hp live]
      refine h.retire hp live rfl rfl rfl h.unused rfl rfl ?_ ?_ ?_ nofun
      · exact fun id q => ⟨fun hid => ⟨hid, fun hqp => out id (hqp ▸ hid)⟩, fun hid => hid.1⟩
      · refine fun q => ⟨nofun, fun ⟨hq, hne⟩ => ?_⟩
        exact absurd (Option.some.inj (hq.symm.trans hticked)) hne
      · intro q hq
        have hq' : s.firing = some q := by
          rw [← hq]
          cases c <;> rw [State.firing, State.firing, hpc]
        exact ⟨hq', fun hqp => notFiring (hqp ▸ hq')⟩
  · next p hpc =>
      obtain rfl := Option.some.inj hs
      have hfiring : s.firing = some p := by rw [State.firing, hpc]
      obtain ⟨t, hp, hid, -⟩ := h.firing p hfiring
      obtain ⟨t', hp', -, pooled, live, nonzero⟩ := h.pooled _ p hid
      obtain rfl := Option.some.inj (hp.symm.trans hp')
      rw [delete_live hp live pooled nonzero]
      refine h.retire hp live rfl rfl rfl h.unused rfl rfl (h.pop_iff hp hid) ?_ nofun nofun
      refine fun q => ⟨nofun, fun ⟨hq, _⟩ => ?_⟩
      rw [State.ticked, hpc] at hq
      cases hq
  · next c other hpc =>
      obtain rfl := Option.some.inj hs
      exact h.of_pc rfl rfl rfl (fun _ => id) rfl (by rw [State.ticked, State.ticked, hpc]) nofun
        nofun
  · cases hs

/-- `~TimerPool` deletes all that is left. -/
theorem Owned.destroy (h : Owned s) (hpc : s.pc = .idle) : Owned s.destroy := by
  have noTick : ∀ q, s.ticked ≠ some q := fun q => by simp [State.ticked, hpc]
  have entries : ∀ {p t}, s.heap p = some t → t.deletes = 0 → p ∈ s.entries := fun hp live =>
    (mem_entries h.allocated).mpr ⟨_, hp, (h.owner _ _ hp live).resolve_right (noTick _)⟩
  have alive : ∀ p ∈ s.entries, ∀ t, s.heap p = some t → t.deletes = 0 := by
    intro p hin t hp
    obtain ⟨t', hp', hid⟩ := (mem_entries h.allocated).mp hin
    obtain ⟨t'', hp'', -, -, live, -⟩ := h.pooled _ p hid
    rwa [Option.some.inj (hp.symm.trans hp'')]
  have gone : ∀ {p t}, s.destroy.heap p = some t →
      t.deletes = 1 ∧ t.active = false ∧ p < s.size := by
    intro p t hp
    rw [destroy_eq] at hp
    dsimp only at hp
    split at hp
    · next hin =>
        obtain ⟨t₀, hp₀, rfl⟩ := Option.map_eq_some_iff.mp hp
        exact ⟨by rw [Timer.released, alive p hin t₀ hp₀], rfl, h.allocated p t₀ hp₀⟩
    · next left =>
        have dead : t.deletes ≠ 0 := fun live => left (entries hp live)
        refine ⟨?_, Bool.eq_false_iff.mpr fun active => dead (h.active p t hp active).1,
          h.allocated p t hp⟩
        have := h.once p t hp
        omega
  have unused : s.destroy.usedDeleted = false := by
    rw [destroy_eq]
    simp only [h.unused, Bool.false_or, List.any_eq_false, Option.any_eq_true, decide_eq_true_eq]
    rintro p hin ⟨t, hp, dead⟩
    exact dead (alive p hin t hp)
  have size : s.destroy.size = s.size := by rw [destroy_eq]
  exact {
    unused := unused
    allocated := fun p t hp => size ▸ (gone hp).2.2
    once := fun p t hp => Nat.le_of_eq (gone hp).1
    pooled := fun id p hid => by cases hid
    owner := fun p t hp live => by cases live.symm.trans (gone hp).1
    active := fun p t hp active => by cases active.symm.trans (gone hp).2.1
    queue := fun id _ p t hid => by cases hid
    ticked := fun p hp => by cases hp
    firing := fun p hp => by cases hp
    destroyed := fun _ p t hp => (gone hp).1 }

/-- A step that spares the timers in use keeps the ownership. -/
theorem Owned.step (h : Owned s) (a : Action) (hc : Spares s a) (hs : Timers.step s a = some u) :
    Owned u := by
  cases a with
  | returns => exact h.returns hs
  | create r =>
      simp only [Timers.step, h.unused, Bool.false_eq_true, if_false,
        Option.ite_none_right_eq_some] at hs
      obtain ⟨hjs, hs⟩ := hs
      obtain rfl := Option.some.inj hs
      exact h.createTimer r hjs hc
  | clear id =>
      simp only [Timers.step, h.unused, Bool.false_eq_true, if_false,
        Option.ite_none_right_eq_some] at hs
      obtain ⟨hjs, hs⟩ := hs
      obtain rfl := Option.some.inj hs
      exact h.clearTime hjs hc
  | tickEvent =>
      simp only [Timers.step, h.unused, Bool.false_eq_true, if_false,
        Option.ite_none_right_eq_some] at hs
      obtain ⟨⟨hpc, -⟩, hs⟩ := hs
      obtain rfl := Option.some.inj hs
      exact h.of_pc rfl rfl rfl (fun _ => id) rfl (by rw [State.ticked, State.ticked, hpc]) nofun
        nofun
  | tick =>
      simp only [Timers.step, h.unused, Bool.false_eq_true, if_false] at hs
      split at hs
      · next c hpc =>
          obtain rfl := Option.some.inj hs
          exact h.doTick hpc
      · cases hs
  | fire p =>
      simp only [Timers.step, h.unused, Bool.false_eq_true, if_false] at hs
      split at hs
      · next t hpc hp =>
          obtain ⟨hact, hs⟩ := Option.ite_none_right_eq_some.mp hs
          obtain rfl := Option.some.inj hs
          exact h.fire hpc hp hact
      · cases hs
  | destroy =>
      simp only [Timers.step, h.unused, Bool.false_eq_true, if_false,
        Option.ite_none_right_eq_some] at hs
      obtain ⟨hpc, hs⟩ := hs
      obtain rfl := Option.some.inj hs
      exact h.destroy hpc

end Steps

/-- **Every timer is deleted exactly once** and never used afterwards, in every
state of a run that spares the timers in use. -/
theorem timers_deleted_once (as : List Action) (spares : Meets step Spares init as) :
    Always step DeletedOnce init as :=
  (Always.of_invariant (fun _ a _ h hc hs => h.step a hc hs) owned_init spares).imp
    fun _ h => h.deletedOnce

/-- An interval that clears itself, a tick, and a timer left to `~TimerPool`. -/
theorem timers_deleted_once_example : Always step DeletedOnce init
    [.create (.setInterval 10), .create .nextTick, .create (.setTimeout 50), .fire 0, .tick,
      .returns, .tick, .clear 2, .returns, .destroy] :=
  timers_deleted_once _ (by decide)

/-- A timer that is cleared by its own callback is deleted by `j_clear_time` and
again by `timeout_one_cb`. -/
theorem cleared_in_callback_deleted_twice : ¬ Always step DeletedOnce init
    [.create (.setTimeout 10), .fire 0, .tick, .clear 2, .returns] := by
  intro all
  have last := all.last (t := _) rfl
  exact absurd last.unused (by decide)

end ThreadJs.Timers
