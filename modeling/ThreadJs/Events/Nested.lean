import ThreadJs.Events.Held

/-!
Nested walks over lists that callbacks change.

`Sound` is kept by every step that is `Orderly`, so `emit` is `WellDefined` in the runs of
such steps.
-/

namespace ThreadJs.Events

open EventEmitter

variable {Name Cb : Type}

namespace Reentrant

structure Sound (owner : ℕ → Name) (s : Reentrant Name Cb) : Prop where
  tidy : Tidy owner s.emitter
  returns : s.fault = false
  held : ∀ name hd, s.emitter.eventHandles name = some hd → Held s.emitter.next hd (s.live name)
  absent : ∀ name, s.emitter.eventHandles name = none → s.live name = []
  running : ∀ f ∈ s.running, ∃ rest, Fixed owner s.emitter f rest
  ended : ∀ f ∈ s.ended, Ended f
  known : ∀ a ∈ s.calls, a < s.emitter.heap.length
  /-- A once listener that has been called is on no way any more. -/
  once : ∀ a ∈ s.calls, (s.emitter.heap[a]?).any Dat.remove = true → s.calls.count a = 1 ∧
    ¬ Reach s.emitter.next (s.emitter.first (owner a)) a ∧
      ∀ f ∈ s.running, ¬ Reach s.emitter.next (s.emitter.next f.node) a

theorem sound_new (owner : ℕ → Name) : Sound owner (new : Reentrant Name Cb) where
  tidy :=
    { handle name hd h := by cases h
      link a b h := by simp [new, EventEmitter.new, EventEmitter.next] at h }
  returns := rfl
  held name hd h := by cases h
  absent name h := rfl
  running f h := by cases h
  ended f h := by cases h
  known a h := by cases h
  once a h := by cases h

theorem Sound.wellDefined {owner : ℕ → Name} {s : Reentrant Name Cb} (h : Sound owner s) :
    WellDefined s := by
  have all : ∀ f ∈ s.running ++ s.ended,
      f.called.Pairwise (· < ·) ∧ ∀ a ∈ f.called, a < f.size := by
    intro f hf
    rcases List.mem_append.mp hf with hf | hf
    · obtain ⟨rest, fixed⟩ := h.running f hf
      exact ⟨(List.pairwise_append.mp fixed.sorted).1,
        fun a ha => fixed.old a (List.mem_append_left rest ha)⟩
    · exact ⟨(h.ended f hf).sorted, (h.ended f hf).old⟩
  have nodup : ∀ f ∈ s.running ++ s.ended, f.called.Nodup := fun f hf =>
    (all f hf).1.imp fun lt => Nat.ne_of_lt lt
  refine ⟨h.returns, fun f hf => (all f hf).2, nodup, fun f hf => ?_,
    fun f hf => (h.ended f hf).all, fun a once => ?_⟩
  · have sub : f.called ⊆ List.range f.size := fun a ha => List.mem_range.mpr ((all f hf).2 a ha)
    simpa using ((nodup f hf).subperm sub).length_le
  · by_cases called : a ∈ s.calls
    · exact Nat.le_of_eq (h.once a called once).1
    · rw [List.count_eq_zero_of_not_mem called]
      exact Nat.zero_le 1

variable {owner : ℕ → Name} {s : Reentrant Name Cb}

/-- What is before a walk in progress. -/
theorem Sound.ahead_node (sound : Sound owner s) {f : Emission Name} {rest : List ℕ}
    (fixed : Fixed owner s.emitter f rest) {a : ℕ} :
    a ∈ ahead s.emitter (some f.node) ↔ a = f.node ∨ a ∈ rest := by
  rw [sound.tidy.mem_ahead fun b hb => Option.some.inj hb ▸ fixed.node, fixed.chain.mem_iff]
  constructor
  · intro reach
    cases reach with
    | here => exact .inl rfl
    | onwards later => exact .inr later
  · rintro (rfl | later)
    · exact .here
    · exact .onwards later

variable [DecidableEq Name]

theorem Sound.on (sound : Sound owner s) {name : Name} {cb : Cb} {remove : Bool}
    (ok : Orderly s (.on name cb remove)) :
    Sound (Function.update owner s.emitter.heap.length name) { s with
      emitter := s.emitter.on name cb remove
      live := Function.update s.live name (s.live name ++ [s.emitter.heap.length]) } where
  tidy := sound.tidy.on
  returns := sound.returns
  held other hd handles := by
    dsimp only
    by_cases same : other = name
    · subst same
      rw [Function.update_self]
      exact Held.on sound.tidy (sound.held other) (sound.absent other) handles
    · rw [Function.update_of_ne same]
      rw [on_handles_of_ne same] at handles
      exact Held.on_of_ne sound.tidy same handles (sound.held other hd handles)
  absent other none := by
    by_cases same : other = name
    · subst same
      rw [on_handles] at none
      cases none
    · dsimp only
      rw [Function.update_of_ne same]
      rw [on_handles_of_ne same] at none
      exact sound.absent other none
  running f hf := by
    obtain ⟨rest, fixed⟩ := sound.running f hf
    refine ⟨rest, fixed.on sound.tidy fun t last => ?_⟩
    have away := ok t last f hf
    rw [sound.ahead_node fixed, not_or] at away
    exact away
  ended := sound.ended
  known a ha := by
    rw [on_length]
    exact Nat.lt_succ_of_lt (sound.known a ha)
  once a ha isOnce := by
    have lt := sound.known a ha
    have ne := Nat.ne_of_lt lt
    rw [on_once lt] at isOnce
    obtain ⟨count, first, frames⟩ := sound.once a ha isOnce
    refine ⟨count, fun reach => ?_, fun f hf reach => ?_⟩
    · rw [Function.update_of_ne ne] at reach
      rcases sound.tidy.on_reach reach with old | new
      · by_cases same : owner a = name
        · -- The list begins as before or with the new node.
          rw [same, EventEmitter.first, on_handles] at old
          dsimp only [Option.bind_some] at old
          split at old
          · cases old with
            | here => exact ne rfl
            | onwards beyond =>
                cases link : s.emitter.next s.emitter.heap.length with
                | none =>
                    rw [link] at beyond
                    cases beyond
                | some b =>
                    have := sound.tidy.link _ b link
                    omega
          · exact first (same ▸ old)
        · rw [EventEmitter.first, on_handles_of_ne same] at old
          exact first old
      · exact ne new
    · obtain ⟨rest, fixed⟩ := sound.running f hf
      have away : (s.emitter.eventHandles name).bind Handles.e ≠ some f.node := fun last => by
        have := ok _ last f hf
        rw [sound.ahead_node fixed] at this
        exact this (.inl rfl)
      rw [on_next_of_ne fixed.node away] at reach
      exact (sound.tidy.on_reach reach).elim (frames f hf) ne

omit [DecidableEq Name] in
/-- Nothing is registered, and lists begin later than before. -/
theorem Sound.shrink (sound : Sound owner s) {E : EventEmitter Name Cb} {live : Name → List ℕ}
    (heap : E.heap = s.emitter.heap) (tidy : Tidy owner E)
    (held : ∀ name hd, E.eventHandles name = some hd → Held E.next hd (live name))
    (absent : ∀ name, E.eventHandles name = none → live name = [])
    (first : ∀ name a, Reach E.next (E.first name) a →
      Reach s.emitter.next (s.emitter.first name) a) :
    Sound owner { s with emitter := E, live := live } where
  tidy := tidy
  returns := sound.returns
  held := held
  absent := absent
  running f hf := by
    obtain ⟨rest, fixed⟩ := sound.running f hf
    exact ⟨rest, fixed.congr heap⟩
  ended := sound.ended
  known a ha := by
    rw [heap]
    exact sound.known a ha
  once a ha isOnce := by
    rw [heap] at isOnce
    obtain ⟨count, gone, frames⟩ := sound.once a ha isOnce
    have next := next_congr heap
    refine ⟨count, fun reach => gone (first (owner a) a reach), fun f hf reach => frames f hf ?_⟩
    rwa [← next]

theorem Sound.removeListener (sound : Sound owner s) (name : Name) (takes : Dat Cb → Bool) :
    ∃ r, s.emitter.walk name takes id (fun _ => ([] : List (Call Cb Unit))) = .ok r ∧
      Sound owner { s with
        emitter := r.1
        live := Function.update s.live name ((s.live name).filter fun a =>
          !(s.emitter.heap[a]?).any takes) } := by
  cases handles : s.emitter.eventHandles name with
  | none =>
      refine ⟨(s.emitter, []), by rw [walk, handles], ?_⟩
      have empty := sound.absent name handles
      have same : Function.update s.live name ((s.live name).filter fun a =>
          !(s.emitter.heap[a]?).any takes) = s.live := by
        rw [empty, List.filter_nil, ← empty, Function.update_eq_self]
      rw [same]
      exact sound
  | some hd =>
      have reach : ∀ a, hd.s = some a → Reach s.emitter.next hd.s a := fun a ha => ha ▸ .here
      obtain ⟨E, done, hd', run, left, held⟩ := Held.iterator (p := none) takes
        (fun _ => ([] : List (Call Cb Unit))) s.emitter.heap.length [] sound.tidy handles
        (sound.held name hd handles)
        (fun a ha => ⟨(sound.tidy.handle name hd handles a (.inl ha)).1,
          (sound.tidy.handle name hd handles a (.inl ha)).2, Nat.le_add_right _ _, reach a ha⟩)
        (fun q hq => by cases hq) fun b hb a ha lt => by
          have := (sound.held name hd handles).reach b hb
          rw [ha] at this
          exact absurd (this.le sound.tidy.up) (Nat.not_le.mpr lt)
      refine ⟨(E, done), by rw [walk, handles]; exact run, ?_⟩
      have next := next_congr left.heap
      refine sound.shrink left.heap left.tidy (fun m hd'' handles' => ?_) (fun m none => ?_)
        fun m a toA => ?_
      · rw [next]
        by_cases same : m = name
        · subst same
          rw [Function.update_self]
          rw [left.handles] at handles'
          obtain rfl := Option.some.inj handles'
          exact held
        · rw [Function.update_of_ne same]
          rw [left.others m same] at handles'
          exact sound.held m hd'' handles'
      · by_cases same : m = name
        · rw [same, left.handles] at none
          cases none
        · rw [Function.update_of_ne same]
          rw [left.others m same] at none
          exact sound.absent m none
      · rw [next] at toA
        by_cases same : m = name
        · subst same
          rw [EventEmitter.first, left.handles] at toA
          rw [EventEmitter.first, handles]
          exact left.first a toA
        · rw [EventEmitter.first, left.others m same] at toA
          exact toA

omit [DecidableEq Name] in
theorem Sound.removeAllListeners (sound : Sound owner s) :
    Sound owner { s with emitter := s.emitter.removeAllListeners, live := fun _ => [] } :=
  sound.shrink rfl ⟨fun name hd handles => (by cases handles), sound.tidy.link⟩
    (fun name hd handles => by cases handles) (fun _ _ => rfl) fun name a reach => by cases reach

/-- A node that is on a way has not been called for once. -/
def Fresh (s : Reentrant Name Cb) (h : Option ℕ) : Prop :=
  ∀ a, Reach s.emitter.next h a → a ∈ s.calls → (s.emitter.heap[a]?).any Dat.remove = false

omit [DecidableEq Name] in
/-- The node has been called and the emitter is `E` now. -/
theorem Sound.call (sound : Sound owner s) {f : Emission Name} {a : ℕ} {rest : List ℕ}
    (coming : Coming owner s.emitter f (some a) rest) (fresh : Fresh s (some a))
    {E : EventEmitter Name Cb} {live : Name → List ℕ} (heap : E.heap = s.emitter.heap)
    (tidy : Tidy owner E)
    (held : ∀ name hd, E.eventHandles name = some hd → Held E.next hd (live name))
    (absent : ∀ name, E.eventHandles name = none → live name = [])
    (first : ∀ name b, Reach E.next (E.first name) b →
      Reach s.emitter.next (s.emitter.first name) b)
    (gone : (s.emitter.heap[a]?).any Dat.remove = true → ¬ Reach E.next (E.first f.name) a ∧
      ∀ g ∈ s.running, ¬ Reach s.emitter.next (s.emitter.next g.node) a) :
    Sound owner { s with
      emitter := E
      live := live
      running := { f with node := a, called := f.called ++ [a] } :: s.running
      calls := s.calls ++ [a] } := by
  have next := next_congr heap
  have shrunk := sound.shrink heap tidy held absent first
  obtain ⟨lt, isOwner⟩ := coming.handle a rfl
  constructor
  · exact tidy
  · exact sound.returns
  · exact held
  · exact absent
  · intro g hg
    rcases List.mem_cons.mp hg with rfl | hg
    · obtain ⟨later, fixed⟩ := coming.fixed
      exact ⟨later, fixed.congr heap⟩
    · exact shrunk.running g hg
  · exact sound.ended
  · intro b hb
    rcases List.mem_append.mp hb with old | new
    · exact shrunk.known b old
    · rw [List.mem_singleton.mp new, heap]
      exact lt
  · intro b hb isOnce
    by_cases same : b = a
    · subst same
      rw [heap] at isOnce
      have uncalled : b ∉ s.calls := fun called => by
        have := fresh b .here called
        rw [isOnce] at this
        cases this
      obtain ⟨first, frames⟩ := gone isOnce
      refine ⟨?_, ?_, ?_⟩
      · rw [List.count_append, List.count_eq_zero_of_not_mem uncalled, List.count_singleton_self]
      · rw [isOwner]
        exact first
      · intro g hg
        rw [next]
        rcases List.mem_cons.mp hg with rfl | hg
        · intro reach
          cases link : s.emitter.next b with
          | none =>
              rw [link] at reach
              cases reach
          | some c =>
              rw [link] at reach
              have := reach.le sound.tidy.up
              have := sound.tidy.up b c link
              omega
        · exact frames g hg
    · have called : b ∈ s.calls := by simpa [same] using hb
      obtain ⟨count, away, frames⟩ := shrunk.once b called isOnce
      refine ⟨?_, away, ?_⟩
      · rw [List.count_append, count, List.count_singleton]
        simp [Ne.symm same]
      · intro g hg
        rcases List.mem_cons.mp hg with rfl | hg
        · rw [next]
          intro reach
          have := fresh b (.onwards reach) called
          rw [heap, this] at isOnce
          cases isOnce
        · exact frames g hg

omit [DecidableEq Name] in
/-- A once listener that can be taken out: the entry of its name, and the ways that do not
lead to it then. -/
theorem Sound.takenOut (sound : Sound owner s) {name : Name} {a : ℕ}
    (taken : TakenOut s.emitter name a s.running) :
    ∃ hd, s.emitter.eventHandles name = some hd ∧
      ¬ Reach s.emitter.next (if some a = hd.s then s.emitter.next a else hd.s) a ∧
      ∀ f ∈ s.running, ¬ Reach s.emitter.next (s.emitter.next f.node) a := by
  cases handles : s.emitter.eventHandles name with
  | none =>
      rw [TakenOut, handles] at taken
      cases taken
  | some hd =>
      rw [TakenOut, handles] at taken
      obtain ⟨first, frames⟩ := taken
      refine ⟨hd, rfl, ?_, fun f hf reach => ?_⟩
      · rwa [sound.tidy.mem_ahead] at first
        intro b hb
        split at hb
        · exact sound.tidy.next_lt hb
        · exact (sound.tidy.handle name hd handles b (.inl hb)).1
      · refine frames f hf ((sound.tidy.mem_ahead fun b hb => ?_).mpr reach)
        exact sound.tidy.next_lt hb

omit [DecidableEq Name] in
/-- A node that can be taken out is the first of the list, or in it no more. -/
theorem Sound.take (sound : Sound owner s) {name : Name} {hd : Handles}
    (handles : s.emitter.eventHandles name = some hd) {a : ℕ}
    (gone : ¬ Reach s.emitter.next (if some a = hd.s then s.emitter.next a else hd.s) a) :
    Held s.emitter.next
      ⟨if some a = hd.s then s.emitter.next a else hd.s, if some a = hd.e then none else hd.e⟩
      ((s.live name).filter (· != a)) := by
  have held := sound.held name hd handles
  by_cases isFirst : some a = hd.s
  · refine held.take (fun q hq => by cases hq) fun b hb lt => ?_
    have toB := held.reach b hb
    rw [← isFirst] at toB
    exact absurd (toB.le sound.tidy.up) (Nat.not_le.mpr lt)
  · rw [if_neg isFirst] at gone ⊢
    have notLast : some a ≠ hd.e := fun isLast => gone (held.last a isLast.symm).1
    rw [if_neg notLast]
    exact held.mono (List.filter_subset_self _)

theorem Sound.turn (sound : Sound owner s) {f : Emission Name} {h : Option ℕ} {rest : List ℕ}
    (coming : Coming owner s.emitter f h rest) (fresh : Fresh s h)
    (taken : ∀ a, h = some a → (s.emitter.heap[a]?).any Dat.remove = true →
      TakenOut s.emitter f.name a s.running) : Sound owner (s.turn f h) := by
  cases h with
  | none =>
      refine { sound with ended := fun g hg => ?_ }
      rcases List.mem_cons.mp hg with rfl | hg
      · exact coming.ended
      · exact sound.ended g hg
  | some a =>
      cases isOnce : (s.emitter.heap[a]?).any Dat.remove with
      | false =>
          have called := sound.call coming fresh rfl sound.tidy sound.held sound.absent
            (fun _ _ reach => reach) fun once => by
              rw [isOnce] at once
              cases once
          rw [Reentrant.turn, isOnce]
          exact called
      | true =>
          obtain ⟨hd, handles, gone, frames⟩ := sound.takenOut (taken a rfl isOnce)
          have first : s.emitter.first f.name = hd.s := by
            rw [EventEmitter.first, handles]
            rfl
          rw [Reentrant.turn, isOnce, remove_eq handles]
          refine sound.call coming fresh rfl (sound.tidy.take handles a fun q hq => by cases hq)
            (fun name hd' handles' => ?_) (fun name none => ?_) (fun name b toB => ?_)
            fun _ => ⟨?_, frames⟩
          · by_cases same : name = f.name
            · subst same
              rw [adjust_eventHandles] at handles'
              obtain rfl := Option.some.inj handles'
              rw [Function.update_self]
              exact sound.take handles gone
            · rw [adjust_eventHandles_of_ne same] at handles'
              rw [Function.update_of_ne same]
              exact sound.held name hd' handles'
          · by_cases same : name = f.name
            · rw [same, adjust_eventHandles] at none
              cases none
            · rw [adjust_eventHandles_of_ne same] at none
              rw [Function.update_of_ne same]
              exact sound.absent name none
          · by_cases same : name = f.name
            · rw [same, EventEmitter.first, adjust_eventHandles] at toB
              rw [same, first]
              exact toB.of_skip
            · rwa [EventEmitter.first, adjust_eventHandles_of_ne same] at toB
          · rw [EventEmitter.first, adjust_eventHandles]
            exact gone

omit [DecidableEq Name] in
/-- An `emit` that begins. -/
theorem Sound.begins (sound : Sound owner s) {name : Name} {hd : Handles}
    (handles : s.emitter.eventHandles name = some hd) :
    Coming owner s.emitter ⟨name, 0, s.live name, s.emitter.heap.length, []⟩ hd.s
      (ahead s.emitter hd.s) := by
  have handle : ∀ a, hd.s = some a → a < s.emitter.heap.length ∧ owner a = name :=
    fun a ha => sound.tidy.handle name hd handles a (.inl ha)
  have fits : ∀ a, hd.s = some a → a < s.emitter.heap.length := fun a ha => (handle a ha).1
  have chain := sound.tidy.ahead fits
  constructor
  · exact handle
  · exact chain
  · exact chain.sorted sound.tidy.up
  · exact fun a ha => sound.tidy.reach_lt (chain.mem_iff.mp ha) fits
  · exact Nat.le_refl _
  · exact fun a ha => chain.mem_iff.mpr ((sound.held name hd handles).reach a ha)

omit [DecidableEq Name] in
/-- The innermost walk goes on or ends. -/
theorem Sound.leave (sound : Sound owner s) {f : Emission Name} {outer : List (Emission Name)}
    (running : s.running = f :: outer) : Sound owner { s with running := outer } where
  tidy := sound.tidy
  returns := sound.returns
  held := sound.held
  absent := sound.absent
  running g hg := sound.running g (running ▸ List.mem_cons_of_mem f hg)
  ended := sound.ended
  known := sound.known
  once a ha isOnce := by
    obtain ⟨count, first, frames⟩ := sound.once a ha isOnce
    exact ⟨count, first, fun g hg => frames g (running ▸ List.mem_cons_of_mem f hg)⟩

theorem Sound.step [DecidableEq Cb] (sound : Sound owner s) {u : Use Name Cb}
    {t : Reentrant Name Cb}
    (ok : Orderly s u) (hstep : s.step u = some t) : ∃ owner', Sound owner' t := by
  have ready : ¬ s.fault = true := Bool.not_eq_true _ ▸ sound.returns
  rw [Reentrant.step.eq_def, if_neg ready] at hstep
  cases u with
  | on name cb remove =>
      obtain rfl := Option.some.inj hstep
      exact ⟨_, sound.on ok⟩
  | removeListener name cb =>
      obtain ⟨r, walk, after⟩ := sound.removeListener name (matchesListener cb)
      simp only [walk] at hstep
      obtain rfl := Option.some.inj hstep
      exact ⟨owner, after⟩
  | removeAllListeners =>
      obtain rfl := Option.some.inj hstep
      exact ⟨owner, sound.removeAllListeners⟩
  | emit name =>
      cases handles : s.emitter.eventHandles name with
      | none =>
          simp only [handles] at hstep
          obtain rfl := Option.some.inj hstep
          exact ⟨owner, sound⟩
      | some hd =>
          simp only [handles] at hstep
          obtain rfl := Option.some.inj hstep
          have first : s.emitter.first name = hd.s := by rw [EventEmitter.first, handles]; rfl
          refine ⟨owner, sound.turn (sound.begins handles) (fun a reach called => ?_)
            fun a ha isOnce => ok (name, a, s.running) ?_ isOnce⟩
          · -- A once listener that was called is in the list no more.
            rw [← first] at reach
            have isOwner := sound.tidy.owner_first reach
            rw [← Bool.not_eq_true]
            exact fun isOnce => (sound.once a called isOnce).2.1 (isOwner ▸ reach)
          · simp [coming, first, ha]
  | returns =>
      cases running : s.running with
      | nil => simp [running] at hstep
      | cons f outer =>
          simp only [running] at hstep
          obtain rfl := Option.some.inj hstep
          obtain ⟨rest, fixed⟩ := sound.running f (running ▸ List.mem_cons_self)
          have left := sound.leave running
          refine ⟨owner, left.turn (fixed.coming sound.tidy) (fun a reach called => ?_)
            fun a ha isOnce => ok (f.name, a, outer) ?_ isOnce⟩
          · rw [← Bool.not_eq_true]
            exact fun isOnce => (sound.once a called isOnce).2.2 f
              (running ▸ List.mem_cons_self) reach
          · simp [coming, running, ha]

/-- **`emit` is well defined** in every run in which callbacks use the emitter in an orderly
way, however emits are nested. -/
theorem emit_well_defined [Inhabited Name] [DecidableEq Cb] (us : List (Use Name Cb))
    (meets : Machine.Meets step Orderly new us) :
    Machine.Always step WellDefined (new : Reentrant Name Cb) us := by
  have kept := Machine.Always.of_invariant (I := fun s => ∃ owner, Sound owner s)
    (fun s u t ⟨owner, sound⟩ ok hstep => sound.step ok hstep) ⟨fun _ => default, sound_new _⟩ meets
  exact kept.imp fun s ⟨owner, sound⟩ => sound.wellDefined

/-- Two names, each emitted within the other, and a once listener that stands first. -/
theorem emit_well_defined_example : Machine.Always step WellDefined (new : Reentrant ℕ ℕ)
    [.on 0 10 true, .on 0 11 false, .on 1 12 false, .emit 0, .on 1 13 false, .emit 1, .emit 0,
      .removeListener 0 (some 11), .returns, .returns, .removeListener 1 (some 12), .emit 1,
      .returns, .removeAllListeners, .returns, .returns, .on 0 14 false, .emit 0, .returns] :=
  emit_well_defined _ (by decide)

/-- A callback that registers a listener for the name that is emitted is followed by it. -/
theorem registered_during_emit : ¬ Machine.Always step WellDefined (new : Reentrant ℕ ℕ)
    [.on 0 10 false, .emit 0, .on 0 10 false, .returns] := by
  intro always
  obtain ⟨t, hrun, f, running, late⟩ : ∃ t, Machine.run step (new : Reentrant ℕ ℕ)
      [.on 0 10 false, .emit 0, .on 0 10 false, .returns] = some t ∧
      ∃ f, t.running = [f] ∧ ∃ a ∈ f.called, ¬ a < f.size :=
    ⟨_, rfl, _, rfl, 1, List.mem_cons_of_mem _ List.mem_cons_self, Nat.lt_irrefl 1⟩
  obtain ⟨a, called, late⟩ := late
  have old := (always.last hrun).old f (List.mem_append_left _ (running ▸ List.mem_cons_self))
  exact late (old a called)

end Reentrant

end ThreadJs.Events
