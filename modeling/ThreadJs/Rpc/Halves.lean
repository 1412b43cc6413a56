import ThreadJs.Rpc.Correlation

/-!
The two sides of a call apart (`fn-proxy.js`, `main-warp.js`).

The thread knows its emitter, its calls and what it has done itself. A state of it alone holds
all messages that it has sent in `toMain`, and no others.

* `Half.step` — what the thread does by itself it does in the state of both sides as well.
* `Half.recv`, `Half.start`, `Half.next` — so it is with messages, at either end.
* `Half.refused_iff` — the thread can do all that its code can ask for.
-/

namespace ThreadJs.Rpc

open Events

variable {User Value : Type}

/-! ### The events of the thread -/

def Event.isGiven : Event Value → Bool
  | .given .. => true
  | _ => false

/-- The history without that of the main side. -/
def threadLog (log : List (Event Value)) : List (Event Value) := log.filter fun e => !e.isGiven

theorem threadLog_append (log es : List (Event Value)) :
    threadLog (log ++ es) = threadLog log ++ threadLog es :=
  List.filter_append log es

section Log

variable (k : ℕ) (log : List (Event Value))

theorem delivered_threadLog : delivered k (threadLog log) = delivered k log := by
  rw [delivered, threadLog, List.filterMap_filter]
  refine List.filterMap_congr fun e _ => ?_
  cases e with
  | given | delivered | invoked | unbound => rfl

theorem invoked_threadLog : invoked k (threadLog log) = invoked k log := by
  rw [invoked, threadLog, List.filterMap_filter]
  refine List.filterMap_congr fun e _ => ?_
  cases e with
  | given | delivered | invoked | unbound => rfl

theorem isUnbound_threadLog : isUnbound k (threadLog log) = isUnbound k log := by
  rw [isUnbound, threadLog, List.any_filter]
  congr 1
  funext e
  cases e with
  | given | delivered | invoked | unbound => rfl

/-- Up to the moment at which a call is unbound. -/
theorem takeWhile_threadLog : (threadLog log).takeWhile (fun e => !e.unbinds k) =
    threadLog (log.takeWhile fun e => !e.unbinds k) := by
  induction log with
  | nil => rfl
  | cons e log ih =>
      cases e with
      | given => exact ih
      | delivered j r => exact congrArg (Event.delivered j r :: ·) ih
      | invoked j r => exact congrArg (Event.invoked j r :: ·) ih
      | unbound j =>
          have kept : threadLog (.unbound j :: log) = .unbound j :: threadLog log := rfl
          rw [kept, List.takeWhile_cons, List.takeWhile_cons]
          cases Event.unbinds k (.unbound j : Event Value) with
          | true => rfl
          | false => exact congrArg (Event.unbound j :: ·) ih

theorem deliveredBefore_threadLog :
    deliveredBefore k (threadLog log) = deliveredBefore k log := by
  rw [deliveredBefore, takeWhile_threadLog, delivered_threadLog, deliveredBefore]

end Log

theorem given_append_of_own {l : List (Event Value)} (own : threadLog l = l)
    (log : List (Event Value)) (k : ℕ) : given k (log ++ l) = given k log := by
  have none : given k l = [] := by
    rw [← own, given, List.filterMap_eq_nil_iff]
    intro e he
    have notGiven := (List.mem_filter.mp he).2
    cases e with
    | given => cases notGiven
    | delivered | invoked | unbound => rfl
  rw [given_append, none, List.append_nil]

/-! ### The thread in the state of both -/

/-- `p` is what the thread knows of `r`. -/
structure Half (p r : State User Value) : Prop where
  emitter : r.emitter = p.emitter
  id : r.id = p.id
  multiple : r.multiple = p.multiple
  frames : r.frames = p.frames
  others : r.others = p.others
  log : threadLog r.log = p.log

/-- The thread goes from `p` to `p'`, and both sides from `r` to `r'`. -/
structure Moves (p r p' r' : State User Value) : Prop where
  half : Half p' r'
  started : r'.started = r.started
  given : ∀ k, given k r'.log = given k r.log
  /-- What the thread has sent is on its way. -/
  toMain : ∃ sent, p'.toMain = p.toMain ++ sent ∧ r'.toMain = r.toMain ++ sent

variable {p p' r : State User Value}

theorem Half.init : Half (init : State User Value) init := ⟨rfl, rfl, rfl, rfl, rfl, rfl⟩

theorem Half.isOpen (h : Half p r) (k : ℕ) : r.isOpen k = p.isOpen k := by
  rw [State.isOpen, State.isOpen, h.multiple, ← h.log, isUnbound_threadLog, delivered_threadLog]

/-- The emitter and the stack have changed, and the history has grown. -/
theorem Half.grow (h : Half p r) (E : EventEmitter String (Listener User))
    (frames : List (Frame Value)) (others : ℤ) {l : List (Event Value)}
    (own : threadLog l = l) :
    Moves p r
      { p with emitter := E, frames := frames, others := others, log := p.log ++ l }
      { r with emitter := E, frames := frames, others := others, log := r.log ++ l } where
  half := ⟨rfl, h.id, h.multiple, rfl, rfl, by rw [threadLog_append, own, h.log]⟩
  started := rfl
  given := given_append_of_own own r.log
  toMain := ⟨[], (List.append_nil _).symm, (List.append_nil _).symm⟩

/-- The emitter has changed, and the history has grown. -/
theorem Half.record (h : Half p r) (E : EventEmitter String (Listener User))
    {l : List (Event Value)} (own : threadLog l = l) :
    Moves p r { p with emitter := E, log := p.log ++ l }
      { r with emitter := E, log := r.log ++ l } := by
  have grown := h.grow E p.frames p.others own
  have half := grown.half
  exact ⟨⟨rfl, h.id, h.multiple, h.frames, h.others, half.log⟩, rfl, grown.given, grown.toMain⟩

/-- The code of the thread has changed the emitter. -/
theorem Half.other (h : Half p r) (E : EventEmitter String (Listener User)) :
    Moves p r (p.other E) (r.other E) where
  half := ⟨rfl, h.id, h.multiple, h.frames, by simp only [State.other, h.others, h.emitter], h.log⟩
  started := rfl
  given := fun _ => rfl
  toMain := ⟨[], (List.append_nil _).symm, (List.append_nil _).symm⟩

/-- A walk of `emit` sees the emitter only. -/
theorem Half.walk (h : Half p r) (name : String) (data : Reply Value) (next : Option ℕ) :
    Moves p r (p.walk name data next) (r.walk name data next) ∧
      (r.walk name data next).toThread = r.toThread := by
  have same : Moves p r p r :=
    ⟨h, rfl, fun _ => rfl, [], (List.append_nil _).symm, (List.append_nil _).symm⟩
  cases next with
  | none => exact ⟨same, rfl⟩
  | some node =>
      simp only [State.walk, h.emitter]
      cases visitNode p.emitter name node with
      | error => exact ⟨same, rfl⟩
      | ok visited =>
          obtain ⟨E, cb⟩ := visited
          simp only [h.frames, h.others]
          cases cb with
          | reply k => exact ⟨h.grow E _ _ (l := [.invoked k data]) rfl, trivial⟩
          | user u => exact ⟨h.grow E _ _ (l := []) rfl, trivial⟩

/-- A walk makes no calls. -/
theorem walk_keeps (s : State User Value) (name : String) (data : Reply Value)
    (next : Option ℕ) : (s.walk name data next).toMain = s.toMain ∧
      (s.walk name data next).id = s.id := by
  cases next with
  | none => exact ⟨rfl, rfl⟩
  | some node =>
      simp only [State.walk]
      split
      · exact ⟨rfl, rfl⟩
      · exact ⟨rfl, rfl⟩

/-- The innermost callback is left. -/
theorem Half.pop (h : Half p r) (frames : List (Frame Value)) :
    Half { p with frames := frames } { r with frames := frames } :=
  ⟨h.emitter, h.id, h.multiple, rfl, h.others, h.log⟩

/-- The thread does it by itself. -/
def Action.isOwn : Action User Value → Bool
  | .start | .next .. | .recv => false
  | _ => true

section Steps

variable [DecidableEq User] {a : Action User Value}

/-- Only calls are counted, and only they send messages. -/
theorem step_keeps (own : a.isOwn = true) (noCall : ∀ multiple, a ≠ .call multiple)
    (hs : Rpc.step p a = some p') : p'.toMain = p.toMain ∧ p'.id = p.id := by
  cases a with
  | start | next | recv => cases own
  | call multiple => exact absurd rfl (noCall multiple)
  | unbind k =>
      simp only [Rpc.step, Option.ite_none_left_eq_some] at hs
      obtain ⟨-, hs⟩ := hs
      split at hs
      · cases hs
      · obtain rfl := Option.some.inj hs
        exact ⟨rfl, rfl⟩
  | on name u remove =>
      obtain rfl := Option.some.inj hs
      exact ⟨rfl, rfl⟩
  | off name u =>
      simp only [Rpc.step] at hs
      split at hs
      · cases hs
      · obtain rfl := Option.some.inj hs
        exact ⟨rfl, rfl⟩
  | emit name data =>
      obtain rfl := Option.some.inj hs
      exact walk_keeps ..
  | ret =>
      simp only [Rpc.step] at hs
      split at hs
      · cases hs
      · obtain rfl := Option.some.inj hs
        exact walk_keeps ..
  | throw =>
      simp only [Rpc.step] at hs
      split at hs
      · cases hs
      · obtain rfl := Option.some.inj hs
        exact ⟨rfl, rfl⟩

/-- **What the thread does by itself it does in the state of both.** -/
theorem Half.step (h : Half p r) (own : a.isOwn = true) (hs : Rpc.step p a = some p') :
    ∃ r', Rpc.step r a = some r' ∧ Moves p r p' r' ∧ r'.toThread = r.toThread := by
  cases a with
  | start | next | recv => cases own
  | call multiple =>
      obtain rfl := Option.some.inj hs
      refine ⟨_, rfl, ⟨?_, rfl, fun _ => rfl, [p.id + 1], rfl, ?_⟩, rfl⟩
      · exact ⟨by simp only [h.emitter, h.id], by simp only [h.id],
          by simp only [h.multiple, h.id], h.frames, h.others, h.log⟩
      · simp only [h.id]
  | unbind k =>
      simp only [Rpc.step] at hs ⊢
      rw [h.emitter, ← invoked_threadLog, h.log]
      split at hs
      · cases hs
      · next called =>
          rw [if_neg called]
          split at hs
          · cases hs
          · next E gone removed =>
              obtain rfl := Option.some.inj hs
              exact ⟨_, rfl, h.record E (l := [.unbound k]) rfl, rfl⟩
  | on name u remove =>
      simp only [Rpc.step] at hs ⊢
      obtain rfl := Option.some.inj hs
      rw [h.emitter]
      exact ⟨_, rfl, h.other _, rfl⟩
  | off name u =>
      simp only [Rpc.step] at hs ⊢
      rw [h.emitter]
      split at hs
      · cases hs
      · next E gone removed =>
          obtain rfl := Option.some.inj hs
          exact ⟨_, rfl, h.other E, rfl⟩
  | emit name data =>
      simp only [Rpc.step] at hs ⊢
      obtain rfl := Option.some.inj hs
      obtain ⟨moves, toThread⟩ := h.walk name data (p.emitter.first name)
      rw [h.emitter]
      exact ⟨_, rfl, moves, toThread⟩
  | ret =>
      simp only [Rpc.step] at hs ⊢
      rw [h.frames]
      split at hs
      · cases hs
      · next f rest frames =>
          obtain rfl := Option.some.inj hs
          have next : r.emitter.next f.h = p.emitter.next f.h := by rw [h.emitter]
          simp only [next]
          obtain ⟨moves, toThread⟩ := (h.pop rest).walk f.name f.data (p.emitter.next f.h)
          exact ⟨_, rfl, ⟨moves.half, moves.started, moves.given, moves.toMain⟩, toThread⟩
  | throw =>
      simp only [Rpc.step] at hs ⊢
      rw [h.frames]
      split at hs
      · cases hs
      · next f rest frames =>
          obtain rfl := Option.some.inj hs
          exact ⟨_, rfl, ⟨h.pop rest, rfl, fun _ => rfl, [], (List.append_nil _).symm,
            (List.append_nil _).symm⟩, rfl⟩

/-- The thread can do everything by itself but return from a callback that does not run and call the
`unbind` of one that was not called. -/
theorem Half.refused_iff (h : Half p r) (inv : Inv r) (own : a.isOwn = true)
    (respects : Respects a) : Rpc.step p a = none ↔
      (∃ k, a = .unbind k ∧ invoked k p.log = []) ∨ (a = .ret ∨ a = .throw) ∧ p.frames = [] := by
  cases a with
  | start | next | recv => cases own
  | call multiple => simp [Rpc.step]
  | unbind k =>
      by_cases called : invoked k p.log = []
      · simp [Rpc.step, called]
      · have known : invoked k r.log ≠ [] := by rwa [← invoked_threadLog, h.log]
        obtain ⟨one, le⟩ := made_of_invoked inv.toLogged known
        have removed := @Slot.removeListener _ _ _ _ _ _ Unit (inv.slot k one le)
        rw [h.emitter] at removed
        simp [Rpc.step, called, removed]
  | on name u remove => simp [Rpc.step]
  | off name u =>
      obtain ⟨E, done, removed, -⟩ := inv.apart.removeListener Unit respects (u.map .user)
      rw [h.emitter] at removed
      simp [Rpc.step, removed]
  | emit name data => simp [Rpc.step]
  | ret => cases frames : p.frames <;> simp [Rpc.step, frames]
  | throw => cases frames : p.frames <;> simp [Rpc.step, frames]

theorem exists_recv (idle : p.frames = []) (k : ℕ) (x : Reply Value) :
    ∃ p', Rpc.step { p with toThread := [(k, x)] } .recv = some p' ∧ p'.toMain = p.toMain ∧
      p'.id = p.id := by
  simp only [Rpc.step, idle]
  exact ⟨_, rfl, walk_keeps ..⟩

/-- The thread gets a reply, which is the only thing that it knows of the main side. -/
theorem Half.recv (h : Half p r) {k : ℕ} {x : Reply Value} {rest : List (ℕ × Reply Value)}
    (idle : p.frames = []) (arrived : r.toThread = (k, x) :: rest)
    (hs : Rpc.step { p with toThread := [(k, x)] } .recv = some p') :
    ∃ r', Rpc.step r .recv = some r' ∧ Moves p r p' r' ∧ r'.toThread = rest := by
  simp only [Rpc.step, idle] at hs
  obtain rfl := Option.some.inj hs
  have half : Half { p with frames := [], toThread := [], log := p.log ++ [.delivered k x] }
      { r with toThread := rest, log := r.log ++ [.delivered k x] } :=
    ⟨h.emitter, h.id, h.multiple, h.frames.trans idle, h.others,
      by rw [threadLog_append, h.log]; rfl⟩
  obtain ⟨moves, toThread⟩ := half.walk (key k) x (p.emitter.first (key k))
  refine ⟨_, by simp only [Rpc.step, h.frames, idle, arrived, h.emitter], ?_, toThread⟩
  exact ⟨moves.half, moves.started,
    fun j => (moves.given j).trans (given_append_of_own (l := [.delivered k x]) rfl r.log j),
    moves.toMain⟩

/-- The main side takes the first call that is on its way. -/
theorem Half.start (h : Half p r) {k : ℕ} {rest : List ℕ} (toMain : r.toMain = k :: rest) :
    ∃ r', Rpc.step r .start = some r' ∧ Half p r' ∧ r'.toMain = rest ∧
      r'.started = r.started ++ [k] ∧ r'.toThread = r.toThread ∧
      ∀ j, given j r'.log = given j r.log := by
  refine ⟨{ r with toMain := rest, started := r.started ++ [k] }, by simp only [Rpc.step, toMain],
    ?_, rfl, rfl, rfl, fun _ => rfl⟩
  exact ⟨h.emitter, h.id, h.multiple, h.frames, h.others, h.log⟩

/-- The main side answers a call. -/
theorem Half.next (h : Half p r) {k : ℕ} (started : k ∈ r.started) (x : Reply Value) :
    ∃ r', Rpc.step r (.next k x) = some r' ∧ Half p r' ∧ r'.toMain = r.toMain ∧
      r'.started = r.started ∧ r'.toThread = r.toThread ++ [(k, x)] ∧
      ∀ j, given j r'.log = given j r.log ++ if k = j then [x] else [] := by
  refine ⟨{ r with toThread := r.toThread ++ [(k, x)], log := r.log ++ [.given k x] },
    if_pos started, ?_, rfl, rfl, rfl, fun j => ?_⟩
  · refine ⟨h.emitter, h.id, h.multiple, h.frames, h.others, ?_⟩
    rw [threadLog_append, h.log]
    exact List.append_nil _
  · rw [given_append]
    congr 1
    by_cases same : k = j
    · simp [given, same]
    · simp [given, same]

end Steps

end ThreadJs.Rpc
