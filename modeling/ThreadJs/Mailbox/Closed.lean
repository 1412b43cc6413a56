import ThreadJs.Lib.Machine

/-!
The handle of a thread after 'end'.

`free_sub_loop` queues 'end' first and frees the thread's id afterwards, and it is the
id that `_send` and `_stop` ask for. A call that the main thread makes in between is
accepted, and what it has sent is destroyed with the queue of `sub_event`. So the
handle is closed after 'end' exactly in the runs whose later calls come after `freeid`
(`closed_after_end_iff_id_freed`).
-/

namespace ThreadJs.Mailbox

open Machine

namespace Closed

/-- The sub thread in `free_sub_loop`, by what it has done last. -/
inductive SubPc where
  | running
  /-- 'end' is queued. -/
  | ending
  /-- `pool_ref.freeid`. -/
  | freed
  /-- `free_recv_event_from(sub_event)`. -/
  | released
  /-- `uv_async_send(del_event)`. -/
  | signalled
  deriving DecidableEq

/-- The main thread: free, or in `j_send_event` after the test of the id. -/
inductive MainPc (Msg : Type) where
  | idle
  | sending (m : Msg)
  deriving DecidableEq

/-- What a call of `send` or `stop` has met. -/
inductive Reply where
  | accepted
  /-- `_throw_error("thread is closed")`. -/
  | closed
  deriving DecidableEq

structure State (Msg : Type) where
  sub : SubPc
  main : MainPc Msg
  /-- The main side has received 'end'. -/
  endReceived : Bool
  /-- The queue of `sub_event`; the flag says that the message was sent after 'end' was
  received. -/
  events : List (Msg × Bool)
  /-- What the sub side's `_recv` was called with. -/
  received : List (Msg × Bool)
  /-- Messages that were accepted and destroyed. -/
  dropped : List (Msg × Bool)
  /-- The replies to the calls of `send` and `stop` made after 'end' was received. -/
  late : List Reply
  deriving DecidableEq

variable {Msg : Type}

def init : State Msg where
  sub := .running
  main := .idle
  endReceived := false
  events := []
  received := []
  dropped := []
  late := []

inductive Action (Msg : Type) where
  /-- The sub thread's loop passes a message to `_recv`. -/
  | recv
  | queueEnd
  | freeId
  | releaseSub
  | signalDel
  /-- The main side receives 'end'. -/
  | receiveEnd
  /-- `th.send`, up to the test of the id. -/
  | send (m : Msg)
  /-- `pushEvent` of an accepted message. -/
  | push
  | stop
  | notify
  | useTime
  deriving DecidableEq

/-- The main thread is not inside a call. -/
def State.atRest (s : State Msg) : Bool :=
  match s.main with
  | .idle => true
  | .sending _ => false

/-- `id_pool.notfree(thread_id)`. -/
def State.idLive (s : State Msg) : Bool := s.sub = .running || s.sub = .ending

/-- `object_container` still has the `RecvEventData` of `sub_event`. -/
def State.hasQueue (s : State Msg) : Bool := s.idLive || s.sub = .freed

/-- The reply of a call that asks for the id, and its entry in the record. -/
def State.reply (s : State Msg) : Reply := if s.idLive then .accepted else .closed

def State.answer (s : State Msg) : State Msg :=
  { s with late := if s.endReceived then s.late ++ [s.reply] else s.late }

def step (s : State Msg) : Action Msg → Option (State Msg)
  | .recv =>
      match s.sub, s.events with
      | .running, e :: rest => some { s with events := rest, received := s.received ++ [e] }
      | _, _ => none
  | .queueEnd => if s.sub = .running then some { s with sub := .ending } else none
  | .freeId => if s.sub = .ending then some { s with sub := .freed } else none
  | .releaseSub =>
      if s.sub = .freed then
        some { s with sub := .released, events := [], dropped := s.dropped ++ s.events }
      else none
  | .signalDel => if s.sub = .released then some { s with sub := .signalled } else none
  | .receiveEnd =>
      if s.atRest ∧ s.sub ≠ .running ∧ s.endReceived = false then
        some { s with endReceived := true }
      else none
  | .send m =>
      if s.atRest then
        some { s.answer with main := if s.idLive then .sending m else .idle }
      else none
  | .push =>
      match s.main with
      | .sending m =>
          -- Without the queue `sendEvent` returns without a word.
          if s.hasQueue then
            some { s with main := .idle, events := s.events ++ [(m, s.endReceived)] }
          else some { s with main := .idle, dropped := s.dropped ++ [(m, s.endReceived)] }
      | .idle => none
  | .stop => if s.atRest then some s.answer else none
  -- Neither has anything to say to a thread that has ended.
  | .notify | .useTime => if s.atRest then some s else none

/-- After 'end' every call is told that the thread is closed, and no message is taken
and then dropped. -/
structure ClosedAfterEnd (s : State Msg) : Prop where
  reported : ∀ r ∈ s.late, r = .closed
  nothingDropped : ∀ e ∈ s.dropped, e.2 = false

instance (s : State Msg) : Decidable (ClosedAfterEnd s) :=
  decidable_of_iff ((∀ r ∈ s.late, r = .closed) ∧ ∀ e ∈ s.dropped, e.2 = false)
    ⟨fun h => ⟨h.1, h.2⟩, fun h => ⟨h.1, h.2⟩⟩

/-- A call of `send` or `stop` after 'end' finds the id freed. -/
def IdFreed (s : State Msg) : Action Msg → Prop
  | .send _ | .stop => s.endReceived = true → s.idLive = false
  | _ => True

/-- No message that was sent after 'end' is accepted. -/
structure Inv (s : State Msg) : Prop where
  reported : ∀ r ∈ s.late, r = .closed
  dropped : ∀ e ∈ s.dropped, e.2 = false
  queued : ∀ e ∈ s.events, e.2 = false
  sending : ∀ m, s.main = .sending m → s.endReceived = false

theorem inv_init : Inv (init : State Msg) :=
  ⟨nofun, nofun, nofun, nofun⟩

theorem Inv.closedAfterEnd {s : State Msg} (h : Inv s) : ClosedAfterEnd s :=
  ⟨h.reported, h.dropped⟩

/-- The record of the late calls, after a call that finds the id freed. -/
theorem Inv.answer {s : State Msg} (h : Inv s) (hc : s.endReceived = true → s.idLive = false) :
    ∀ r ∈ s.answer.late, r = .closed := by
  intro r hr
  cases received : s.endReceived
  · simp only [State.answer, received] at hr
    exact h.reported r hr
  · simp only [State.answer, received, if_true, List.mem_append, List.mem_singleton] at hr
    rcases hr with hr | rfl
    · exact h.reported r hr
    · simp [State.reply, hc received]

theorem Inv.step {s t : State Msg} {a : Action Msg} (h : Inv s) (hc : IdFreed s a)
    (hs : Closed.step s a = some t) : Inv t := by
  cases a with
  | recv =>
      simp only [Closed.step] at hs
      split at hs
      · next e rest _ hevents =>
          cases hs
          exact ⟨h.reported, h.dropped,
            fun e' he => h.queued e' (hevents ▸ List.mem_cons_of_mem e he), h.sending⟩
      · cases hs
  | queueEnd | freeId | signalDel =>
      simp only [Closed.step, Option.ite_none_right_eq_some] at hs
      obtain ⟨-, hs⟩ := hs
      cases hs
      exact ⟨h.reported, h.dropped, h.queued, h.sending⟩
  | releaseSub =>
      simp only [Closed.step, Option.ite_none_right_eq_some] at hs
      obtain ⟨-, hs⟩ := hs
      cases hs
      refine ⟨h.reported, fun e he => ?_, nofun, h.sending⟩
      rcases List.mem_append.mp he with he | he
      · exact h.dropped e he
      · exact h.queued e he
  | receiveEnd =>
      simp only [Closed.step, Option.ite_none_right_eq_some] at hs
      obtain ⟨⟨rest, -, -⟩, hs⟩ := hs
      cases hs
      refine ⟨h.reported, h.dropped, h.queued, fun m sending => ?_⟩
      simp only at sending
      simp [State.atRest, sending] at rest
  | send m =>
      simp only [Closed.step, Option.ite_none_right_eq_some] at hs
      obtain ⟨-, hs⟩ := hs
      cases hs
      refine ⟨h.answer hc, h.dropped, h.queued, fun m' sending => ?_⟩
      change s.endReceived = false
      by_contra received
      simp [hc (Bool.not_eq_false _ ▸ received)] at sending
  | push =>
      simp only [Closed.step] at hs
      split at hs
      · next m hmain =>
          have early := h.sending m hmain
          split at hs <;> cases hs
          · refine ⟨h.reported, h.dropped, fun e he => ?_, nofun⟩
            rcases List.mem_append.mp he with he | he
            · exact h.queued e he
            · rw [List.mem_singleton.mp he]
              exact early
          · refine ⟨h.reported, fun e he => ?_, h.queued, nofun⟩
            rcases List.mem_append.mp he with he | he
            · exact h.dropped e he
            · rw [List.mem_singleton.mp he]
              exact early
      · cases hs
  | stop =>
      simp only [Closed.step, Option.ite_none_right_eq_some] at hs
      obtain ⟨-, hs⟩ := hs
      cases hs
      exact ⟨h.answer hc, h.dropped, h.queued, h.sending⟩
  | notify | useTime =>
      simp only [Closed.step, Option.ite_none_right_eq_some] at hs
      obtain ⟨-, hs⟩ := hs
      cases hs
      exact h

/-- A call that finds the id alive after 'end' is accepted. -/
theorem accepted_after_end {s t : State Msg} {a : Action Msg} (hc : ¬ IdFreed s a)
    (hs : step s a = some t) : ¬ ClosedAfterEnd t := by
  have accepted : ∀ late, s.endReceived = true → s.idLive = true → late = s.answer.late →
      ¬ ∀ r ∈ late, r = .closed := by
    rintro _ received live rfl all
    exact nomatch all .accepted (by simp [State.answer, State.reply, received, live])
  cases a with
  | send m | stop =>
      obtain ⟨received, live⟩ : s.endReceived = true ∧ s.idLive = true := by
        simpa [IdFreed] using hc
      simp only [step, Option.ite_none_right_eq_some] at hs
      obtain ⟨-, hs⟩ := hs
      cases hs
      exact fun closed => accepted _ received live rfl closed.reported
  | _ => exact absurd trivial hc

end Closed

open Closed

/-- **After 'end' the handle is closed**, along a run, if and only if every `send` and
`stop` that the main thread makes after it has received 'end' comes after the sub
thread's `freeid`. -/
theorem closed_after_end_iff_id_freed {Msg : Type} (as : List (Action Msg)) :
    Always step ClosedAfterEnd init as ↔ Meets step IdFreed init as :=
  always_iff_meets (fun _ _ _ h hc hs => h.step hc hs) (fun _ h => h.closedAfterEnd)
    (fun _ _ _ _ hc hs => accepted_after_end hc hs) inv_init as

/-- 'end' is received before the id is freed; the message is taken and destroyed. -/
theorem send_accepted_after_end :
    ¬ Always step ClosedAfterEnd (init : State Unit)
      [.queueEnd, .receiveEnd, .send (), .push, .freeId, .releaseSub] := by
  decide

end ThreadJs.Mailbox
