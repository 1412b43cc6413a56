import ThreadJs.Lib.Machine

/-!
Teardown of a thread as the main loop sees it.

The sub thread queues its last messages and 'end' on the queue of `main_event` and
then signals a second handle, `del_event`. libuv may run the callbacks of the two
handles in either order, and `recv_delete_event` frees the queue without draining
it. So the messages all arrive exactly if the delete callback finds the queue empty
(`all_delivered_iff_deleted_empty`); it does when no wake-up of `main_event` is
pending any more (`all_delivered_of_received_first`).
-/

namespace ThreadJs.Mailbox

open Machine

namespace Teardown

/-- What travels on `main_event`: messages of the script, and 'end'. -/
inductive Event (Msg : Type) where
  | message (m : Msg)
  | fin
  deriving DecidableEq

/-- The sub thread. In `signalling` it has pushed in `sendEvent` and still holds the
lock; `last` says that the event was 'end'. -/
inductive SubPc where
  | running
  | signalling (last : Bool)
  | ended
  | closed
  deriving DecidableEq

/-- The main thread: in its loop, or inside `recv_other_thread_event`. -/
inductive MainPc where
  | loop
  | receiving
  deriving DecidableEq

structure State (Msg : Type) where
  sub : SubPc
  main : MainPc
  /-- `events` of the main side's `RecvEventData`. -/
  events : List (Event Msg)
  /-- A callback of `main_event` is due. -/
  mainPending : Bool
  /-- A callback of `del_event` is due. -/
  delPending : Bool
  /-- What the main side's `_recv` was called with. -/
  delivered : List (Event Msg)
  sent : List (Event Msg)
  /-- `recv_delete_event` has run. -/
  destroyed : Bool
  deriving DecidableEq

variable {Msg : Type}

def init : State Msg where
  sub := .running
  main := .loop
  events := []
  mainPending := false
  delPending := false
  delivered := []
  sent := []
  destroyed := false

inductive Action (Msg : Type) where
  /-- `sendEvent(main_event, m)` up to its `uv_async_send`. -/
  | push (m : Msg)
  /-- The same for 'end' in `free_sub_loop`. -/
  | pushEnd
  /-- The `uv_async_send(main_event)` of `sendEvent`. -/
  | signal
  /-- `if (hasEvent(main_event)) uv_async_send(main_event)` in the event loop. -/
  | resignal
  /-- `uv_async_send(del_event)`. -/
  | signalDelete
  /-- The main loop calls `recv_other_thread_event`. -/
  | receive
  /-- One successful `nextEvent`, and `_recv`. -/
  | next
  /-- The `nextEvent` that finds the queue empty. -/
  | stop
  /-- The main loop calls `recv_delete_event`. -/
  | delete

def enqueue (s : State Msg) (e : Event Msg) (last : Bool) : State Msg :=
  { s with sub := .signalling last, events := s.events ++ [e], sent := s.sent ++ [e] }

/-- The lock of the queue; `nextEvent` waits for it. -/
def State.lockHeld (s : State Msg) : Bool :=
  s.sub = .signalling true || s.sub = .signalling false

/-- `hasEvent(main_event)`. -/
def State.hasEvent (s : State Msg) : Bool := !s.events.isEmpty

def step (s : State Msg) : Action Msg → Option (State Msg)
  | .push m => if s.sub = .running then some (enqueue s (.message m) false) else none
  | .pushEnd => if s.sub = .running then some (enqueue s .fin true) else none
  | .signal =>
      match s.sub with
      | .signalling last =>
          some { s with sub := if last then .ended else .running, mainPending := true }
      | _ => none
  | .resignal =>
      if s.sub = .running then some { s with mainPending := s.mainPending || s.hasEvent } else none
  | .signalDelete =>
      if s.sub = .ended then some { s with sub := .closed, delPending := true } else none
  | .receive =>
      if s.main = .loop ∧ s.mainPending ∧ ¬ s.destroyed then
        some { s with main := .receiving, mainPending := false }
      else none
  | .next =>
      match s.main, s.lockHeld, s.events with
      | .receiving, false, e :: q => some { s with events := q, delivered := s.delivered ++ [e] }
      | _, _, _ => none
  | .stop =>
      match s.main, s.lockHeld, s.events with
      | .receiving, false, [] => some { s with main := .loop }
      | _, _, _ => none
  | .delete =>
      if s.main = .loop ∧ s.delPending then
        some { s with delPending := false, destroyed := true, events := [] }
      else none

/-- Every event handed over once and in order, and all of them before the queue is
destroyed. -/
structure AllDelivered (s : State Msg) : Prop where
  inOrder : s.delivered <+: s.sent
  complete : s.destroyed = true → s.delivered = s.sent

instance (s : State Msg) [DecidableEq Msg] : Decidable (AllDelivered s) :=
  decidable_of_iff (s.delivered <+: s.sent ∧ (s.destroyed = true → s.delivered = s.sent))
    ⟨fun h => ⟨h.1, h.2⟩, fun h => ⟨h.1, h.2⟩⟩

/-- `recv_delete_event` runs when `hasEvent(main_event)` is false. -/
def DeletesEmpty (s : State Msg) : Action Msg → Prop
  | .delete => s.hasEvent = false
  | _ => True

/-- `recv_delete_event` runs after the wake-ups of `main_event` have been served. -/
def ReceivesFirst (s : State Msg) : Action Msg → Prop
  | .delete => s.mainPending = false
  | _ => True

structure Inv (s : State Msg) : Prop where
  fifo : s.delivered ++ s.events = s.sent
  /-- A queued event has its wake-up coming, or is about to be fetched. -/
  woken : s.events ≠ [] → s.mainPending = true ∨ s.main = .receiving ∨ s.lockHeld = true
  closed : s.delPending = true → s.sub = .closed
  destroyed : s.destroyed = true → s.sub = .closed ∧ s.events = [] ∧ s.main = .loop

theorem Inv.allDelivered {s : State Msg} (h : Inv s) : AllDelivered s := by
  refine ⟨⟨s.events, h.fifo⟩, fun destroyed => ?_⟩
  have fifo := h.fifo
  rw [(h.destroyed destroyed).2.1, List.append_nil] at fifo
  exact fifo

/-- With no wake-up pending the delete callback finds the queue empty. -/
theorem Inv.deletesEmpty {s t : State Msg} (h : Inv s) (hc : ReceivesFirst s .delete)
    (hs : step s .delete = some t) : DeletesEmpty s .delete := by
  simp only [step, Option.ite_none_right_eq_some] at hs
  obtain ⟨⟨hloop, hdel⟩, -⟩ := hs
  have unlocked : s.lockHeld = false := by simp [State.lockHeld, h.closed hdel]
  simp only [DeletesEmpty, State.hasEvent, Bool.not_eq_false', List.isEmpty_iff]
  by_contra queued
  rcases h.woken queued with pending | receiving | locked
  · exact absurd (pending.symm.trans hc) nofun
  · exact nomatch hloop.symm.trans receiving
  · exact absurd (locked.symm.trans unlocked) nofun

theorem inv_init : Inv (init : State Msg) where
  fifo := rfl
  woken := fun h => absurd rfl h
  closed := nofun
  destroyed := nofun

theorem Inv.enqueue {s : State Msg} (h : Inv s) (hsub : s.sub = .running) (e : Event Msg)
    (last : Bool) : Inv (enqueue s e last) where
  fifo := by
    change s.delivered ++ (s.events ++ [e]) = s.sent ++ [e]
    rw [← h.fifo, List.append_assoc]
  woken := fun _ => .inr (.inr (by cases last <;> rfl))
  closed := fun del => nomatch hsub.symm.trans (h.closed del)
  destroyed := fun gone => nomatch hsub.symm.trans (h.destroyed gone).1

/-- A step of the sub thread keeps the invariant. -/
theorem Inv.sub {s t : State Msg} (h : Inv s) (a : Action Msg)
    (ha : (∃ m, a = .push m) ∨ a = .pushEnd ∨ a = .signal ∨ a = .resignal ∨ a = .signalDelete)
    (hs : step s a = some t) : Inv t := by
  rcases ha with ⟨m, rfl⟩ | rfl | rfl | rfl | rfl
  · obtain ⟨hsub, rfl⟩ : s.sub = .running ∧ Teardown.enqueue s (.message m) false = t := by
      simpa [step] using hs
    exact h.enqueue hsub _ _
  · obtain ⟨hsub, rfl⟩ : s.sub = .running ∧ Teardown.enqueue s .fin true = t := by
      simpa [step] using hs
    exact h.enqueue hsub _ _
  · simp only [step] at hs
    split at hs
    · next last hsub =>
        obtain rfl := Option.some.inj hs
        exact ⟨h.fifo, fun _ => .inl rfl, fun del => (nomatch hsub.symm.trans (h.closed del)),
          fun gone => nomatch hsub.symm.trans (h.destroyed gone).1⟩
    · cases hs
  · simp only [step, Option.ite_none_right_eq_some] at hs
    obtain ⟨hsub, hs⟩ := hs
    obtain rfl := Option.some.inj hs
    refine ⟨h.fifo, fun queued => .inl ?_, h.closed, h.destroyed⟩
    simpa [State.hasEvent] using .inr queued
  · simp only [step, Option.ite_none_right_eq_some] at hs
    obtain ⟨hsub, hs⟩ := hs
    obtain rfl := Option.some.inj hs
    refine ⟨h.fifo, fun queued => ?_, fun _ => rfl, fun gone => ⟨rfl, (h.destroyed gone).2⟩⟩
    rcases h.woken queued with pending | receiving | locked
    · exact .inl pending
    · exact .inr (.inl receiving)
    · simp [State.lockHeld, hsub] at locked

/-- A callback of the main loop keeps the invariant, if `recv_delete_event` finds
the queue empty. -/
theorem Inv.main {s t : State Msg} (h : Inv s) (a : Action Msg) (hc : DeletesEmpty s a)
    (ha : a = .receive ∨ a = .next ∨ a = .stop ∨ a = .delete) (hs : step s a = some t) :
    Inv t := by
  rcases ha with rfl | rfl | rfl | rfl
  · simp only [step, Option.ite_none_right_eq_some] at hs
    obtain ⟨⟨-, -, alive⟩, hs⟩ := hs
    obtain rfl := Option.some.inj hs
    exact ⟨h.fifo, fun _ => .inr (.inl rfl), h.closed, fun gone => absurd gone alive⟩
  · simp only [step] at hs
    split at hs
    · next e q hmain hlock hevents =>
        obtain rfl := Option.some.inj hs
        refine ⟨?_, fun _ => .inr (.inl hmain), h.closed, fun gone => ?_⟩
        · have fifo := h.fifo
          rw [hevents] at fifo
          change s.delivered ++ [e] ++ q = s.sent
          rw [← fifo, List.append_assoc, List.singleton_append]
        · exact nomatch hmain.symm.trans (h.destroyed gone).2.2
    · cases hs
  · simp only [step] at hs
    split at hs
    · next hmain hlock hevents =>
        obtain rfl := Option.some.inj hs
        exact ⟨h.fifo, fun queued => absurd hevents queued, h.closed,
          fun gone => nomatch hmain.symm.trans (h.destroyed gone).2.2⟩
    · cases hs
  · simp only [step, Option.ite_none_right_eq_some] at hs
    obtain ⟨⟨hloop, hdel⟩, hs⟩ := hs
    obtain rfl := Option.some.inj hs
    have empty : s.events = [] := by simpa [DeletesEmpty, State.hasEvent] using hc
    refine ⟨?_, fun queued => absurd rfl queued, nofun, fun _ => ⟨h.closed hdel, rfl, hloop⟩⟩
    have fifo := h.fifo
    rw [empty] at fifo
    exact fifo

/-- Every step under which the delete callback finds the queue empty keeps the
invariant. -/
theorem Inv.step {s t : State Msg} (a : Action Msg) (h : Inv s) (hc : DeletesEmpty s a)
    (hs : Teardown.step s a = some t) : Inv t := by
  cases a with
  | push m => exact h.sub _ (.inl ⟨m, rfl⟩) hs
  | pushEnd => exact h.sub _ (.inr (.inl rfl)) hs
  | signal => exact h.sub _ (.inr (.inr (.inl rfl))) hs
  | resignal => exact h.sub _ (.inr (.inr (.inr (.inl rfl)))) hs
  | signalDelete => exact h.sub _ (.inr (.inr (.inr (.inr rfl)))) hs
  | receive => exact h.main _ hc (.inl rfl) hs
  | next => exact h.main _ hc (.inr (.inl rfl)) hs
  | stop => exact h.main _ hc (.inr (.inr (.inl rfl))) hs
  | delete => exact h.main _ hc (.inr (.inr (.inr rfl))) hs

/-- A delete callback that finds events destroys them. -/
theorem Inv.loses {s t : State Msg} (a : Action Msg) (h : Inv s) (hc : ¬ DeletesEmpty s a)
    (hs : Teardown.step s a = some t) : ¬ AllDelivered t := by
  cases a with
  | delete =>
      simp only [Teardown.step, Option.ite_none_right_eq_some] at hs
      obtain ⟨-, hs⟩ := hs
      obtain rfl := Option.some.inj hs
      intro all
      have complete : s.delivered = s.sent := all.complete rfl
      have empty : s.events = [] := by
        rw [← h.fifo] at complete
        exact List.self_eq_append_right.mp complete
      exact hc (by simp [DeletesEmpty, State.hasEvent, empty])
  | _ => exact absurd trivial hc

end Teardown

open Teardown

/-- **No event is lost at teardown**, in a schedule of the two threads and of the
main loop's callbacks, if and only if every delete callback of the schedule finds
the queue empty. -/
theorem all_delivered_iff_deleted_empty {Msg : Type} (as : List (Action Msg)) :
    Always step AllDelivered init as ↔ Meets step DeletesEmpty init as :=
  always_iff_meets (fun _ a _ h hc hs => h.step a hc hs) (fun _ h => h.allDelivered)
    (fun _ a _ h hc hs => h.loses a hc hs) inv_init as

/-- It is enough that the main loop serves `main_event` before `del_event`. -/
theorem all_delivered_of_received_first {Msg : Type} (as : List (Action Msg))
    (first : Meets step ReceivesFirst init as) : Always step AllDelivered init as := by
  have keep : ∀ (s : State Msg) a t, Inv s → ReceivesFirst s a → step s a = some t → Inv t := by
    intro s a t h hc hs
    refine h.step a ?_ hs
    cases a with
    | delete => exact h.deletesEmpty hc hs
    | _ => trivial
  exact (Always.of_invariant keep inv_init first).imp fun _ h => h.allDelivered

/-- Both handles are signalled and `del_event` is served first: 'end' is lost. -/
theorem end_lost :
    ¬ Always step AllDelivered (init : State Unit) [.pushEnd, .signal, .signalDelete, .delete] := by
  decide

end ThreadJs.Mailbox
