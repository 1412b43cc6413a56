import ThreadJs.Lib.Machine
import Mathlib.Logic.Function.Basic

/-!
The mailboxes of a thread between binding and teardown.

There is one mailbox in each direction: a queue under a lock, and an async handle
whose wake-ups coalesce. `sendEvent` pushes and signals while it holds the lock, and
the callback of the handle drains the queue. Every event is passed to `_recv` once
and in order, and an event in the queue has a wake-up pending, or a callback at work,
or its `sendEvent` is still to signal (`steady_state`). The last case is needed:
between the push and the signal there is neither (`queued_before_signal`).
-/

namespace ThreadJs.Mailbox

open Machine

namespace Steady

/-- The holder of the queue's lock inside `sendEvent`. -/
inductive Sender (Msg : Type) where
  | none
  /-- The lock is taken. -/
  | locked (m : Msg)
  /-- The event is pushed; `uv_async_send` is still to come. -/
  | pushed
  /-- `uv_async_send` is done; the lock is still held. -/
  | signalled
  deriving DecidableEq

/-- The receiving thread. -/
inductive Receiver (Msg : Type) where
  | loop
  /-- In `recv_other_thread_event`, before `nextEvent`. -/
  | draining
  /-- `nextEvent` has returned an event; `_recv` is still to be called. -/
  | holding (m : Msg)
  deriving DecidableEq

/-- One direction: the `RecvEventData` of a side and the async handle it belongs to. -/
structure Box (Msg : Type) where
  sender : Sender Msg
  receiver : Receiver Msg
  events : List Msg
  /-- The handle has a wake-up pending. -/
  pending : Bool
  pushed : List Msg
  /-- What `_recv` was called with. -/
  received : List Msg
  deriving DecidableEq

variable {Msg : Type}

inductive Action (Msg : Type) where
  /-- `sendEvent` takes the lock. -/
  | lock (m : Msg)
  | push
  /-- `uv_async_send` of `sendEvent`. -/
  | signal
  | unlock
  /-- `uv_async_send` without an event, by `j_stop` or by the loop of `do_script`. -/
  | nudge
  /-- The loop clears the pending flag and calls `recv_other_thread_event`. -/
  | wake
  /-- `nextEvent`, which holds the lock from beginning to end. -/
  | next
  /-- `_recv` is called. -/
  | recv
  deriving DecidableEq

def Box.step (b : Box Msg) : Action Msg → Option (Box Msg)
  | .lock m =>
      match b.sender with
      | .none => some { b with sender := .locked m }
      | _ => none
  | .push =>
      match b.sender with
      | .locked m =>
          some { b with sender := .pushed, events := b.events ++ [m], pushed := b.pushed ++ [m] }
      | _ => none
  | .signal =>
      match b.sender with
      | .pushed => some { b with sender := .signalled, pending := true }
      | _ => none
  | .unlock =>
      match b.sender with
      | .signalled => some { b with sender := .none }
      | _ => none
  | .nudge => some { b with pending := true }
  | .wake =>
      match b.receiver, b.pending with
      | .loop, true => some { b with receiver := .draining, pending := false }
      | _, _ => none
  | .next =>
      match b.receiver, b.sender, b.events with
      | .draining, .none, [] => some { b with receiver := .loop }
      | .draining, .none, m :: rest => some { b with receiver := .holding m, events := rest }
      | _, _, _ => none
  | .recv =>
      match b.receiver with
      | .holding m => some { b with receiver := .draining, received := b.received ++ [m] }
      | _ => none

/-- The side that receives. -/
inductive Side where
  | main
  | sub
  deriving DecidableEq

/-- A mailbox for each side. -/
abbrev State (Msg : Type) := Side → Box Msg

/-- A step of one of the two directions. -/
def step (s : State Msg) (a : Side × Action Msg) : Option (State Msg) :=
  ((s a.1).step a.2).map (Function.update s a.1)

/-- The two sides have just been bound, with the events that were sent before.
`swap_not_send_peer` has signalled the handle of the sub side. -/
def bound (before : Side → List Msg) : State Msg := fun side =>
  { sender := .none
    receiver := .loop
    events := before side
    pending := side = .sub || !(before side).isEmpty
    pushed := before side
    received := [] }

/-- The event that is on its way from `nextEvent` to `_recv`. -/
def Box.inHand (b : Box Msg) : List Msg :=
  match b.receiver with
  | .holding m => [m]
  | _ => []

/-- What holds of a direction at every moment. -/
structure Flowing (b : Box Msg) : Prop where
  /-- Nothing is passed to `_recv` twice, left out or taken out of turn. -/
  inOrder : b.received ++ b.inHand ++ b.events = b.pushed
  /-- A queued event is going to be fetched. -/
  awake : b.events ≠ [] → b.pending = true ∨ b.receiver ≠ .loop ∨ b.sender = .pushed

/-- The same without the moment between push and signal. -/
def AlwaysAwake (b : Box Msg) : Prop := b.events ≠ [] → b.pending = true ∨ b.receiver ≠ .loop

theorem Flowing.isPrefix {b : Box Msg} (h : Flowing b) : b.received <+: b.pushed :=
  ⟨b.inHand ++ b.events, by rw [← List.append_assoc, h.inOrder]⟩

theorem flowing_bound (before : Side → List Msg) (side : Side) : Flowing (bound before side) where
  inOrder := rfl
  awake := by
    intro queued
    change before side ≠ [] at queued
    exact .inl (by simp [bound, queued])

theorem Flowing.step {b c : Box Msg} {a : Action Msg} (h : Flowing b) (hs : b.step a = some c) :
    Flowing c := by
  cases a with
  | lock m =>
      simp only [Box.step] at hs
      split at hs
      · next hsender =>
          cases hs
          exact ⟨h.inOrder, fun queued => by simpa [hsender] using h.awake queued⟩
      · cases hs
  | push =>
      simp only [Box.step] at hs
      split at hs
      · next m hsender =>
          cases hs
          refine ⟨?_, fun _ => .inr (.inr rfl)⟩
          have inOrder := h.inOrder
          simp only [Box.inHand] at inOrder ⊢
          rw [← inOrder, List.append_assoc, List.append_assoc, List.append_assoc]
      · cases hs
  | signal =>
      simp only [Box.step] at hs
      split at hs
      · cases hs
        exact ⟨h.inOrder, fun _ => .inl rfl⟩
      · cases hs
  | unlock =>
      simp only [Box.step] at hs
      split at hs
      · next hsender =>
          cases hs
          exact ⟨h.inOrder, fun queued => by simpa [hsender] using h.awake queued⟩
      · cases hs
  | nudge =>
      cases hs
      exact ⟨h.inOrder, fun _ => .inl rfl⟩
  | wake =>
      simp only [Box.step] at hs
      split at hs
      · next hreceiver _ =>
          cases hs
          refine ⟨?_, fun _ => .inr (.inl nofun)⟩
          have inOrder := h.inOrder
          simpa [Box.inHand, hreceiver] using inOrder
      · cases hs
  | next =>
      simp only [Box.step] at hs
      split at hs
      · next hreceiver _ hevents =>
          cases hs
          refine ⟨?_, fun queued => absurd hevents queued⟩
          have inOrder := h.inOrder
          simpa [Box.inHand, hreceiver] using inOrder
      · next m rest hreceiver _ hevents =>
          cases hs
          refine ⟨?_, fun _ => .inr (.inl nofun)⟩
          have inOrder := h.inOrder
          simpa [Box.inHand, hreceiver, hevents] using inOrder
      · cases hs
  | recv =>
      simp only [Box.step] at hs
      split at hs
      · next m hreceiver =>
          cases hs
          refine ⟨?_, fun _ => .inr (.inl nofun)⟩
          have inOrder := h.inOrder
          simpa [Box.inHand, hreceiver] using inOrder
      · cases hs

/-- A step of one direction leaves the other one alone. -/
theorem step_cases {s t : State Msg} {a : Side × Action Msg} (hs : step s a = some t) :
    (s a.1).step a.2 = some (t a.1) ∧ ∀ side, side ≠ a.1 → t side = s side := by
  obtain ⟨b, hb, rfl⟩ := Option.map_eq_some_iff.mp hs
  exact ⟨by rw [Function.update_self]; exact hb, fun side other => Function.update_of_ne other b s⟩

end Steady

open Steady

/-- **The mailboxes lose nothing and leave nothing behind**: in both directions and in
every reachable state what was passed to `_recv` is a prefix of what was pushed, and a
queued event has a wake-up pending, a callback at work, or a `sendEvent` that holds
the lock and is about to signal. -/
theorem steady_state {Msg : Type} (before : Side → List Msg) (as : List (Side × Action Msg)) :
    Always step (fun s => ∀ side, (s side).received <+: (s side).pushed ∧ Flowing (s side))
      (bound before) as := by
  have keep : ∀ (s : State Msg) a t, (∀ side, Flowing (s side)) → step s a = some t →
      ∀ side, Flowing (t side) := by
    intro s a t h hs side
    obtain ⟨here, there⟩ := step_cases hs
    by_cases same : side = a.1
    · rw [same]
      exact (h a.1).step here
    · rw [there side same]
      exact h side
  exact (Always.of_inductive keep (flowing_bound before) as).imp
    fun s h side => ⟨(h side).isPrefix, h side⟩

/-- The event is pushed and nobody has been woken yet. -/
theorem queued_before_signal :
    ¬ Always step (fun s => AlwaysAwake (s .main)) (bound fun _ => ([] : List Unit))
      [(.main, .lock ()), (.main, .push)] := by
  intro h
  have pushed := h.last rfl
  rcases pushed (List.cons_ne_nil _ _) with pending | receiving
  · exact absurd pending nofun
  · exact receiving rfl

end ThreadJs.Mailbox
