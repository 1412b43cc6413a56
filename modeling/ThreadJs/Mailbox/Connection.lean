import ThreadJs.Lib.Simulation
import ThreadJs.Lib.Parties
import ThreadJs.Mailbox.Steady

/-!
Two threads and the mailboxes between them (`RecvEventData`, `recv_other_thread_event`).

A thread runs its JavaScript in turns. In a turn a timer or the code around acts, or `_recv`
handles an event; the messages that the turn sends go through `sendEvent` one by one, with its
lock and its wake-up, while the other thread is running. The next turn begins when all of them
have gone. No side is torn down here: a run goes as far as the end of the script or of the main
side (`Mailbox.Teardown`, `Script.DoScript`), where what is still queued is lost. Nor does a thread
wait in `thread.wait`, where it fetches nothing (`Wait.Barrier`).

* `refines` — over these locks, wake-ups and texts the threads are two parties with queues.
* `queue_of_atRest` — where, while neither side is torn down, neither thread can go on by itself,
  nothing is on its way.
* `ends_of_deliver` — they cannot go on for ever if the turns that they give each other end.
-/

namespace ThreadJs.Mailbox

open Machine Parties

/-- The other side. -/
def Steady.Side.peer : Side → Side
  | .main => .sub
  | .sub => .main

namespace Connection

open Steady

structure State (σ : Side → Type) (S W : Type) where
  part : ∀ side, σ side
  /-- What the turn of a side has still to send. -/
  outbox : Side → List S
  /-- Through which a side receives. -/
  box : Side → Box W

/-- What happens to a mailbox beside `lock` and `recv`. -/
inductive Mail where
  | push
  | signal
  | unlock
  | nudge
  | wake
  | next

def Mail.action {W : Type} : Mail → Steady.Action W
  | .push => .push
  | .signal => .signal
  | .unlock => .unlock
  | .nudge => .nudge
  | .wake => .wake
  | .next => .next

/-- The receiving thread does it. -/
def Mail.fetches : Mail → Bool
  | .wake | .next => true
  | _ => false

inductive Action (ι : Side → Type) where
  /-- A turn that no message has caused. -/
  | act (side : Side) (a : ι side)
  /-- `sendEvent` with the next message of the turn. -/
  | lock (side : Side)
  /-- On the mailbox of `side`. -/
  | mail (side : Side) (a : Mail)
  /-- `_recv` is called. -/
  | recv (side : Side)

variable {σ ι : Side → Type} {S W R : Type}

/-- The last turn of the side is over. -/
def State.idle (s : State σ S W) (side : Side) : Bool :=
  match s.outbox side, (s.box side.peer).sender with
  | [], .none => true
  | _, _ => false

def State.turn (s : State σ S W) (side : Side) (part : σ side) (out : List S) : State σ S W :=
  { s with
    part := Function.update s.part side part
    outbox := Function.update s.outbox side out }

/-- One of the mailboxes takes a step. -/
def State.mail (s : State σ S W) (side : Side) (a : Steady.Action W) : Option (State σ S W) :=
  ((s.box side).step a).map fun b => { s with box := Function.update s.box side b }

variable (party : ∀ side, Party (σ side) (ι side) S R) (C : Codec S W R)

def step (s : State σ S W) : Action ι → Option (State σ S W)
  | .act side a =>
      match s.idle side, (s.box side).receiver with
      | true, .loop => ((party side).act (s.part side) a).map fun r => s.turn side r.1 r.2
      | _, _ => none
  | .lock side =>
      match s.outbox side with
      | [] => none
      | m :: rest =>
          { s with outbox := Function.update s.outbox side rest }.mail side.peer
            (.lock (C.encode m))
  | .mail side a => if a.fetches && !s.idle side then none else s.mail side a.action
  | .recv side =>
      match s.idle side, (s.box side).receiver with
      | true, .holding w =>
          let r := (party side).receive (s.part side) (C.decode w)
          (s.mail side .recv).map fun t => t.turn side r.1 r.2
      | _, _ => none

/-- The sides have been bound, with the messages that were sent before. -/
def opened (part : ∀ side, σ side) (before : Side → List S) : State σ S W where
  part := part
  outbox := fun _ => []
  box := bound fun side => (before side).map C.encode

/-- The two threads as parties. -/
def network : Network Side σ ι S R := ⟨Side.peer, party, C.view⟩

/-! ### Refinement -/

/-- The text that `sendEvent` is about to push. -/
def lockedText : Sender W → List W
  | .locked w => [w]
  | _ => []

/-- What a mailbox holds, from `sendEvent` on. -/
def waiting (b : Box W) : List W := b.inHand ++ b.events ++ lockedText b.sender

/-- What has been put into a mailbox, from `sendEvent` on. -/
def given (b : Box W) : List W := b.pushed ++ lockedText b.sender

def abs (s : State σ S W) : Parties.State σ R where
  part := s.part
  queue := fun side =>
    (waiting (s.box side)).map C.decode ++ (s.outbox side.peer).map C.view
  handled := fun side => (s.box side).received.map C.decode
  sent := fun side => (given (s.box side)).map C.decode ++ (s.outbox side.peer).map C.view

/-- The turns are those of the parties; of the rest they see nothing. -/
def explain (_ : State σ S W) : Action ι → List (Parties.Action ι)
  | .act side a => [.act side a]
  | .recv side => [.deliver side]
  | .lock _ | .mail _ _ => []

variable {party : ∀ side, Party (σ side) (ι side) S R} {C : Codec S W R} {s t : State σ S W}

theorem peer_peer (side : Side) : side.peer.peer = side := by
  cases side with
  | main => rfl
  | sub => rfl

theorem peer_ne (side : Side) : side.peer ≠ side := by
  cases side with
  | main => exact Side.noConfusion
  | sub => exact Side.noConfusion

theorem eq_or_eq_peer (side other : Side) : other = side ∨ other = side.peer := by
  cases side with
  | main => cases other with
    | main => exact .inl rfl
    | sub => exact .inr rfl
  | sub => cases other with
    | main => exact .inr rfl
    | sub => exact .inl rfl

theorem idle_iff {side : Side} :
    s.idle side = true ↔ s.outbox side = [] ∧ (s.box side.peer).sender = .none := by
  unfold State.idle
  split
  · next empty none => exact ⟨fun _ => ⟨empty, none⟩, fun _ => rfl⟩
  · next busy =>
      refine ⟨fun h => absurd h Bool.false_ne_true, fun h => ?_⟩
      exact absurd h.2 (busy h.1)

theorem mail_eq_some {side : Side} {a : Steady.Action W} :
    s.mail side a = some t ↔ ∃ b, (s.box side).step a = some b ∧
      { s with box := Function.update s.box side b } = t :=
  Option.map_eq_some_iff

/-- A push moves the text on, and the wake-ups touch none. -/
theorem box_silent {b c : Box W} {a : Mail} (hs : b.step a.action = some c) :
    waiting c = waiting b ∧ given c = given b ∧ c.received = b.received := by
  cases a with
  | push =>
      simp only [Mail.action, Box.step] at hs
      split at hs
      · next m locked =>
          cases hs
          simp [waiting, given, lockedText, locked, Box.inHand]
      · cases hs
  | signal | unlock =>
      simp only [Mail.action, Box.step] at hs
      split at hs
      · next sender =>
          cases hs
          simp [waiting, given, lockedText, sender, Box.inHand]
      · cases hs
  | nudge =>
      cases hs
      exact ⟨rfl, rfl, rfl⟩
  | wake =>
      simp only [Mail.action, Box.step] at hs
      split at hs
      · next receiver _ =>
          cases hs
          simp [waiting, given, Box.inHand, receiver]
      · cases hs
  | next =>
      simp only [Mail.action, Box.step] at hs
      split at hs
      · next receiver _ events =>
          cases hs
          simp [waiting, given, Box.inHand, receiver, events]
      · next m rest receiver _ events =>
          cases hs
          simp [waiting, given, Box.inHand, receiver, events]
      · cases hs

/-- A step that a mailbox takes by itself. -/
theorem abs_silent {side : Side} {b : Box W} (silent : waiting b = waiting (s.box side) ∧
    given b = given (s.box side) ∧ b.received = (s.box side).received) :
    abs C { s with box := Function.update s.box side b } = abs C s := by
  obtain ⟨hwaiting, hgiven, hreceived⟩ := silent
  have same : ∀ other, waiting (Function.update s.box side b other) = waiting (s.box other) ∧
      given (Function.update s.box side b other) = given (s.box other) ∧
      (Function.update s.box side b other).received = (s.box other).received := by
    intro other
    by_cases here : other = side
    · subst here
      rw [Function.update_self]
      exact ⟨hwaiting, hgiven, hreceived⟩
    · rw [Function.update_of_ne here]
      exact ⟨rfl, rfl, rfl⟩
  refine Parties.State.ext rfl ?_ ?_ ?_
  · funext other
    simp only [abs, (same other).1]
  · funext other
    simp only [abs, (same other).2.2]
  · funext other
    simp only [abs, (same other).2.1]

/-- What a turn sends goes behind what is on its way. -/
theorem abs_turn {side : Side} (past : s.outbox side = []) (part : σ side) (out : List S) :
    abs C (s.turn side part out) = (abs C s).turn side side.peer part (out.map C.view) := by
  refine Parties.State.ext rfl ?_ rfl ?_
  · funext other
    rcases eq_or_eq_peer side other with rfl | rfl
    · simp [abs, State.turn, Parties.State.turn, Function.update_of_ne, peer_ne, (peer_ne _).symm]
    · simp [abs, State.turn, Parties.State.turn, peer_peer, past]
  · funext other
    rcases eq_or_eq_peer side other with rfl | rfl
    · simp [abs, State.turn, Parties.State.turn, Function.update_of_ne, peer_ne, (peer_ne _).symm]
    · simp [abs, State.turn, Parties.State.turn, peer_peer, past]

/-- The text is on its way from the moment at which the lock is taken. -/
theorem abs_lock {side : Side} {m : S} {rest : List S} (toSend : s.outbox side = m :: rest)
    {b : Box W} (hb : (s.box side.peer).step (.lock (C.encode m)) = some b) :
    abs C { s with
      outbox := Function.update s.outbox side rest
      box := Function.update s.box side.peer b } = abs C s := by
  simp only [Box.step] at hb
  split at hb
  · next sender =>
      cases hb
      refine Parties.State.ext rfl ?_ ?_ ?_
      all_goals
        funext other
        rcases eq_or_eq_peer side other with rfl | rfl
        · simp [abs, peer_ne, (peer_ne _).symm]
        · simp [abs, peer_peer, waiting, given, lockedText, Box.inHand, sender, toSend,
            C.decode_encode]
  · cases hb

/-- `_recv` is called with the first text that is on its way. -/
theorem abs_recv {side : Side} {w : W} (holding : (s.box side).receiver = .holding w) {b : Box W}
    (hb : (s.box side).step .recv = some b) : ∃ rest, (abs C s).queue side = C.decode w :: rest ∧
      abs C { s with box := Function.update s.box side b } =
        (abs C s).take side (C.decode w) rest := by
  simp only [Box.step, holding] at hb
  cases hb
  refine ⟨((s.box side).events ++ lockedText (s.box side).sender).map C.decode ++
    (s.outbox side.peer).map C.view, ?_, Parties.State.ext rfl ?_ ?_ ?_⟩
  · simp [abs, waiting, Box.inHand, holding]
  all_goals
    funext other
    by_cases here : other = side
    · subst here
      simp [abs, Parties.State.take, waiting, given, Box.inHand]
    · simp [abs, Parties.State.take, here]

/-- **Two threads with their mailboxes are two parties with queues.** -/
theorem refines (party : ∀ side, Party (σ side) (ι side) S R) (C : Codec S W R) :
    Refines (step party C) (network party C).step explain (abs C) := by
  intro s a t hs
  cases a with
  | act side a =>
      simp only [step] at hs
      split at hs
      · next idle _ =>
          obtain ⟨⟨part, out⟩, acted, rfl⟩ := Option.map_eq_some_iff.mp hs
          rw [abs_turn (idle_iff.mp idle).1]
          have turn : (network party C).step (abs C s) (.act side a) =
              some ((abs C s).turn side side.peer part (out.map C.view)) :=
            congrArg (Option.map _) acted
          exact run_cons_of_step turn []
      · cases hs
  | lock side =>
      simp only [step] at hs
      split at hs
      · cases hs
      · next m rest toSend =>
          obtain ⟨b, hb, rfl⟩ := mail_eq_some.mp hs
          exact congrArg some (abs_lock toSend hb).symm
  | mail side a =>
      simp only [step] at hs
      split at hs
      · cases hs
      · obtain ⟨b, hb, rfl⟩ := mail_eq_some.mp hs
        exact congrArg some (abs_silent (box_silent hb)).symm
  | recv side =>
      simp only [step] at hs
      split at hs
      · next w idle holding =>
          obtain ⟨u, hu, rfl⟩ := Option.map_eq_some_iff.mp hs
          obtain ⟨b, hb, rfl⟩ := mail_eq_some.mp hu
          obtain ⟨rest, queued, taken⟩ := abs_recv (C := C) holding hb
          have past : ({ s with box := Function.update s.box side b } : State σ S W).outbox side =
              [] := (idle_iff.mp idle).1
          rw [abs_turn past, taken]
          have turn : (network party C).step (abs C s) (.deliver side) =
              some (((abs C s).take side (C.decode w) rest).turn side side.peer
                ((party side).receive (s.part side) (C.decode w)).1
                (((party side).receive (s.part side) (C.decode w)).2.map C.view)) := by
            simp only [Network.step, queued]
            rfl
          exact run_cons_of_step turn []
      · cases hs

theorem abs_opened (part : ∀ side, σ side) (before : Side → List S) :
    abs C (opened C part before) = start part fun side => (before side).map C.view := by
  have view : ∀ side, ((before side).map C.encode).map C.decode = (before side).map C.view := by
    intro side
    rw [List.map_map]
    exact List.map_congr_left fun m _ => C.decode_encode m
  refine Parties.State.ext rfl ?_ rfl ?_
  all_goals
    funext side
    simp only [abs, opened, bound, waiting, given, Box.inHand, lockedText, List.map_nil,
      List.append_nil, List.nil_append]
    exact view side

/-! ### The two parties -/

/-- A turn of a party, as the other one and the queues see it. -/
theorem network_cases {t u : Parties.State σ R} {a : Parties.Action ι}
    (hs : (network party C).step t a = some u) :
    (∃ side i out, a = .act side i ∧ (party side).act (t.part side) i = some (u.part side, out) ∧
      u.part side.peer = t.part side.peer ∧ u.queue side = t.queue side ∧
      u.queue side.peer = t.queue side.peer ++ out.map C.view) ∨
    ∃ side m rest out, a = .deliver side ∧ t.queue side = m :: rest ∧
      (party side).receive (t.part side) m = (u.part side, out) ∧
      u.part side.peer = t.part side.peer ∧ u.queue side = rest ∧
      u.queue side.peer = t.queue side.peer ++ out.map C.view := by
  rcases step_cases hs with ⟨side, i, part, out, rfl, acted, rfl⟩ |
    ⟨side, m, rest, part, out, rfl, queued, received, rfl⟩
  · refine .inl ⟨side, i, out, rfl, ?_, ?_, ?_, ?_⟩
    · simp only [Parties.State.turn, Function.update_self]
      exact acted
    · exact Function.update_of_ne (peer_ne side) _ _
    · exact Function.update_of_ne (peer_ne side).symm _ _
    · exact Function.update_self ..
  · refine .inr ⟨side, m, rest, out, rfl, queued, ?_, ?_, ?_, ?_⟩
    · simp only [Parties.State.turn, Function.update_self]
      exact received
    · exact Function.update_of_ne (peer_ne side) _ _
    · exact (Function.update_of_ne (peer_ne side).symm _ _).trans (Function.update_self ..)
    · have before : (t.take side m rest).queue side.peer = t.queue side.peer :=
        Function.update_of_ne (peer_ne side) _ _
      rw [← before]
      exact Function.update_self ..

/-! ### The wake-ups -/

theorem mail_box {side : Side} {a : Steady.Action W} (hs : s.mail side a = some t) (other : Side) :
    t.box other = s.box other ∨ ∃ a, (s.box other).step a = some (t.box other) := by
  obtain ⟨b, hb, rfl⟩ := mail_eq_some.mp hs
  by_cases here : other = side
  · subst here
    exact .inr ⟨a, hb.trans (congrArg some (Function.update_self other b s.box).symm)⟩
  · exact .inl (Function.update_of_ne here b s.box)

/-- The mailboxes do what `Box.step` says. -/
theorem step_box {a : Action ι} (hs : step party C s a = some t) (other : Side) :
    t.box other = s.box other ∨ ∃ a, (s.box other).step a = some (t.box other) := by
  cases a with
  | act side a =>
      simp only [step] at hs
      split at hs
      · obtain ⟨r, -, rfl⟩ := Option.map_eq_some_iff.mp hs
        exact .inl rfl
      · cases hs
  | lock side =>
      simp only [step] at hs
      split at hs
      · cases hs
      · exact mail_box hs other
  | mail side a =>
      simp only [step] at hs
      split at hs
      · cases hs
      · exact mail_box hs other
  | recv side =>
      simp only [step] at hs
      split at hs
      · obtain ⟨u, hu, rfl⟩ := Option.map_eq_some_iff.mp hs
        exact mail_box hu other
      · cases hs

theorem flowing_step {a : Action ι} (h : ∀ side, Flowing (s.box side))
    (hs : step party C s a = some t) (side : Side) : Flowing (t.box side) := by
  rcases step_box hs side with same | ⟨a, moved⟩
  · rw [same]
    exact h side
  · exact (h side).step moved

theorem flowing_opened (part : ∀ side, σ side) (before : Side → List S) (side : Side) :
    Flowing ((opened C part before).box side) :=
  flowing_bound (fun side => (before side).map C.encode) side

/-! ### Runs -/

/-- What the parties have done when the threads have come here. -/
structure Reached (party : ∀ side, Party (σ side) (ι side) S R) (C : Codec S W R)
    (part : ∀ side, σ side) (before : Side → List S) (s : State σ S W) : Prop where
  flowing : ∀ side, Flowing (s.box side)
  abstract : ∃ bs, run (network party C).step (start part fun side => (before side).map C.view) bs =
    some (abs C s)

theorem reached (part : ∀ side, σ side) (before : Side → List S) {as : List (Action ι)}
    (hrun : run (step party C) (opened C part before) as = some s) :
    Reached party C part before s where
  flowing := by
    have keep : ∀ (s t : State σ S W) a, (∀ side, Flowing (s.box side)) →
        step party C s a = some t → ∀ side, Flowing (t.box side) :=
      fun _ _ _ h hs side => flowing_step h hs side
    exact (Always.of_inductive (fun s a t => keep s t a) (flowing_opened part before) as).last hrun
  abstract := by
    have explained := (refines party C).run hrun
    rw [abs_opened] at explained
    exact ⟨_, explained⟩

/-- An invariant of the parties holds of the threads. -/
theorem Reached.of_inductive {part : ∀ side, σ side} {before : Side → List S}
    (h : Reached party C part before s) {P : Parties.State σ R → Prop}
    (keep : ∀ t a u, P t → (network party C).step t a = some u → P u)
    (init : P (start part fun side => (before side).map C.view)) : P (abs C s) := by
  obtain ⟨bs, hbs⟩ := h.abstract
  exact (Always.of_inductive keep init bs).last hbs

/-! ### Rest -/

/-- Nobody can go on at a mailbox. -/
structure Stuck (b : Box W) : Prop where
  mail : ∀ a : Mail, a ≠ .nudge → b.step a.action = none
  recv : b.step .recv = none

/-- A `sendEvent` that has begun can go on. -/
theorem sender_of_stuck {b : Box W}
    (stuck : ∀ a : Mail, a ≠ .nudge → a.fetches = false → b.step a.action = none) :
    b.sender = .none := by
  cases sender : b.sender with
  | none => rfl
  | locked m =>
      have push := stuck .push (by simp) rfl
      simp [Mail.action, Box.step, sender] at push
  | pushed =>
      have signal := stuck .signal (by simp) rfl
      simp [Mail.action, Box.step, sender] at signal
  | signalled =>
      have unlock := stuck .unlock (by simp) rfl
      simp [Mail.action, Box.step, sender] at unlock

theorem Stuck.sender {b : Box W} (h : Stuck b) : b.sender = .none :=
  sender_of_stuck fun a notNudge _ => h.mail a notNudge

theorem Stuck.receiver {b : Box W} (h : Stuck b) : b.receiver = .loop := by
  cases receiver : b.receiver with
  | loop => rfl
  | draining =>
      have next := h.mail .next (by simp)
      cases events : b.events with
      | nil => simp [Mail.action, Box.step, receiver, h.sender, events] at next
      | cons w rest => simp [Mail.action, Box.step, receiver, h.sender, events] at next
  | holding w =>
      have recv := h.recv
      simp [Box.step, receiver] at recv

/-- A queued event has a wake-up pending, so that the receiver could go on. -/
theorem Stuck.events {b : Box W} (h : Stuck b) (flowing : Flowing b) : b.events = [] := by
  by_contra queued
  rcases flowing.awake queued with pending | receiving | sending
  · have wake := h.mail .wake (by simp)
    simp [Mail.action, Box.step, pending, h.receiver] at wake
  · exact receiving h.receiver
  · rw [h.sender] at sending
    cases sending

theorem Stuck.received {b : Box W} (h : Stuck b) (flowing : Flowing b) :
    b.received = b.pushed := by
  have inOrder := flowing.inOrder
  rw [h.events flowing, Box.inHand, h.receiver] at inOrder
  simpa using inOrder

/-- What the threads do by themselves once a turn has begun. -/
def Action.inner : Action ι → Prop
  | .act _ _ | .mail _ .nudge => False
  | .lock _ | .mail _ _ | .recv _ => True

theorem Mail.inner_of_ne {a : Mail} (notNudge : a ≠ .nudge) (side : Side) :
    (Action.mail side a : Action ι).inner := by
  cases a with
  | nudge => exact absurd rfl notNudge
  | push | signal | unlock | wake | next => trivial

section Rest

variable (rests : AtRest (step party C) Action.inner s)
include rests

theorem sender_of_atRest (side : Side) : (s.box side).sender = .none := by
  refine sender_of_stuck fun a notNudge sends => ?_
  have stuck := rests (.mail side a) (Mail.inner_of_ne notNudge side)
  simpa [step, sends, State.mail] using stuck

theorem outbox_of_atRest (side : Side) : s.outbox side = [] := by
  cases toSend : s.outbox side with
  | nil => rfl
  | cons m rest =>
      have stuck := rests (.lock side) trivial
      simp [step, toSend, State.mail, Box.step, sender_of_atRest rests] at stuck

theorem idle_of_atRest (side : Side) : s.idle side = true :=
  idle_iff.mpr ⟨outbox_of_atRest rests side, sender_of_atRest rests side.peer⟩

theorem stuck_of_atRest (side : Side) : Stuck (s.box side) where
  mail := by
    intro a notNudge
    have stuck := rests (.mail side a) (Mail.inner_of_ne notNudge side)
    simpa [step, idle_of_atRest rests, State.mail] using stuck
  recv := by
    cases holding : (s.box side).receiver with
    | loop | draining => simp only [Box.step, holding]
    | holding w =>
        have stuck := rests (.recv side) trivial
        simp [step, idle_of_atRest rests, State.mail, Box.step, holding] at stuck

/-- **At rest nothing is on its way**, while neither side is torn down. -/
theorem queue_of_atRest (flowing : ∀ side, Flowing (s.box side)) (side : Side) :
    (abs C s).queue side = [] := by
  have stuck := stuck_of_atRest rests side
  simp [abs, waiting, Box.inHand, stuck.receiver, stuck.events (flowing side), stuck.sender,
    outbox_of_atRest rests, lockedText]

end Rest

/-- How many steps a mailbox is still good for. -/
def cost (b : Box W) : ℕ :=
  (match b.sender with
    | .none => 0
    | .locked _ => 8
    | .pushed => 5
    | .signalled => 1) +
  (match b.receiver with
    | .loop => 0
    | .draining => 2
    | .holding _ => 3) +
  2 * b.events.length + if b.pending then 3 else 0

def State.cost (s : State σ S W) (side : Side) : ℕ :=
  9 * (s.outbox side).length + Connection.cost (s.box side.peer)

theorem cost_mail {b c : Box W} {a : Mail} (notNudge : a ≠ .nudge)
    (hs : b.step a.action = some c) : cost c < cost b := by
  cases a with
  | push =>
      simp only [Mail.action, Box.step] at hs
      split at hs
      · next m locked =>
          cases hs
          simp only [cost, locked, List.length_append, List.length_singleton]
          omega
      · cases hs
  | signal =>
      simp only [Mail.action, Box.step] at hs
      split at hs
      · next sender =>
          cases hs
          simp only [cost, sender, if_true]
          split <;> omega
      · cases hs
  | unlock =>
      simp only [Mail.action, Box.step] at hs
      split at hs
      · next sender =>
          cases hs
          simp only [cost, sender]
          omega
      · cases hs
  | nudge => exact absurd rfl notNudge
  | wake =>
      simp only [Mail.action, Box.step] at hs
      split at hs
      · next receiver pending =>
          cases hs
          simp only [cost, receiver, pending, if_true, Bool.false_eq_true, if_false]
          omega
      · cases hs
  | next =>
      simp only [Mail.action, Box.step] at hs
      split at hs
      · next receiver _ _ =>
          cases hs
          simp only [cost, receiver]
          omega
      · next m rest receiver _ events =>
          cases hs
          simp only [cost, receiver, events, List.length_cons]
          omega
      · cases hs

theorem cost_recv {b c : Box W} (hs : b.step .recv = some c) :
    cost c < cost b := by
  simp only [Box.step] at hs
  split at hs
  · next m receiver =>
      cases hs
      simp only [cost, receiver]
      omega
  · cases hs

theorem cost_lock {b c : Box W} {w : W} (hs : b.step (.lock w) = some c) : cost c = cost b + 8 := by
  simp only [Box.step] at hs
  split at hs
  · next sender =>
      cases hs
      simp only [cost, sender]
      omega
  · cases hs

def State.totalCost (s : State σ S W) : ℕ := s.cost .main + s.cost .sub

theorem cost_mail_lt {side : Side} {a : Mail} (notNudge : a ≠ .nudge)
    (hs : s.mail side a.action = some t) : t.totalCost < s.totalCost := by
  obtain ⟨b, hb, rfl⟩ := mail_eq_some.mp hs
  have less := cost_mail notNudge hb
  cases side with
  | main | sub =>
      simp [State.totalCost, State.cost, Side.peer]
      omega

theorem cost_lock_lt {side : Side} {m : S} {rest : List S} (toSend : s.outbox side = m :: rest)
    (hs : { s with outbox := Function.update s.outbox side rest }.mail side.peer
      (.lock (C.encode m)) = some t) : t.totalCost < s.totalCost := by
  obtain ⟨b, hb, rfl⟩ := mail_eq_some.mp hs
  have more := cost_lock hb
  cases side with
  | main | sub =>
      simp only [Side.peer] at more
      simp [State.totalCost, State.cost, Side.peer, toSend, more]
      omega

/-- **If the turns that the two threads give each other end, then so does all they do.** -/
theorem ends_of_deliver (party : ∀ side, Party (σ side) (ι side) S R) (C : Codec S W R)
    (ends : Ends (network party C).step Parties.Action.delivers (abs C s)) :
    Ends (step party C) Action.inner s := by
  refine (refines party C).ends State.totalCost ?_ ends
  intro s a t isInner hs
  cases a with
  | act side a => exact isInner.elim
  | lock side =>
      simp only [step] at hs
      split at hs
      · cases hs
      · next m rest toSend => exact .inl ⟨rfl, cost_lock_lt toSend hs⟩
  | mail side a =>
      have notNudge : a ≠ .nudge := by
        rintro rfl
        exact isInner
      simp only [step] at hs
      split at hs
      · cases hs
      · exact .inl ⟨rfl, cost_mail_lt notNudge hs⟩
  | recv side => exact .inr ⟨.deliver side, trivial, rfl⟩

end Connection

end ThreadJs.Mailbox
