import ThreadJs.Lib.Machine

/-!
The hand-over from the early buffer to the direct path (`RecvEventData`).

Before the sub thread has bound its event handle, `th.send` collects messages in
`not_send`. `bind_peer_event` first publishes `peer` and then moves the buffer
into the sub thread's queue and deletes it. The sender tests `peer` and acts on
the answer with no lock in common with the hand-over, so two schedules go wrong
(`hand_over_races`): a direct push may overtake buffered messages, and a push
decided before `peer` was published may hit the deleted buffer. Every schedule
that avoids these two windows delivers in order (`hand_over_in_order`).
-/

namespace ThreadJs.Mailbox

open Machine

namespace HandOver

/-- The main thread in `pushEvent`: outside of it, or past the test of `peer`. -/
inductive MainPc (Msg : Type) where
  | idle
  | toNotSend (m : Msg)
  | toPeer (m : Msg)
  deriving DecidableEq

/-- The test of `peer` was answered with the address of the sub thread's handle. -/
def MainPc.direct {Msg : Type} : MainPc Msg → Bool
  | .toPeer _ => true
  | _ => false

/-- The test of `peer` was answered with null. -/
def MainPc.early {Msg : Type} : MainPc Msg → Bool
  | .toNotSend _ => true
  | _ => false

/-- The sub thread in `bind_peer_event`. It holds the lock of its own queue in
`moving` and `dropping`. -/
inductive SubPc where
  | unbound
  | peerSet
  | moving
  | dropping
  | bound
  deriving DecidableEq

structure State (Msg : Type) where
  main : MainPc Msg
  sub : SubPc
  /-- `mainEve->peer` is set. -/
  peer : Bool
  /-- `mainEve->not_send`; `none` once it is deleted. -/
  notSend : Option (List Msg)
  /-- `events` of the sub thread's `RecvEventData`. -/
  events : List Msg
  drained : List Msg
  sent : List Msg
  /-- A push was made on the deleted buffer. -/
  usedAfterFree : Bool
  deriving DecidableEq

variable {Msg : Type}

def init : State Msg where
  main := .idle
  sub := .unbound
  peer := false
  notSend := some []
  events := []
  drained := []
  sent := []
  usedAfterFree := false

inductive Action (Msg : Type) where
  /-- `pushEvent(m)` is entered and tests `peer`. -/
  | test (m : Msg)
  /-- The push that the test has decided on. -/
  | push
  /-- `mainEve->peer = data->sub_event`. -/
  | assignPeer
  /-- `swap_not_send_peer` is entered and takes the lock. -/
  | lock
  /-- One turn of its loop. -/
  | move
  /-- The test that ends the loop. -/
  | foundEmpty
  /-- `delete not_send`, and the lock is released. -/
  | drop
  /-- One `nextEvent` of `recv_other_thread_event` on the sub thread. -/
  | drain

def State.lockHeld (s : State Msg) : Bool :=
  s.sub = .moving || s.sub = .dropping

/-- The push of `pushEvent` after its test. Only the direct path takes the lock. -/
def push (s : State Msg) : Option (State Msg) :=
  match s.main with
  | .idle => none
  | .toPeer m =>
      if s.lockHeld then none
      else some { s with main := .idle, events := s.events ++ [m], sent := s.sent ++ [m] }
  | .toNotSend m =>
      match s.notSend with
      | some q => some { s with main := .idle, notSend := some (q ++ [m]), sent := s.sent ++ [m] }
      | none => some { s with main := .idle, usedAfterFree := true, sent := s.sent ++ [m] }

def step (s : State Msg) : Action Msg → Option (State Msg)
  | .test m =>
      match s.main with
      | .idle => some { s with main := if s.peer then .toPeer m else .toNotSend m }
      | _ => none
  | .push => push s
  | .assignPeer =>
      match s.sub with
      | .unbound => some { s with sub := .peerSet, peer := true }
      | _ => none
  | .lock =>
      match s.sub with
      | .peerSet => some { s with sub := if s.notSend.isSome && s.peer then .moving else .bound }
      | _ => none
  | .move =>
      match s.sub, s.notSend with
      | .moving, some (m :: q) => some { s with events := s.events ++ [m], notSend := some q }
      | _, _ => none
  | .foundEmpty =>
      match s.sub, s.notSend with
      | .moving, some [] => some { s with sub := .dropping }
      | _, _ => none
  | .drop =>
      match s.sub with
      | .dropping => some { s with sub := .bound, notSend := none }
      | _ => none
  | .drain =>
      match s.sub, s.events with
      | .bound, m :: q => some { s with drained := s.drained ++ [m], events := q }
      | _, _ => none

/-- The messages that wait in `not_send`. -/
def State.buffered (s : State Msg) : List Msg := s.notSend.getD []

/-- The deleted buffer was not used, and once the hand-over is complete what was
drained and what is queued is what was sent. -/
structure InOrder (s : State Msg) : Prop where
  noUseAfterFree : s.usedAfterFree = false
  fifo : s.sub = .bound → s.drained ++ s.events = s.sent

instance (s : State Msg) [DecidableEq Msg] : Decidable (InOrder s) :=
  decidable_of_iff (s.usedAfterFree = false ∧ (s.sub = .bound → s.drained ++ s.events = s.sent))
    ⟨fun h => ⟨h.1, h.2⟩, fun h => ⟨h.1, h.2⟩⟩

/-- The two windows are avoided: no direct push while messages are buffered, and
the loop of `swap_not_send_peer` does not end between a sender's test and its
push on the buffer. -/
def Avoids (s : State Msg) : Action Msg → Prop
  | .push => s.main.direct = true → s.buffered = []
  | .foundEmpty => s.main.early = false
  | _ => True

instance (s : State Msg) (a : Action Msg) : Decidable (Avoids s a) :=
  match a with
  | .push => inferInstanceAs (Decidable (s.main.direct = true → s.buffered = []))
  | .foundEmpty => inferInstanceAs (Decidable (s.main.early = false))
  | .test _ | .assignPeer | .lock | .move | .drop | .drain => isTrue trivial

/-- What the schedules that avoid the windows keep. -/
structure Inv (s : State Msg) : Prop where
  noUseAfterFree : s.usedAfterFree = false
  order : s.drained ++ s.events ++ s.buffered = s.sent
  published : s.sub ≠ .unbound → s.peer = true
  deleted : s.sub = .bound ↔ s.notSend = none
  /-- After its last test the loop has left nothing behind, and no sender is about to. -/
  emptied : s.sub = .dropping ∨ s.sub = .bound →
    s.buffered = [] ∧ s.main.early = false

theorem Inv.inOrder {s : State Msg} (h : Inv s) : InOrder s := by
  refine ⟨h.noUseAfterFree, fun bound => ?_⟩
  have order := h.order
  rw [(h.emptied (.inr bound)).1, List.append_nil] at order
  exact order

theorem inv_init : Inv (init : State Msg) where
  noUseAfterFree := rfl
  order := rfl
  published := fun h => absurd rfl h
  deleted := ⟨nofun, nofun⟩
  emptied := fun h => by rcases h with h | h <;> cases h

theorem Inv.test {s t : State Msg} {m : Msg} (h : Inv s) (hs : step s (.test m) = some t) :
    Inv t := by
  simp only [step] at hs
  split at hs
  · obtain rfl := Option.some.inj hs
    refine ⟨h.noUseAfterFree, h.order, h.published, h.deleted, fun late => ?_⟩
    refine ⟨(h.emptied late).1, ?_⟩
    -- `peer` was published long before, so the test sends the main thread the direct way.
    have bound : s.sub ≠ .unbound := fun e => by rcases late with l | l <;> cases e.symm.trans l
    simp [h.published bound, MainPc.early]
  · cases hs

theorem Inv.push {s t : State Msg} (h : Inv s) (hc : Avoids s .push)
    (hs : step s .push = some t) : Inv t := by
  simp only [step, HandOver.push] at hs
  split at hs
  · cases hs
  · next m hm =>
      split at hs
      · cases hs
      · obtain rfl := Option.some.inj hs
        have empty := hc (by rw [hm]; rfl)
        refine ⟨h.noUseAfterFree, ?_, h.published, h.deleted, fun _ => ⟨empty, rfl⟩⟩
        · have order := h.order
          rw [empty, List.append_nil] at order
          change s.drained ++ (s.events ++ [m]) ++ s.buffered = s.sent ++ [m]
          rw [empty, List.append_nil, ← order, List.append_assoc]
  · next m hm =>
      have early : ¬ (s.sub = .dropping ∨ s.sub = .bound) := fun late => by
        have quiet := (h.emptied late).2
        rw [hm] at quiet
        cases quiet
      split at hs
      · next q hq =>
          obtain rfl := Option.some.inj hs
          refine ⟨h.noUseAfterFree, ?_, h.published, ?_, fun late => absurd late early⟩
          · have order := h.order
            simp only [State.buffered, hq, Option.getD_some] at order ⊢
            rw [← order, List.append_assoc, List.append_assoc, List.append_assoc]
          · exact ⟨fun bound => absurd (.inr bound) early, nofun⟩
      · next hq => exact absurd (.inr (h.deleted.mpr hq)) early

theorem Inv.bind {s t : State Msg} (h : Inv s) :
    (step s .assignPeer = some t → Inv t) ∧ (step s .lock = some t → Inv t) := by
  constructor
  · intro hs
    simp only [step] at hs
    split at hs
    · next hsub =>
        obtain rfl := Option.some.inj hs
        have kept : s.notSend ≠ none := fun none => by
          have bound := h.deleted.mpr none
          rw [hsub] at bound
          cases bound
        exact ⟨h.noUseAfterFree, h.order, fun _ => rfl,
          ⟨nofun, fun none => absurd none kept⟩,
          fun late => by rcases late with e | e <;> cases e⟩
    · cases hs
  · intro hs
    simp only [step] at hs
    split at hs
    · next hsub =>
        obtain rfl := Option.some.inj hs
        have hpeer : s.peer = true := h.published (by simp [hsub])
        have kept : s.notSend.isSome = true := by
          rw [Option.isSome_iff_ne_none]
          intro none
          have bound := h.deleted.mpr none
          rw [hsub] at bound
          cases bound
        simp only [kept, hpeer, Bool.and_self, if_true]
        refine ⟨h.noUseAfterFree, h.order, fun _ => rfl, ⟨nofun, ?_⟩, ?_⟩
        · exact fun none => absurd none (Option.isSome_iff_ne_none.mp kept)
        · exact fun late => by rcases late with e | e <;> cases e
    · cases hs

theorem Inv.swap {s t : State Msg} (h : Inv s) :
    (step s .move = some t → Inv t) ∧
    (Avoids s .foundEmpty → step s .foundEmpty = some t → Inv t) ∧
    (step s .drop = some t → Inv t) := by
  refine ⟨fun hs => ?_, fun hc hs => ?_, fun hs => ?_⟩
  · simp only [step] at hs
    split at hs
    · next m q hsub hq =>
        obtain rfl := Option.some.inj hs
        refine ⟨h.noUseAfterFree, ?_, h.published, ?_, fun late => ?_⟩
        · have order := h.order
          simp only [State.buffered, hq, Option.getD_some] at order ⊢
          rw [← order, ← List.append_assoc, List.append_assoc _ [m] q, List.singleton_append]
        · exact ⟨fun bound => (nomatch hsub.symm.trans bound), nofun⟩
        · rw [hsub] at late
          rcases late with e | e <;> cases e
    · cases hs
  · simp only [step] at hs
    split at hs
    · next hsub hq =>
        obtain rfl := Option.some.inj hs
        have empty : s.buffered = [] := by rw [State.buffered, hq, Option.getD_some]
        refine ⟨h.noUseAfterFree, h.order, fun _ => h.published (by simp [hsub]), ?_,
          fun _ => ⟨empty, hc⟩⟩
        exact ⟨nofun, fun none => nomatch hq.symm.trans none⟩
    · cases hs
  · simp only [step] at hs
    split at hs
    · next hsub =>
        obtain rfl := Option.some.inj hs
        obtain ⟨empty, quiet⟩ := h.emptied (.inl hsub)
        refine ⟨h.noUseAfterFree, ?_, fun _ => h.published (by simp [hsub]),
          ⟨fun _ => rfl, fun _ => rfl⟩, fun _ => ⟨rfl, quiet⟩⟩
        have order := h.order
        rw [empty] at order
        exact order
    · cases hs

theorem Inv.drain {s t : State Msg} (h : Inv s) (hs : step s .drain = some t) : Inv t := by
  simp only [step] at hs
  split at hs
  · next m q hsub hevents =>
      obtain rfl := Option.some.inj hs
      refine ⟨h.noUseAfterFree, ?_, h.published, h.deleted, h.emptied⟩
      have order := h.order
      change s.drained ++ [m] ++ q ++ s.buffered = s.sent
      rw [hevents] at order
      rw [← order, List.append_assoc _ [m] q, List.singleton_append]
  · cases hs

/-- A step that avoids the two windows keeps the invariant. -/
theorem Inv.step {s t : State Msg} (a : Action Msg) (h : Inv s) (hc : Avoids s a)
    (hs : step s a = some t) : Inv t := by
  cases a with
  | test m => exact h.test hs
  | push => exact h.push hc hs
  | assignPeer => exact h.bind.1 hs
  | lock => exact h.bind.2 hs
  | move => exact h.swap.1 hs
  | foundEmpty => exact h.swap.2.1 hc hs
  | drop => exact h.swap.2.2 hs
  | drain => exact h.drain hs

end HandOver

open HandOver

/-- **In order, once, and never on the deleted buffer**, along every schedule that
avoids the two windows. -/
theorem hand_over_in_order {Msg : Type} (as : List (Action Msg))
    (avoids : Meets step Avoids init as) : Always step InOrder init as :=
  (Always.of_invariant (fun _ a _ h hc hs => h.step a hc hs) inv_init avoids).imp
    fun _ h => h.inOrder

/-- A message of each kind, sent before, during and after the hand-over. -/
theorem hand_over_in_order_example :
    Always step InOrder init [.test 1, .push, .assignPeer, .test 2, .lock, .move, .foundEmpty,
      .drop, .push, .drain, .test 3, .push, .drain] :=
  hand_over_in_order _ (by decide)

/-- Both windows are open: `2` overtakes `1`, and a push decided before `peer` was
published lands on the deleted buffer. -/
theorem hand_over_races :
    ¬ Always step InOrder init [.test 1, .push, .assignPeer, .test 2, .push, .lock, .move,
      .foundEmpty, .drop] ∧
    ¬ Always step InOrder init [.test 1, .assignPeer, .lock, .foundEmpty, .drop, .push] := by
  decide

end ThreadJs.Mailbox
