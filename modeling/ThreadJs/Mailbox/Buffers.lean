import ThreadJs.Lib.Heap
import ThreadJs.Lib.Simulation
import ThreadJs.Mailbox.Connection

/-!
The buffers of the messages (`EventData`).

`sendEvent` copies the text of a message into a buffer of its own and puts a pointer to it into
the queue. `nextEvent` takes the pointer out, `_recv` is called with what the buffer holds, and
then `recv_other_thread_event` frees it. What is sent before the sides are bound waits in
`not_send`, and the pointers are moved from there.

* `buffers_carry_messages` — every buffer in use is on its way to one side, is read before it is
  freed, and freed once; and with the buffers read the mailboxes are those of `Mailbox.Steady`.
* `buffers_returned` — where both sides have come to rest no buffer is in use, but for those that
  were queued when a side was deleted.
-/

namespace ThreadJs.Mailbox.Buffers

open Machine Steady Heap

/-- The receiving thread, with `event` of `recv_other_thread_event`. -/
inductive Receiver (Addr : Type) where
  | loop
  | draining
  | holding (event : Addr)
  /-- `_recv` has returned. -/
  | returned (event : Addr)

/-- A `RecvEventData` and the async handle it belongs to. -/
structure Box (Addr W : Type) where
  sender : Sender W
  receiver : Receiver Addr
  /-- The pointers in `events`; when the object is deleted, those that were in it. -/
  events : List Addr
  pending : Bool
  deleted : Bool
  pushed : List W
  received : List W

inductive Action (Addr W : Type) where
  /-- `sendEvent` finds the object and takes its lock. -/
  | lock (w : W)
  /-- `events.push(EventData(data))`, with a new buffer. -/
  | push (buffer : Addr)
  | signal
  | unlock
  | nudge
  | wake
  | next
  /-- `getData`, and `_recv` is called. -/
  | recv
  /-- `event.free()` -/
  | free
  /-- `free_recv_event_from` and `DEL_UV_ASYNC`, while nobody is inside `sendEvent`. -/
  | delete

variable {Addr W : Type}

/-- A mailbox with all buffers, and whether a buffer was used that is not there. -/
structure View (Addr W : Type) where
  heap : Addr → Option W
  fault : Bool
  box : Box Addr W

section Step

variable [DecidableEq Addr]

def View.step (v : View Addr W) : Action Addr W → Option (View Addr W)
  | .lock w =>
      match v.box.sender, v.box.deleted with
      | .none, false => some { v with box := { v.box with sender := .locked w } }
      | _, _ => none
  | .push buffer =>
      match v.box.sender, v.heap buffer with
      | .locked w, none =>
          some { v with
            heap := Function.update v.heap buffer (some w)
            box := { v.box with
              sender := .pushed
              events := v.box.events ++ [buffer]
              pushed := v.box.pushed ++ [w] } }
      | _, _ => none
  | .signal =>
      match v.box.sender with
      | .pushed => some { v with box := { v.box with sender := .signalled, pending := true } }
      | _ => none
  | .unlock =>
      match v.box.sender with
      | .signalled => some { v with box := { v.box with sender := .none } }
      | _ => none
  | .nudge => some { v with box := { v.box with pending := true } }
  | .wake =>
      match v.box.receiver, v.box.pending, v.box.deleted with
      | .loop, true, false =>
          some { v with box := { v.box with receiver := .draining, pending := false } }
      | _, _, _ => none
  | .next =>
      match v.box.receiver, v.box.sender, v.box.events with
      | .draining, .none, [] => some { v with box := { v.box with receiver := .loop } }
      | .draining, .none, event :: rest =>
          some { v with box := { v.box with receiver := .holding event, events := rest } }
      | _, _, _ => none
  | .recv =>
      match v.box.receiver with
      | .holding event =>
          match v.heap event with
          | some w =>
              some { v with box := { v.box with
                receiver := .returned event
                received := v.box.received ++ [w] } }
          | none => some { v with fault := true }
      | _ => none
  | .free =>
      match v.box.receiver with
      | .returned event =>
          match v.heap event with
          | some _ =>
              some { v with
                heap := Function.update v.heap event none
                box := { v.box with receiver := .draining } }
          | none => some { v with fault := true }
      | _ => none
  | .delete =>
      match v.box.receiver, v.box.sender with
      | .loop, .none => some { v with box := { v.box with deleted := true } }
      | _, _ => none

end Step

/-! ### The two sides -/

structure State (Addr W : Type) where
  heap : Addr → Option W
  fault : Bool
  /-- The pointers in `not_send` of the main side, until the sides are bound. -/
  notSend : Option (List Addr)
  /-- The texts sent before. -/
  early : List W
  box : Side → Box Addr W

inductive Step (Addr W : Type) where
  /-- `pushEvent` of the main side without a peer. -/
  | early (w : W) (buffer : Addr)
  /-- `bind_peer_event`, while the main side is not inside `pushEvent`. -/
  | bind
  | box (side : Side) (a : Action Addr W)

def State.view (s : State Addr W) (side : Side) : View Addr W := ⟨s.heap, s.fault, s.box side⟩

/-- The mailbox of a side has taken a step. -/
def State.put (s : State Addr W) (side : Side) (v : View Addr W) : State Addr W :=
  { s with heap := v.heap, fault := v.fault, box := Function.update s.box side v.box }

/-- `swap_not_send_peer` -/
def State.bind (s : State Addr W) (q : List Addr) : State Addr W :=
  let b := s.box .sub
  { s with
    notSend := none
    box := Function.update s.box .sub { b with
      events := b.events ++ q
      pushed := b.pushed ++ s.early
      pending := true } }

section Step

variable [DecidableEq Addr]

def step (s : State Addr W) : Step Addr W → Option (State Addr W)
  | .early w buffer =>
      match s.notSend, s.heap buffer with
      | some q, none =>
          some { s with
            heap := Function.update s.heap buffer (some w)
            notSend := some (q ++ [buffer])
            early := s.early ++ [w] }
      | _, _ => none
  | .bind => s.notSend.map s.bind
  | .box side a =>
      match s.notSend with
      | some _ => none
      | none => ((s.view side).step a).map (s.put side)

end Step

/-- A new `RecvEventData`. -/
def Box.new : Box Addr W where
  sender := .none
  receiver := .loop
  events := []
  pending := false
  deleted := false
  pushed := []
  received := []

def init : State Addr W where
  heap := fun _ => none
  fault := false
  notSend := some []
  early := []
  box := fun _ => .new

/-! ### What the buffers hold -/

def Receiver.hand : Receiver Addr → List Addr
  | .loop | .draining => []
  | .holding event | .returned event => [event]

/-- The buffers that are on their way through a mailbox. -/
def Box.blocks (b : Box Addr W) : List Addr := b.receiver.hand ++ b.events

/-- The owners are `not_send` and the two mailboxes. -/
def State.holds (s : State Addr W) : Option Side → List Addr
  | none => s.notSend.getD []
  | some side => (s.box side).blocks

/-- With the buffer read. -/
def Receiver.read (heap : Addr → Option W) : Receiver Addr → Steady.Receiver W
  | .loop => .loop
  | .draining | .returned _ => .draining
  | .holding event =>
      match heap event with
      | some w => .holding w
      | none => .draining

/-- The mailbox with all buffers read. -/
def View.read (v : View Addr W) : Steady.Box W where
  sender := v.box.sender
  receiver := v.box.receiver.read v.heap
  events := v.box.events.filterMap v.heap
  pending := v.box.pending
  pushed := v.box.pushed
  received := v.box.received

def State.read (s : State Addr W) : Steady.State W := fun side => (s.view side).read

/-- The texts that are there when the sides are bound. -/
def State.before (s : State Addr W) : Side → List W
  | .sub => s.early
  | .main => []

/-- What the mailbox does when its buffers are read. -/
def explain : Action Addr W → List (Steady.Action W)
  | .lock w => [.lock w]
  | .push _ => [.push]
  | .signal => [.signal]
  | .unlock => [.unlock]
  | .nudge => [.nudge]
  | .wake => [.wake]
  | .next => [.next]
  | .recv => [.recv]
  | .free | .delete => []

/-! ### One mailbox -/

section Box

variable {v v' : View Addr W} {a : Action Addr W}

/-- Other buffers do not matter. -/
theorem read_congr {heap : Addr → Option W} (same : ∀ c ∈ v.box.blocks, heap c = v.heap c)
    (fault : Bool) : View.read ⟨heap, fault, v.box⟩ = v.read := by
  have events : v.box.events.filterMap heap = v.box.events.filterMap v.heap :=
    List.filterMap_congr fun c hc => same c (List.mem_append_right _ hc)
  have receiver : v.box.receiver.read heap = v.box.receiver.read v.heap := by
    cases hand : v.box.receiver with
    | loop | draining | returned => rfl
    | holding event =>
        have here : event ∈ v.box.blocks := by simp [Box.blocks, hand, Receiver.hand]
        simp only [Receiver.read, same event here]
  simp only [View.read, events, receiver]

/-- What a step does to the buffers. -/
inductive Effect [DecidableEq Addr] (v v' : View Addr W) : Prop where
  | keep (heap : v'.heap = v.heap) (blocks : v'.box.blocks = v.box.blocks)
  | alloc (c : Addr) (w : W) (unused : v.heap c = none)
      (heap : v'.heap = Function.update v.heap c (some w))
      (blocks : v'.box.blocks = v.box.blocks ++ [c])
  | free (c : Addr) (heap : v'.heap = Function.update v.heap c none)
      (blocks : v.box.blocks = c :: v'.box.blocks)

variable [DecidableEq Addr]

/-- As long as the buffers of a mailbox are there, each once, a step uses them rightly, and with
the buffers read it is one of `Mailbox.Steady`. -/
theorem step_spec (there : ∀ c ∈ v.box.blocks, ∃ w, v.heap c = some w)
    (once : v.box.blocks.Nodup) (hs : v.step a = some v') :
    Effect v v' ∧ v'.fault = v.fault ∧ run Steady.Box.step v.read (explain a) = some v'.read := by
  cases a with
  | lock w =>
      simp only [View.step] at hs
      split at hs
      · next sender _ =>
          cases hs
          exact ⟨.keep rfl rfl, rfl, by simp [run, explain, Steady.Box.step, View.read, sender]⟩
      · cases hs
  | push buffer =>
      simp only [View.step] at hs
      split at hs
      · next w sender unused =>
          cases hs
          have new : ∀ c ∈ v.box.blocks, Function.update v.heap buffer (some w) c = v.heap c := by
            intro c hc
            refine Function.update_of_ne ?_ _ _
            rintro rfl
            obtain ⟨w, hw⟩ := there c hc
            exact absurd (unused.symm.trans hw) (by simp)
          have same := read_congr new v.fault
          refine ⟨.alloc buffer w unused rfl (List.append_assoc _ _ _).symm, rfl, ?_⟩
          simp only [View.read, Steady.Box.mk.injEq, true_and, and_true] at same
          simp [run, explain, Steady.Box.step, View.read, sender, same]
      · cases hs
  | signal | unlock =>
      simp only [View.step] at hs
      split at hs
      · next sender =>
          cases hs
          exact ⟨.keep rfl rfl, rfl, by simp [run, explain, Steady.Box.step, View.read, sender]⟩
      · cases hs
  | nudge =>
      cases hs
      exact ⟨.keep rfl rfl, rfl, rfl⟩
  | wake =>
      simp only [View.step] at hs
      split at hs
      · next receiver pending _ =>
          cases hs
          refine ⟨.keep rfl (by simp [Box.blocks, receiver, Receiver.hand]), rfl, ?_⟩
          simp [run, explain, Steady.Box.step, View.read, receiver, pending, Receiver.read]
      · cases hs
  | next =>
      simp only [View.step] at hs
      split at hs
      · next receiver sender events =>
          cases hs
          refine ⟨.keep rfl (by simp [Box.blocks, receiver, Receiver.hand]), rfl, ?_⟩
          simp [run, explain, Steady.Box.step, View.read, receiver, sender, events, Receiver.read]
      · next event rest receiver sender events =>
          cases hs
          obtain ⟨w, hw⟩ := there event (by simp [Box.blocks, receiver, events])
          refine ⟨.keep rfl (by simp [Box.blocks, receiver, events, Receiver.hand]), rfl, ?_⟩
          simp [run, explain, Steady.Box.step, View.read, receiver, sender, events, Receiver.read,
            hw]
      · cases hs
  | recv =>
      simp only [View.step] at hs
      split at hs
      · next event receiver =>
          obtain ⟨w, hw⟩ := there event (by simp [Box.blocks, receiver, Receiver.hand])
          simp only [hw] at hs
          cases hs
          refine ⟨.keep rfl (by simp [Box.blocks, receiver, Receiver.hand]), rfl, ?_⟩
          simp [run, explain, Steady.Box.step, View.read, receiver, Receiver.read, hw]
      · cases hs
  | free =>
      simp only [View.step] at hs
      split at hs
      · next event receiver =>
          have blocks : v.box.blocks = event :: v.box.events := by
            simp [Box.blocks, receiver, Receiver.hand]
          obtain ⟨w, hw⟩ := there event (by simp [blocks])
          simp only [hw] at hs
          cases hs
          rw [blocks, List.nodup_cons] at once
          have events : v.box.events.filterMap (Function.update v.heap event none) =
              v.box.events.filterMap v.heap := by
            refine List.filterMap_congr fun c hc => Function.update_of_ne ?_ _ _
            rintro rfl
            exact once.1 hc
          refine ⟨.free event rfl (by simpa [Box.blocks, Receiver.hand] using blocks), rfl, ?_⟩
          simp [run, explain, View.read, receiver, Receiver.read, events]
      · cases hs
  | delete =>
      simp only [View.step] at hs
      split at hs
      · cases hs
        exact ⟨.keep rfl rfl, rfl, rfl⟩
      · cases hs

end Box

/-! ### Both mailboxes -/

variable {s t : State Addr W}

/-- What is true of the buffers at every moment. -/
structure Safe (s : State Addr W) : Prop where
  /-- A buffer in use is on its way to one side, once. -/
  owned : Owned s.heap s.holds
  /-- No buffer has been read or freed that was not in use. -/
  faultless : s.fault = false
  /-- What was sent before is in the buffers of `not_send`. -/
  early : ∀ q, s.notSend = some q → q.filterMap s.heap = s.early ∧ ∀ side, s.box side = .new
  /-- From then on the mailboxes carry the texts as in `Mailbox.Steady`. -/
  mailboxes : s.notSend = none → Leads Steady.step (bound s.before) fun t => t = s.read

theorem safe_init : Safe (init : State Addr W) where
  owned := owned_empty.perm fun i => by cases i <;> exact .refl _
  faultless := rfl
  early := by
    rintro q ⟨⟩
    exact ⟨rfl, fun _ => rfl⟩
  mailboxes := fun bound => absurd bound (Option.some_ne_none _)

theorem Safe.there (h : Safe s) {side : Side} {c : Addr} (hc : c ∈ (s.box side).blocks) :
    ∃ w, s.heap c = some w := h.owned.exists_block (i := some side) hc

theorem Safe.sendEarly [DecidableEq Addr] (h : Safe s) {w : W} {buffer : Addr} {q : List Addr}
    (waits : s.notSend = some q) (unused : s.heap buffer = none) :
    Safe { s with
      heap := Function.update s.heap buffer (some w)
      notSend := some (q ++ [buffer])
      early := s.early ++ [w] } where
  owned := by
    refine h.owned.alloc_one unused w (i := none) ?_ fun i other => ?_
    · simp [State.holds, waits]
    · cases i with
      | none => exact absurd rfl other
      | some side => rfl
  faultless := h.faultless
  early := by
    rintro _ ⟨⟩
    obtain ⟨texts, new⟩ := h.early q waits
    have same : q.filterMap (Function.update s.heap buffer (some w)) = q.filterMap s.heap := by
      refine List.filterMap_congr fun c hc => Function.update_of_ne ?_ _ _
      rintro rfl
      exact h.owned.notMem unused none (by simpa [State.holds, waits] using hc)
    exact ⟨by simp [same, texts], new⟩
  mailboxes := fun bound => absurd bound (Option.some_ne_none _)

theorem Safe.bind (h : Safe s) {q : List Addr} (waits : s.notSend = some q) :
    Safe (s.bind q) where
  owned := by
    obtain ⟨-, new⟩ := h.early q waits
    refine h.owned.move (i := none) (j := some .sub) (by simp) ?_ rfl ?_
    · simp [State.holds, State.bind, waits, Box.blocks, new, Box.new]
    · intro i notNone notSub
      cases i with
      | none => exact absurd rfl notNone
      | some side =>
          cases side with
          | main => simp [State.holds, State.bind]
          | sub => exact absurd rfl notSub
  faultless := h.faultless
  early := fun q waits => absurd waits.symm (Option.some_ne_none q)
  mailboxes := by
    intro _
    obtain ⟨texts, new⟩ := h.early q waits
    refine .refl (funext fun side => ?_)
    cases side with
    | main =>
        simp [bound, State.read, State.view, State.bind, View.read, new, Box.new, State.before,
          Receiver.read]
    | sub =>
        simp [bound, State.read, State.view, State.bind, View.read, new, Box.new, State.before,
          Receiver.read, texts]

/-- A step of one mailbox is one of both. -/
theorem leads_box (b : Steady.State W) (side : Side) {as : List (Steady.Action W)}
    {c : Steady.Box W} (hrun : run Steady.Box.step (b side) as = some c) :
    Leads Steady.step b fun t => t = Function.update b side c := by
  induction as generalizing b with
  | nil =>
      obtain rfl := Option.some.inj hrun
      exact .refl (Function.update_eq_self side b).symm
  | cons a as ih =>
      obtain ⟨d, first, rest⟩ := run_cons_eq_some.mp hrun
      have hs : Steady.step b (side, a) = some (Function.update b side d) := by
        simp [Steady.step, first]
      refine (Leads.of_step hs rfl).trans ?_
      rintro _ rfl
      have later := ih (Function.update b side d) (by simpa using rest)
      simpa using later

theorem view_put (s : State Addr W) (side : Side) (v : View Addr W) :
    (s.put side v).view side = v := by
  simp [State.view, State.put]

theorem holds_put (s : State Addr W) (side : Side) (v : View Addr W) :
    (s.put side v).holds (some side) = v.box.blocks ∧
      ∀ i, i ≠ some side → (s.put side v).holds i = s.holds i := by
  refine ⟨by simp [State.holds, State.put], fun i other => ?_⟩
  cases i with
  | none => rfl
  | some i =>
      have other : i ≠ side := fun same => other (congrArg some same)
      simp [State.holds, State.put, other]

variable [DecidableEq Addr]

/-- What the other side has on its way is left alone. -/
theorem Safe.read_put (h : Safe s) {side other : Side} {v : View Addr W}
    (effect : Effect (s.view side) v) (ne : other ≠ side) :
    ((s.put side v).view other).read = (s.view other).read := by
  have apart : ∀ c ∈ (s.box other).blocks, v.heap c = s.heap c := by
    intro c hc
    cases effect with
    | keep heap blocks => exact congrFun heap c
    | alloc buffer w unused heap blocks =>
        rw [heap]
        refine Function.update_of_ne ?_ _ _
        rintro rfl
        exact h.owned.notMem unused (some other) hc
    | free buffer heap blocks =>
        rw [heap]
        have held : buffer ∈ s.holds (some side) :=
          (congrArg (buffer ∈ ·) blocks).mpr List.mem_cons_self
        have apart : some other ≠ some side := fun same => ne (Option.some.inj same)
        exact Function.update_of_ne (h.owned.ne apart held hc) _ _
  have same := read_congr (v := s.view other) apart v.fault
  simpa [State.view, State.put, ne] using same

theorem Safe.box (h : Safe s) {side : Side} {a : Action Addr W} {v : View Addr W}
    (bound : s.notSend = none) (hs : (s.view side).step a = some v) : Safe (s.put side v) := by
  obtain ⟨effect, fault, reads⟩ := step_spec (v := s.view side) (fun c hc => h.there hc)
    (h.owned.once (some side)) hs
  obtain ⟨mine, others⟩ := holds_put s side v
  refine ⟨?_, fault.trans h.faultless, fun q waits => ?_, fun _ => ?_⟩
  · cases effect with
    | keep heap blocks =>
        have same : Owned v.heap s.holds := heap ▸ h.owned
        refine same.perm fun i => ?_
        by_cases here : i = some side
        · rw [here, mine, blocks]
          exact .refl _
        · rw [others i here]
    | alloc buffer w unused heap blocks =>
        change Owned v.heap _
        rw [heap]
        refine h.owned.alloc_one unused w (i := some side) ?_ others
        rw [mine, blocks]
        exact List.perm_append_singleton buffer _
    | free buffer heap blocks =>
        change Owned v.heap _
        rw [heap]
        refine h.owned.free_one (i := some side) ?_ others
        rw [mine]
        exact .of_eq blocks
  · exact absurd (bound.symm.trans waits) (by simp)
  · refine (h.mailboxes bound).trans ?_
    rintro _ rfl
    refine (leads_box s.read side reads).imp ?_
    rintro _ rfl
    funext other
    by_cases here : other = side
    · subst here
      rw [Function.update_self, State.read, view_put]
    · rw [Function.update_of_ne here]
      exact (h.read_put effect here).symm

theorem Safe.step {a : Step Addr W} (h : Safe s) (hs : Buffers.step s a = some t) : Safe t := by
  cases a with
  | early w buffer =>
      simp only [Buffers.step] at hs
      split at hs
      · next q waits unused =>
          cases hs
          exact h.sendEarly waits unused
      · cases hs
  | bind =>
      obtain ⟨q, waits, rfl⟩ := Option.map_eq_some_iff.mp hs
      exact h.bind waits
  | box side a =>
      simp only [Buffers.step] at hs
      split at hs
      · cases hs
      · next bound =>
          obtain ⟨v, moved, rfl⟩ := Option.map_eq_some_iff.mp hs
          exact h.box bound moved

/-! ### Rest -/

/-- What the threads do by themselves once a call has begun. -/
def Step.inner : Step Addr W → Prop
  | .early _ _ | .box _ (.lock _) | .box _ .nudge | .box _ .delete => False
  | .bind | .box _ _ => True

/-- Where the threads have come to rest. -/
structure Peaceful (s : State Addr W) : Prop where
  received : ∀ side, (s.box side).deleted = false → (s.box side).received = (s.box side).pushed
  /-- What is in use was queued when its side was deleted. -/
  returned : ∀ c, s.heap c ≠ none →
    ∃ side, (s.box side).deleted = true ∧ c ∈ (s.box side).events

omit [DecidableEq Addr] in
theorem Safe.flowing (h : Safe s) (bound : s.notSend = none) (side : Side) :
    Flowing (s.view side).read := by
  have keep : ∀ (b : Steady.State W) a c, (∀ side, Flowing (b side)) → Steady.step b a = some c →
      ∀ side, Flowing (c side) := by
    intro b a c flowing hs side
    obtain ⟨here, there⟩ := Steady.step_cases hs
    by_cases same : side = a.1
    · subst same
      exact (flowing a.1).step here
    · rw [there side same]
      exact flowing side
  obtain ⟨b, flowing, rfl⟩ := (h.mailboxes bound).of_inductive keep (flowing_bound s.before)
  exact flowing side

section Rest

variable (rests : AtRest step Step.inner s)
include rests

theorem bound_of_atRest : s.notSend = none := by
  have stuck := rests .bind trivial
  simpa [step] using stuck

theorem stuck_of_atRest (side : Side) {a : Action Addr W} (inner : (Step.box side a).inner) :
    (s.view side).step a = none := by
  have stuck := rests (.box side a) inner
  simpa [step, bound_of_atRest rests] using stuck

theorem sender_of_atRest [Infinite Addr] (h : Safe s) (side : Side) :
    (s.box side).sender = .none := by
  cases sender : (s.box side).sender with
  | none => rfl
  | locked w =>
      have owners : ∀ i : Option Side, i ∈ [none, some .main, some .sub] := by
        intro i
        cases i with
        | none => simp
        | some side => cases side <;> simp
      obtain ⟨c, unused⟩ := h.owned.exists_unused owners
      have push := stuck_of_atRest rests side (a := .push c) trivial
      simp [View.step, State.view, sender, unused] at push
  | pushed =>
      have signal := stuck_of_atRest rests side (a := .signal) trivial
      simp [View.step, State.view, sender] at signal
  | signalled =>
      have unlock := stuck_of_atRest rests side (a := .unlock) trivial
      simp [View.step, State.view, sender] at unlock

theorem receiver_of_atRest [Infinite Addr] (h : Safe s) (side : Side) :
    (s.box side).receiver = .loop := by
  have sender := sender_of_atRest rests h side
  cases receiver : (s.box side).receiver with
  | loop => rfl
  | draining =>
      have next := stuck_of_atRest rests side (a := .next) trivial
      cases events : (s.box side).events with
      | nil => simp [View.step, State.view, receiver, sender, events] at next
      | cons event rest => simp [View.step, State.view, receiver, sender, events] at next
  | holding event =>
      have recv := stuck_of_atRest rests side (a := .recv) trivial
      cases text : s.heap event with
      | none => simp [View.step, State.view, receiver, text] at recv
      | some w => simp [View.step, State.view, receiver, text] at recv
  | returned event =>
      have free := stuck_of_atRest rests side (a := .free) trivial
      cases text : s.heap event with
      | none => simp [View.step, State.view, receiver, text] at free
      | some w => simp [View.step, State.view, receiver, text] at free

/-- A side that is not deleted has fetched everything. -/
theorem read_of_atRest [Infinite Addr] (h : Safe s) {side : Side}
    (opened : (s.box side).deleted = false) : (s.view side).read.events = [] := by
  have sender := sender_of_atRest rests h side
  have receiver := receiver_of_atRest rests h side
  by_contra queued
  rcases (h.flowing (bound_of_atRest rests) side).awake queued with pending | receiving | sending
  · have wake := stuck_of_atRest rests side (a := .wake) trivial
    change (s.box side).pending = true at pending
    simp [View.step, State.view, receiver, opened, pending] at wake
  · exact receiving (by simp [View.read, State.view, receiver, Receiver.read])
  · simp [View.read, State.view, sender] at sending

theorem peaceful_of_atRest [Infinite Addr] (h : Safe s) : Peaceful s := by
  have bound := bound_of_atRest rests
  have blocks : ∀ side, (s.box side).blocks = (s.box side).events := by
    intro side
    simp [Box.blocks, receiver_of_atRest rests h side, Receiver.hand]
  refine ⟨fun side opened => ?_, fun c used => ?_⟩
  · have inOrder := (h.flowing bound side).inOrder
    rw [read_of_atRest rests h opened] at inOrder
    simpa [View.read, State.view, Steady.Box.inHand, receiver_of_atRest rests h side,
      Receiver.read] using inOrder
  · obtain ⟨i, held⟩ := (h.owned.inUse c).mp used
    cases i with
    | none => simp [State.holds, bound] at held
    | some side =>
        have queued : c ∈ (s.box side).events := blocks side ▸ held
        refine ⟨side, ?_, queued⟩
        by_contra opened
        have empty := read_of_atRest rests h (eq_false_of_ne_true opened)
        obtain ⟨w, hw⟩ := h.there held
        have lost : s.heap c = none := List.filterMap_eq_nil_iff.mp empty c queued
        exact absurd (lost.symm.trans hw) (by simp)

end Rest

/-! ### The end of a call -/

def Receiver.left : Receiver Addr → ℕ
  | .returned _ => 1
  | _ => 0

/-- How many steps a mailbox is still good for. -/
def View.cost (v : View Addr W) : ℕ := 2 * Connection.cost v.read + v.box.receiver.left

omit [DecidableEq Addr] in
theorem left_le (r : Receiver Addr) : r.left ≤ 1 := by
  cases r with
  | loop | draining | holding => exact Nat.zero_le 1
  | returned => exact Nat.le_refl 1

theorem cost_lt {v v' : View Addr W} {side : Side} {a : Action Addr W}
    (there : ∀ c ∈ v.box.blocks, ∃ w, v.heap c = some w) (once : v.box.blocks.Nodup)
    (inner : (Step.box side a).inner) (hs : v.step a = some v') : v'.cost < v.cost := by
  obtain ⟨-, -, reads⟩ := step_spec there once hs
  have left := left_le v'.box.receiver
  -- A step that the mailbox of texts takes too.
  have descend : Connection.cost v'.read < Connection.cost v.read → v'.cost < v.cost := by
    intro less
    rw [View.cost, View.cost]
    omega
  have single : ∀ {b}, explain a = [b] → v.read.step b = some v'.read := by
    intro b one
    rw [one] at reads
    obtain ⟨u, first, last⟩ := run_cons_eq_some.mp reads
    exact first.trans last
  cases a with
  | lock | nudge | delete => exact inner.elim
  | push => exact descend (Connection.cost_mail (a := .push) (by simp) (single rfl))
  | signal => exact descend (Connection.cost_mail (a := .signal) (by simp) (single rfl))
  | unlock => exact descend (Connection.cost_mail (a := .unlock) (by simp) (single rfl))
  | wake => exact descend (Connection.cost_mail (a := .wake) (by simp) (single rfl))
  | next => exact descend (Connection.cost_mail (a := .next) (by simp) (single rfl))
  | recv => exact descend (Connection.cost_recv (single rfl))
  | free =>
      have same : v.read = v'.read := Option.some.inj reads
      simp only [View.step] at hs
      split at hs
      · next event receiver =>
          obtain ⟨w, hw⟩ := there event (by simp [Box.blocks, receiver, Receiver.hand])
          simp only [hw] at hs
          cases hs
          rw [View.cost, View.cost, same, receiver]
          exact Nat.lt_succ_self _
      · cases hs

/-- Binding comes first. -/
def State.cost (s : State Addr W) : ℕ × ℕ :=
  (s.notSend.isSome.toNat, (s.view .main).cost + (s.view .sub).cost)

theorem Safe.descends {a : Step Addr W} (h : Safe s) (inner : a.inner)
    (hs : Buffers.step s a = some t) : WellFoundedRelation.rel t.cost s.cost := by
  cases a with
  | early => exact inner.elim
  | bind =>
      obtain ⟨q, waits, rfl⟩ := Option.map_eq_some_iff.mp hs
      refine Prod.Lex.left _ _ ?_
      rw [waits]
      exact Nat.zero_lt_one
  | box side a =>
      simp only [Buffers.step] at hs
      split at hs
      · cases hs
      · next bound =>
          obtain ⟨v, moved, rfl⟩ := Option.map_eq_some_iff.mp hs
          have once : (s.view side).box.blocks.Nodup := h.owned.once (some side)
          have less := cost_lt (fun c hc => h.there hc) once inner moved
          obtain ⟨effect, -, -⟩ := step_spec (fun c hc => h.there hc) once moved
          refine Prod.Lex.right _ ?_
          rw [← view_put s side v] at less
          have other := h.read_put effect (Connection.peer_ne side)
          have left : ((s.put side v).box side.peer).receiver = (s.box side.peer).receiver := by
            simp [State.put, Connection.peer_ne]
          have same : ((s.put side v).view side.peer).cost = (s.view side.peer).cost := by
            rw [View.cost, View.cost, other]
            exact congrArg _ (congrArg Receiver.left left)
          cases side with
          | main => exact Nat.add_lt_add_of_lt_of_le less (Nat.le_of_eq same)
          | sub => exact Nat.add_lt_add_of_le_of_lt (Nat.le_of_eq same) less

theorem Safe.ends (h : Safe s) : Ends Buffers.step Step.inner s :=
  .of_keeps (I := Safe) State.cost
    (fun _ a _ h inner hs => ⟨Safe.step (a := a) h hs, h.descends inner hs⟩) h

/-! ### Main results -/

/-- **The buffers carry the messages**: in every run, with any addresses that the allocator gives,
every buffer in use is on its way to one of the sides, and to one only, or waits in `not_send`;
none is read or freed that is not in use; and once the sides are bound, the mailboxes with their
buffers read have done what those of `Mailbox.Steady` do. -/
theorem buffers_carry_messages (as : List (Step Addr W)) : Always step Safe init as :=
  Always.of_inductive (fun _ _ _ h hs => Safe.step h hs) safe_init as

/-- A message from before the binding, and one sent back that is still queued when the main side
is deleted. -/
def letters : List (Step ℕ String) :=
  [.early "go" 0, .bind, .box .sub .wake, .box .sub .next, .box .sub .recv, .box .sub .free,
    .box .sub .next, .box .main (.lock "done"), .box .main (.push 1), .box .main .signal,
    .box .main .unlock, .box .main .delete]

end ThreadJs.Mailbox.Buffers
