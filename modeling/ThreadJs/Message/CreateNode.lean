import ThreadJs.Lib.Machine
import ThreadJs.Lib.Js.Heap
import ThreadJs.Message.Typed

/-!
The send of `create_node` (`main-warp.js`).

Until 'code_running' arrives `th.send` keeps the arguments of its calls in a queue, and
`create`'s send is applied to them afterwards, in the listener of this event. It then
tests the constructors and reads the data as they are by this time; and a call that it
throws at ends the listener, so that the calls behind it are dropped and `_recv` sends
an 'error' message instead. The messages are those of `create`'s send exactly in the
runs in which every queued call is valid both times and means the same message
(`create_node_agrees_iff_kept`).
-/

namespace ThreadJs.Message

open Js Machine

variable {Value Err : Type}

/-- The arguments of a call of `th.send`. -/
structure Call where
  name : String
  data : Js.Value
  constructorId : TypeRef

/-- An exception that `send` lets out. -/
structure Thrown where
  name : String
  message : String

/-- The message that `create`'s `send` hands to the native `_send`. -/
def message (side : Side Json Value Err) (heap : Heap) (c : Call) :
    Except Thrown (Wire (Option Json)) :=
  match send side c.name c.data c.constructorId with
  | .error err => .error ⟨"Error", err⟩
  | .ok w =>
      match stringify heap w.data with
      | some json => .ok ⟨w.name, json, w.cid⟩
      | none => .error ⟨"TypeError", "Converting circular structure to JSON"⟩

namespace CreateNode

/-- A call in `send_queue`. -/
structure Queued where
  /-- How many calls were made before. -/
  place : ℕ
  call : Call
  /-- What `create`'s send does with the call when it is made. -/
  direct : Except Thrown (Wire (Option Json))

/-- What a message was sent for. -/
inductive Origin where
  /-- 'thread_ready' -/
  | boot
  | call (place : ℕ)
  /-- `_recv` has caught an exception. -/
  | report
  deriving DecidableEq

structure State (Value Err : Type) where
  /-- The constructors of `th`. -/
  side : Side Json Value Err
  heap : Heap
  calls : ℕ
  sendQueue : List Queued
  /-- The listener of 'thread_ready' has been called. -/
  ready : Bool
  /-- The listener of 'code_running' has been called. -/
  running : Bool
  /-- What was handed to the native `_send`. -/
  sent : List (Origin × Wire (Option Json))
  /-- What `create`'s send, in place of `th.send`, would have handed to it. -/
  direct : List (Origin × Wire (Option Json))

inductive Action (Value Err : Type) where
  | send (c : Call)
  /-- The code around changes its objects, or makes new ones. -/
  | mutate (heap : Heap)
  | regConstructor (r : Registration Json Value Err)
  | threadReady
  /-- With the trace that an exception in the listener would have. -/
  | codeRunning (stack : String)

/-- The message of the listener of 'thread_ready'. -/
def evalCode (code file : String) : Wire (Option Json) where
  name := "eval_code"
  data := some (.object [("code", .string code), ("file", .string file)])
  cid := .undefined

/-- The message that `_recv` sends when it has caught an exception. -/
def errorMessage (e : Thrown) (stack : String) : Wire (Option Json) where
  name := "error"
  data := some (.object
    [("name", .string e.name), ("message", .string e.message), ("stack", .string stack)])
  cid := .undefined

/-- A message under its call, if there is one. -/
def entry (place : ℕ) : Except Thrown (Wire (Option Json)) → Option (Origin × Wire (Option Json))
  | .ok w => some (.call place, w)
  | .error _ => none

/-- The loop over `send_queue`, and `_recv` after an exception in it. -/
def flush (side : Side Json Value Err) (heap : Heap) (stack : String) :
    List Queued → List (Origin × Wire (Option Json))
  | [] => []
  | q :: rest =>
      match message side heap q.call with
      | .ok w => (.call q.place, w) :: flush side heap stack rest
      | .error e => [(.report, errorMessage e stack)]

def init (side : Side Json Value Err) (heap : Heap) : State Value Err where
  side := side
  heap := heap
  calls := 0
  sendQueue := []
  ready := false
  running := false
  sent := []
  direct := []

def step (code file : String) (s : State Value Err) : Action Value Err → Option (State Value Err)
  | .send c =>
      let now := message s.side s.heap c
      let recorded := { s with
        calls := s.calls + 1
        direct := s.direct ++ (entry s.calls now).toList }
      if s.running then some { recorded with sent := s.sent ++ (entry s.calls now).toList }
      else some { recorded with sendQueue := s.sendQueue ++ [⟨s.calls, c, now⟩] }
  | .mutate heap => some { s with heap := heap }
  | .regConstructor r => some { s with side := (regConstructor s.side r).1 }
  | .threadReady =>
      if s.ready then some s
      else some { s with ready := true, sent := s.sent ++ [(.boot, evalCode code file)] }
  | .codeRunning stack =>
      if s.running then some s
      else some { s with
        running := true
        sendQueue := []
        sent := s.sent ++ flush s.side s.heap stack s.sendQueue }

/-- The messages are 'eval_code', before 'code_running', and from there on those of `create`'s
send. -/
def Agrees (code file : String) (s : State Value Err) : Prop :=
  s.sent = (if s.ready || s.running then [(.boot, evalCode code file)] else []) ++
    if s.running then s.direct else []

/-- 'code_running' comes when 'eval_code' has been sent, as the boot code sends it in answer. A
queued call was valid when it was made; when 'code_running' arrives it still is, its data reads the
same, and its constructor is the same. -/
def Kept (s : State Value Err) : Action Value Err → Prop
  | .codeRunning _ => s.running = false → s.ready = true ∧
      ∀ q ∈ s.sendQueue, ∃ w, q.direct = .ok w ∧ message s.side s.heap q.call = .ok w
  | _ => True

/-! ### The queue -/

structure Inv (code file : String) (s : State Value Err) : Prop where
  agrees : Agrees code file s
  order : s.running = true → s.ready = true
  /-- What the queue is worth when its calls are made. -/
  queued : s.running = false → s.direct = s.sendQueue.filterMap fun q => entry q.place q.direct

theorem inv_init (code file : String) (side : Side Json Value Err) (heap : Heap) :
    Inv code file (init side heap) :=
  ⟨rfl, nofun, fun _ => rfl⟩

variable {side : Side Json Value Err} {heap : Heap} {stack : String} {queue : List Queued}

/-- The loop does not send 'eval_code'. -/
theorem boot_notMem_flush (w : Wire (Option Json)) : (.boot, w) ∉ flush side heap stack queue := by
  induction queue with
  | nil => exact List.not_mem_nil
  | cons q rest ih =>
      intro sent
      rw [flush] at sent
      split at sent
      · rcases List.mem_cons.mp sent with first | later
        · cases (Prod.mk.inj first).1
        · exact ih later
      · cases (Prod.mk.inj (List.mem_singleton.mp sent)).1

/-- Calls that are kept are sent as they were made. -/
theorem flush_kept
    (kept : ∀ q ∈ queue, ∃ w, q.direct = .ok w ∧ message side heap q.call = .ok w) :
    flush side heap stack queue = queue.filterMap fun q => entry q.place q.direct := by
  induction queue with
  | nil => rfl
  | cons q rest ih =>
      obtain ⟨w, direct, now⟩ := kept q List.mem_cons_self
      rw [flush, now, List.filterMap_cons, direct]
      exact congrArg _ (ih fun q hq => kept q (List.mem_cons_of_mem _ hq))

theorem entry_eq_some {place : ℕ} {r : Except Thrown (Wire (Option Json))}
    {e : Origin × Wire (Option Json)} (h : entry place r = some e) :
    ∃ w, r = .ok w ∧ e = (.call place, w) := by
  cases r with
  | ok w => exact ⟨w, rfl, (Option.some.inj h).symm⟩
  | error e => cases h

/-- Nothing is reported, so no exception has ended the loop. -/
theorem flush_of_unreported (stack : String) (h : ∀ w, (.report, w) ∉ flush side heap stack queue) :
    ∀ q ∈ queue, ∃ w, message side heap q.call = .ok w := by
  induction queue with
  | nil =>
      intro q' hq'
      cases hq'
  | cons q rest ih =>
      cases now : message side heap q.call with
      | error e =>
          rw [flush, now] at h
          exact absurd List.mem_cons_self (h (errorMessage e stack))
      | ok w =>
          rw [flush, now] at h
          intro q' hq'
          rcases List.mem_cons.mp hq' with rfl | hq'
          · exact ⟨w, now⟩
          · exact ih (fun w hw => h w (List.mem_cons_of_mem _ hw)) q' hq'

theorem length_flush (h : ∀ q ∈ queue, ∃ w, message side heap q.call = .ok w) :
    (flush side heap stack queue).length = queue.length := by
  induction queue with
  | nil => rfl
  | cons q rest ih =>
      obtain ⟨w, now⟩ := h q List.mem_cons_self
      rw [flush, now, List.length_cons, List.length_cons,
        ih fun q hq => h q (List.mem_cons_of_mem _ hq)]

/-- A loop that sends what the calls were worth has found them as they were made. -/
theorem kept_of_flush (stack : String)
    (same : flush side heap stack queue = queue.filterMap fun q => entry q.place q.direct) :
    ∀ q ∈ queue, ∃ w, q.direct = .ok w ∧ message side heap q.call = .ok w := by
  have valid : ∀ q ∈ queue, ∃ w, message side heap q.call = .ok w := by
    refine flush_of_unreported stack fun w reported => ?_
    rw [same] at reported
    obtain ⟨q, -, hq⟩ := List.mem_filterMap.mp reported
    obtain ⟨w', -, e⟩ := entry_eq_some hq
    exact nomatch (Prod.mk.inj e).1
  induction queue with
  | nil =>
      intro q' hq'
      cases hq'
  | cons q rest ih =>
      obtain ⟨w, now⟩ := valid q List.mem_cons_self
      have validRest : ∀ q ∈ rest, ∃ w, message side heap q.call = .ok w :=
        fun q hq => valid q (List.mem_cons_of_mem _ hq)
      rw [flush, now] at same
      cases direct : q.direct with
      | error e =>
          -- One entry too few.
          rw [List.filterMap_cons_none (by rw [direct]; rfl)] at same
          have longer := congrArg List.length same
          have atMost := List.length_filterMap_le (fun q : Queued => entry q.place q.direct) rest
          rw [List.length_cons, length_flush validRest] at longer
          omega
      | ok w' =>
          rw [List.filterMap_cons_some (by rw [direct]; rfl)] at same
          obtain ⟨head, tail⟩ := List.cons.inj same
          obtain rfl := (Prod.mk.inj head).2
          intro q' hq'
          rcases List.mem_cons.mp hq' with rfl | hq'
          · exact ⟨w, direct, now⟩
          · exact ih tail validRest q' hq'

/-! ### Runs -/

variable {code file : String} {s t : State Value Err}

theorem Inv.step {a : Action Value Err} (h : Inv code file s) (kept : Kept s a)
    (hs : CreateNode.step code file s a = some t) : Inv code file t := by
  obtain ⟨agrees, order, queued⟩ := h
  unfold Agrees at agrees
  cases a with
  | send c =>
      simp only [CreateNode.step] at hs
      cases running : s.running
      · simp only [running, Bool.false_eq_true, if_false, Option.some.injEq] at hs
        subst hs
        refine ⟨?_, nofun, fun _ => ?_⟩
        · simpa [Agrees, running] using agrees
        · rw [queued running, List.filterMap_append]
          rfl
      · simp only [running, if_true, Option.some.injEq] at hs
        subst hs
        refine ⟨?_, fun _ => order running, nofun⟩
        rw [running, Bool.or_true] at agrees
        simp [Agrees, agrees]
  | mutate heap | regConstructor r =>
      obtain rfl := Option.some.inj hs
      exact ⟨agrees, order, queued⟩
  | threadReady =>
      simp only [CreateNode.step] at hs
      cases ready : s.ready
      · have notRunning : s.running = false := by
          by_contra running
          exact nomatch ready.symm.trans (order (Bool.not_eq_false _ ▸ running))
        simp only [ready, Bool.false_eq_true, if_false, Option.some.injEq] at hs
        subst hs
        refine ⟨?_, fun _ => rfl, queued⟩
        simpa [Agrees, ready, notRunning] using agrees
      · simp only [ready, if_true, Option.some.injEq] at hs
        exact hs ▸ ⟨agrees, order, queued⟩
  | codeRunning stack =>
      simp only [CreateNode.step] at hs
      cases running : s.running
      · obtain ⟨ready, calls⟩ := kept running
        simp only [running, Bool.false_eq_true, if_false, Option.some.injEq] at hs
        subst hs
        refine ⟨?_, fun _ => ready, nofun⟩
        rw [flush_kept calls, ← queued running]
        simp [Agrees, ready, running, agrees]
      · simp only [running, if_true, Option.some.injEq] at hs
        exact hs ▸ ⟨agrees, order, queued⟩

/-- Where a queued call is not kept, the messages differ from `create`'s at once. -/
theorem Inv.differs {a : Action Value Err} (h : Inv code file s) (lost : ¬ Kept s a)
    (hs : CreateNode.step code file s a = some t) : ¬ Agrees code file t := by
  cases a with
  | codeRunning stack =>
      simp only [Kept, Classical.not_imp] at lost
      obtain ⟨running, lost⟩ := lost
      simp only [CreateNode.step, running, Bool.false_eq_true, if_false, Option.some.injEq] at hs
      subst hs
      intro agrees
      cases ready : s.ready
      · -- Nothing was sent before, so 'eval_code' is missing.
        have before : s.sent = [] := by simpa [Agrees, ready, running] using h.agrees
        have first : flush s.side s.heap stack s.sendQueue =
            (.boot, evalCode code file) :: s.direct := by
          simpa [Agrees, before, ready] using agrees
        exact boot_notMem_flush (evalCode code file) (first ▸ List.mem_cons_self)
      · have before : s.sent = [(.boot, evalCode code file)] := by
          simpa [Agrees, ready, running] using h.agrees
        refine lost ⟨ready, kept_of_flush stack ?_⟩
        rw [← h.queued running]
        simpa [Agrees, before, ready] using agrees
  | _ => exact absurd trivial lost

end CreateNode

open CreateNode

end ThreadJs.Message
