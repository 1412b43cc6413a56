import Mathlib.Logic.Function.Basic
import ThreadJs.Lib.Machine

/-!
The timers of a plain thread (`timeImpl.cc`), as a machine.

A `Timer` object lives at an address of the heap and is reached from three places:
the pool, which owns it; its uv handle; and the C++ frames that are just calling it
(`Caller`). JavaScript runs at the top level (`idle`) and inside every callback, so
it may create and clear timers in the middle of a firing. Entering a method of a
deleted object sets `usedDeleted` and ends the run.
-/

namespace ThreadJs.Timers

/-- `timer_id`. -/
abbrev TimerId := Int32

inductive Kind where
  | oneShot
  | repeating
  /-- Queued in `tick_queue`; its uv handle is never started. -/
  | tick
  deriving DecidableEq

/-- The calls that create a timer. -/
inductive Request where
  | setTimeout (delay : UInt32)
  | setInterval (delay : UInt32)
  | setImmediate
  | nextTick
  deriving DecidableEq

/-- The callback that `Timer::start` chooses: an interval of 0 is a one-shot timer. -/
def Request.kind : Request → Kind
  | .setTimeout _ | .setImmediate => .oneShot
  | .setInterval delay => if delay = 0 then .oneShot else .repeating
  | .nextTick => .tick

structure Timer where
  id : TimerId
  /-- The field `pool` is not null. -/
  pooled : Bool
  kind : Kind
  /-- The uv handle is started. -/
  active : Bool
  /-- How often the object was deleted. -/
  deletes : Nat
  deriving DecidableEq

/-- Who has called `do_tick`: the tick event, or `Timer::call` for one of the two uv
callbacks. -/
inductive Caller where
  | tickEvent
  | oneShot (p : Nat)
  | repeating (p : Nat)
  deriving DecidableEq

inductive Pc where
  /-- In the script or between the callbacks of the loop. -/
  | idle
  /-- In the loop of `do_tick`. -/
  | ticking (c : Caller)
  /-- `do_tick` is calling the function of the timer `p`. -/
  | tickFn (c : Caller) (p : Nat)
  /-- `Timer::call` is calling the function of the caller's own timer. -/
  | fireFn (c : Caller)
  /-- `~TimerPool` has run. -/
  | destroyed
  deriving DecidableEq

structure State where
  /-- `TimerPool::id`. -/
  lastId : TimerId
  /-- `TimerPool::pool`. -/
  pool : TimerId → Option Nat
  heap : Nat → Option Timer
  /-- The number of objects allocated so far. -/
  size : Nat
  tickQueue : List TimerId
  tickPending : Bool
  pc : Pc
  usedDeleted : Bool

def init : State where
  lastId := 1
  pool := fun _ => none
  heap := fun _ => none
  size := 0
  tickQueue := []
  tickPending := false
  pc := .idle
  usedDeleted := false

namespace State

/-- A method of the object at `p` is entered. -/
def enter (s : State) (p : Nat) : State :=
  match s.heap p with
  | some t => if t.deletes = 0 then s else { s with usedDeleted := true }
  | none => { s with usedDeleted := true }

/-- `t->setPool(0)`. -/
def setPool (s : State) (p : Nat) : State :=
  match s.heap p with
  | some t => { s.enter p with heap := Function.update s.heap p (some { t with pooled := false }) }
  | none => s.enter p

/-- `delete t`: the handle is stopped and closed, and the object leaves its pool. -/
def delete (s : State) (p : Nat) : State :=
  match s.heap p with
  | some t =>
      { s.enter p with
        heap := Function.update s.heap p (some { t with active := false, deletes := t.deletes + 1 })
        pool := if t.pooled && t.id != 0 then Function.update s.pool t.id none else s.pool }
  | none => s.enter p

/-- `t->setPool(0); delete t;` -/
def release (s : State) (p : Nat) : State := (s.setPool p).delete p

/-- `TimerPool::pop`, for a key that is there. -/
def pop (s : State) (id : TimerId) : State := { s with pool := Function.update s.pool id none }

/-- `createTimer`, followed by `push_tick` or `Timer::start`. -/
def createTimer (s : State) (r : Request) : State :=
  let id := s.lastId + 1
  { s with
    lastId := id
    heap := Function.update s.heap s.size
      (some ⟨id, true, r.kind, decide (r.kind ≠ .tick), 0⟩)
    size := s.size + 1
    -- `std::map::insert` does not replace an entry.
    pool := if (s.pool id).isSome then s.pool else Function.update s.pool id (some s.size)
    tickQueue := if r.kind = .tick then s.tickQueue ++ [id] else s.tickQueue
    tickPending := s.tickPending || decide (r.kind = .tick) }

theorem createTimer_heap (s : State) (r : Request) : (s.createTimer r).heap =
    Function.update s.heap s.size
      (some ⟨s.lastId + 1, true, r.kind, decide (r.kind ≠ .tick), 0⟩) := rfl

/-- `j_clear_time` for a handle that carries `id`. -/
def clearTime (s : State) (id : TimerId) : State :=
  match s.pool id with
  | some p => (s.pop id).release p
  | none => s

/-- One turn of the loop in `do_tick`, or the return from it. -/
def doTick (s : State) (c : Caller) : State :=
  match s.tickQueue.getLast? with
  | some id =>
      let s := { s with tickQueue := s.tickQueue.dropLast }
      match s.pool id with
      | some p => { (s.pop id).enter p with pc := .tickFn c p }
      | none => s
  | none =>
      match c with
      | .tickEvent => { s with pc := .idle }
      | .oneShot p | .repeating p => { s.enter p with pc := .fireFn c }

/-- The loop calls `timeout_one_cb` or `timeout_repeat_cb` for the handle of `p`. -/
def fire (s : State) (p : Nat) (t : Timer) : State :=
  let c := if t.kind = .oneShot then .oneShot p else .repeating p
  { s.enter p with
    -- libuv stops a handle without a repeat value before it calls back.
    heap := Function.update s.heap p (some { t with active := decide (t.kind ≠ .oneShot) })
    pc := if t.pooled then .ticking c else .fireFn c }

/-- The objects that the pool holds. -/
def entries (s : State) : List Nat :=
  (List.range s.size).filter fun p => (s.heap p).any fun t => s.pool t.id == some p

/-- `~TimerPool`. -/
def destroy (s : State) : State :=
  { s.entries.foldl release s with pool := fun _ => none, pc := .destroyed }

/-- JavaScript may call the timer functions. -/
def inJs (s : State) : Bool :=
  match s.pc with
  | .idle | .tickFn _ _ | .fireFn _ => true
  | _ => false

end State

inductive Action where
  | create (r : Request)
  | clear (id : TimerId)
  /-- The loop calls `recv_tick_event`. -/
  | tickEvent
  /-- `do_tick` goes on. -/
  | tick
  /-- The loop calls the callback of the handle of `p`. -/
  | fire (p : Nat)
  /-- The function that was called returns. -/
  | returns
  | destroy
  deriving DecidableEq

def step (s : State) (a : Action) : Option State :=
  if s.usedDeleted then none
  else
    match a with
    | .create r => if s.inJs then some (s.createTimer r) else none
    | .clear id => if s.inJs then some (s.clearTime id) else none
    | .tickEvent =>
        if s.pc = .idle ∧ s.tickPending then
          some { s with pc := .ticking .tickEvent, tickPending := false }
        else none
    | .tick =>
        match s.pc with
        | .ticking c => some (s.doTick c)
        | _ => none
    | .fire p =>
        match s.pc, s.heap p with
        | .idle, some t => if t.active then some (s.fire p t) else none
        | _, _ => none
    | .returns =>
        match s.pc with
        | .tickFn c p => some { s.release p with pc := .ticking c }
        | .fireFn (.oneShot p) => some { s.delete p with pc := .idle }
        | .fireFn _ => some { s with pc := .idle }
        | _ => none
    | .destroy => if s.pc = .idle then some s.destroy else none

/-! ### What the methods do -/

/-- `t->setPool(0); delete t;` -/
def Timer.released (t : Timer) : Timer :=
  { t with pooled := false, active := false, deletes := t.deletes + 1 }

/-- `delete t;` -/
def Timer.deleted (t : Timer) : Timer := { t with active := false, deletes := t.deletes + 1 }

/-- libuv stops a handle without a repeat value before it calls back. -/
def Timer.fired (t : Timer) : Timer := { t with active := decide (t.kind ≠ .oneShot) }

/-- The caller of `do_tick` for a timer that fires. -/
def Timer.caller (t : Timer) (p : Nat) : Caller :=
  if t.kind = .oneShot then .oneShot p else .repeating p

open Function

section Objects

variable {s : State} {p : Nat} {t : Timer}

theorem enter_eq (hp : s.heap p = some t) :
    s.enter p = { s with usedDeleted := s.usedDeleted || decide (t.deletes ≠ 0) } := by
  by_cases live : t.deletes = 0
  · simp [State.enter, hp, live]
  · simp [State.enter, hp, live]

theorem delete_eq (hp : s.heap p = some t) : s.delete p = { s with
    heap := update s.heap p (some t.deleted)
    pool := if t.pooled && t.id != 0 then update s.pool t.id none else s.pool
    usedDeleted := s.usedDeleted || decide (t.deletes ≠ 0) } := by
  simp only [State.delete, hp, enter_eq hp, Timer.deleted]

theorem release_eq (hp : s.heap p = some t) : s.release p = { s with
    heap := update s.heap p (some t.released)
    usedDeleted := s.usedDeleted || decide (t.deletes ≠ 0) } := by
  have taken : s.setPool p = { s with
      heap := update s.heap p (some { t with pooled := false })
      usedDeleted := s.usedDeleted || decide (t.deletes ≠ 0) } := by
    simp only [State.setPool, hp, enter_eq hp]
  have hp' : (s.setPool p).heap p = some { t with pooled := false } := by
    rw [taken]
    exact update_self ..
  rw [State.release, delete_eq hp', taken]
  simp [Timer.deleted, Timer.released]

/-- The loop of `~TimerPool`. -/
theorem foldl_release_eq (l : List Nat) (s : State) (nodup : l.Nodup)
    (objects : ∀ p ∈ l, ∃ t, s.heap p = some t) : l.foldl State.release s = { s with
      heap := fun p => if p ∈ l then (s.heap p).map Timer.released else s.heap p
      usedDeleted := s.usedDeleted ||
        l.any fun p => (s.heap p).any fun t => decide (t.deletes ≠ 0) } := by
  induction l generalizing s with
  | nil => simp
  | cons p l ih =>
      obtain ⟨fresh, nodup⟩ := List.nodup_cons.mp nodup
      obtain ⟨t, hp⟩ := objects p List.mem_cons_self
      have other : ∀ q, q ≠ p → (s.release p).heap q = s.heap q := by
        intro q hq
        rw [release_eq hp]
        exact update_of_ne hq ..
      have rest := ih (s.release p) nodup fun q hq => by
        rw [other q (ne_of_mem_of_not_mem hq fresh)]
        exact objects q (List.mem_cons_of_mem p hq)
      have heap : (fun q => if q ∈ l then ((s.release p).heap q).map Timer.released
          else (s.release p).heap q) =
          fun q => if q ∈ p :: l then (s.heap q).map Timer.released else s.heap q := by
        funext q
        by_cases hq : q = p
        · subst hq
          rw [if_neg fresh, if_pos List.mem_cons_self, release_eq hp, hp]
          exact update_self ..
        · rw [other q hq]
          simp [hq]
      have used : (l.any fun q => ((s.release p).heap q).any fun t => decide (t.deletes ≠ 0)) =
          l.any fun q => (s.heap q).any fun t => decide (t.deletes ≠ 0) := by
        rw [Bool.eq_iff_iff, List.any_eq_true, List.any_eq_true]
        refine exists_congr fun q => and_congr_right fun hq => ?_
        rw [other q (ne_of_mem_of_not_mem hq fresh)]
      rw [List.foldl_cons, rest, heap, used, release_eq hp]
      simp [hp, Bool.or_assoc]

/-- `~TimerPool` releases the entries of the pool. -/
theorem destroy_eq (s : State) : s.destroy = { s with
    heap := fun p => if p ∈ s.entries then (s.heap p).map Timer.released else s.heap p
    pool := fun _ => none
    pc := .destroyed
    usedDeleted := s.usedDeleted ||
      s.entries.any fun p => (s.heap p).any fun t => decide (t.deletes ≠ 0) } := by
  rw [State.destroy, foldl_release_eq s.entries s (List.nodup_range.filter _)]
  intro p hp
  obtain ⟨t, ht, -⟩ := Option.any_eq_true _ _ |>.mp (List.mem_filter.mp hp).2
  exact ⟨t, ht⟩

/-- The objects that the pool holds under their own identifier. -/
theorem mem_entries (allocated : ∀ p t, s.heap p = some t → p < s.size) :
    p ∈ s.entries ↔ ∃ t, s.heap p = some t ∧ s.pool t.id = some p := by
  simp only [State.entries, List.mem_filter, List.mem_range, Option.any_eq_true, beq_iff_eq]
  exact ⟨fun hp => hp.2, fun ⟨t, hp, hid⟩ => ⟨allocated p t hp, t, hp, hid⟩⟩

end Objects

theorem createTimer_pool {s : State} {r : Request} (fresh : s.pool (s.lastId + 1) = none) :
    (s.createTimer r).pool = update s.pool (s.lastId + 1) (some s.size) := by
  simp [State.createTimer, fresh]

theorem createTimer_pool_kept {s : State} {r : Request} (fresh : s.pool (s.lastId + 1) = none)
    {id : TimerId} {p : Nat} (hid : s.pool id = some p) : (s.createTimer r).pool id = some p := by
  rw [createTimer_pool fresh, update_of_ne, hid]
  rintro rfl
  rw [fresh] at hid
  cases hid

theorem update_heap_cases {heap : Nat → Option Timer} {p q : Nat} {t t' : Timer}
    (hq : update heap p (some t') q = some t) : q = p ∧ t = t' ∨ q ≠ p ∧ heap q = some t := by
  by_cases e : q = p
  · subst e
    rw [update_self] at hq
    exact .inl ⟨rfl, (Option.some.inj hq).symm⟩
  · rw [update_of_ne e] at hq
    exact .inr ⟨e, hq⟩

theorem update_pool {pool : TimerId → Option Nat} {id id' : TimerId} {p : Nat}
    (h : update pool id none id' = some p) : pool id' = some p := by
  by_cases e : id' = id
  · rw [e, update_self] at h
    cases h
  · rwa [update_of_ne e] at h

/-- Taking out the entry of one object leaves those of all others. -/
theorem update_pool_of_ne {pool : TimerId → Option Nat} {id other : TimerId} {p q : Nat}
    (hid : pool id = some p) (entry : pool other = some q) (ne : q ≠ p) :
    update pool id none other = some q := by
  rw [update_of_ne, entry]
  rintro rfl
  exact ne (Option.some.inj (entry.symm.trans hid))

end ThreadJs.Timers
