import Mathlib.Data.Finset.Basic
import ThreadJs.Lib.Machine

/-!
`ID_container` (`data.h`): which threads may still be used.

A thread has its id in `thread_id` and, as a number of 32 bits, in a property of its
JavaScript object; every native call looks up the latter. The id is freed in
`free_sub_loop` and once more in `~ReqData`. `notfree_exact_iff` says how long the answers
are right.
-/

namespace ThreadJs.Registry.ThreadId

open Machine

/-! ### The container -/

/-- `T_ID` is an `unsigned long` of 64 bits. -/
structure IdContainer where
  threadIdPool : Finset UInt64
  /-- `_id`, the next id. -/
  id : UInt64

namespace IdContainer

def new : IdContainer := ⟨∅, 1⟩

def newid (c : IdContainer) : IdContainer × UInt64 :=
  (⟨insert c.id c.threadIdPool, c.id + 1⟩, c.id)

def freeid (c : IdContainer) (o : UInt64) : IdContainer :=
  { c with threadIdPool := c.threadIdPool.erase o }

def notfree (c : IdContainer) (i : UInt64) : Bool := i ∈ c.threadIdPool

end IdContainer

/-- `Integer::NewFromUnsigned`, the value of the property `_t_id`. -/
def setid (i : UInt64) : UInt32 := i.toUInt32

/-- `_getid`. The property is a number of 32 bits. -/
def getid (attr : UInt32) : UInt64 := attr.toUInt64

/-! ### Threads -/

inductive Stage where
  | alive
  /-- `free_sub_loop` has freed the id. -/
  | freed
  /-- `~ReqData` has run. -/
  | deleted
  deriving DecidableEq

structure Thread where
  /-- `ReqData::thread_id`. -/
  threadId : UInt64
  /-- `_t_id` of the object that `j_create` returns, and of `thread_context`. -/
  attr : UInt32
  stage : Stage

/-- `newid` and `setid` for a new `ReqData`. -/
def Thread.new (id : UInt64) : Thread := ⟨id, setid id, .alive⟩

structure State where
  ids : IdContainer
  /-- All threads that were ever created. -/
  threads : List Thread

def init : State := ⟨.new, []⟩

inductive Action where
  /-- `id_pool.newid` in `j_create`. -/
  | create
  | freeSubLoop (i : Nat)
  /-- `~ReqData`. After a failure in `do_script` it comes without `free_sub_loop`. -/
  | delete (i : Nat)

def step (s : State) : Action → Option State
  | .create =>
      let (ids, id) := s.ids.newid
      some ⟨ids, s.threads ++ [.new id]⟩
  | .freeSubLoop i =>
      match s.threads[i]? with
      | some th =>
          if th.stage = .alive then
            some ⟨s.ids.freeid th.threadId, s.threads.set i { th with stage := .freed }⟩
          else none
      | none => none
  | .delete i =>
      match s.threads[i]? with
      | some th =>
          if th.stage ≠ .deleted then
            some ⟨s.ids.freeid th.threadId, s.threads.set i { th with stage := .deleted }⟩
          else none
      | none => none

/-- `notfree` on the JavaScript object of a thread. -/
def State.notfree (s : State) (th : Thread) : Bool := s.ids.notfree (getid th.attr)

/-- The checks are right. -/
structure Exact (s : State) : Prop where
  own : ∀ (i : Nat) (th : Thread), s.threads[i]? = some th →
    (s.notfree th = true ↔ th.stage = .alive)
  /-- Another thread goes, and the answer stays. -/
  apart : ∀ (i j : Nat) (th : Thread) (t : State), s.threads[i]? = some th → j ≠ i →
    step s (.freeSubLoop j) = some t ∨ step s (.delete j) = some t → t.notfree th = s.notfree th

/-- The new id has 32 bits. -/
def Fits (s : State) : Action → Prop
  | .create => s.threads.length + 1 < 0x100000000
  | _ => True

/-! ### While the ids fit -/

structure Inv (s : State) : Prop where
  bound : s.threads.length < 0x100000000
  next : s.ids.id.toNat = s.threads.length + 1
  numbered : ∀ (i : Nat) (th : Thread), s.threads[i]? = some th →
    th.threadId.toNat = i + 1 ∧ th.attr = setid th.threadId
  pool : ∀ id, id ∈ s.ids.threadIdPool ↔
    ∃ (i : Nat) (th : Thread), s.threads[i]? = some th ∧ th.threadId = id ∧ th.stage = .alive

theorem inv_init : Inv init where
  bound := by decide
  next := rfl
  numbered := by simp [init]
  pool := by simp [init, IdContainer.new]

theorem getid_setid {id : UInt64} (small : id.toNat < 0x100000000) : getid (setid id) = id := by
  apply UInt64.toNat_inj.mp
  rw [getid, setid, UInt32.toNat_toUInt64, UInt64.toNat_toUInt32]
  exact Nat.mod_eq_of_lt small

variable {s t : State}

/-- The property holds the whole id. -/
theorem Inv.getid_attr (h : Inv s) {i : Nat} {th : Thread} (hi : s.threads[i]? = some th) :
    getid th.attr = th.threadId := by
  obtain ⟨number, attr⟩ := h.numbered i th hi
  have inside := (List.getElem?_eq_some_iff.mp hi).1
  have bound := h.bound
  rw [attr, getid_setid]
  omega

/-- No two threads have one id. -/
theorem Inv.eq_of_threadId_eq (h : Inv s) {i j : Nat} {th th' : Thread}
    (hi : s.threads[i]? = some th) (hj : s.threads[j]? = some th')
    (same : th.threadId = th'.threadId) : i = j := by
  have left := (h.numbered i th hi).1
  have right := (h.numbered j th' hj).1
  rw [same] at left
  omega

theorem Inv.own (h : Inv s) {i : Nat} {th : Thread} (hi : s.threads[i]? = some th) :
    s.notfree th = true ↔ th.stage = .alive := by
  rw [State.notfree, IdContainer.notfree, h.getid_attr hi, decide_eq_true_iff, h.pool]
  constructor
  · rintro ⟨j, th', hj, same, alive⟩
    obtain rfl := h.eq_of_threadId_eq hj hi same
    obtain rfl := Option.some.inj (hj.symm.trans hi)
    exact alive
  · intro alive
    exact ⟨i, th, hi, rfl, alive⟩

/-- Freeing the id of a thread, for the first or for the second time. -/
theorem Inv.free (h : Inv s) {i : Nat} {th : Thread} (hi : s.threads[i]? = some th)
    (stage : Stage) (gone : stage ≠ .alive) :
    Inv ⟨s.ids.freeid th.threadId, s.threads.set i { th with stage := stage }⟩ := by
  have inside := (List.getElem?_eq_some_iff.mp hi).1
  have here : (s.threads.set i { th with stage := stage })[i]? = some { th with stage := stage } :=
    List.getElem?_set_self inside
  constructor
  · rw [List.length_set]
    exact h.bound
  · rw [List.length_set]
    exact h.next
  · intro j th' hj
    by_cases same : i = j
    · subst same
      obtain rfl := Option.some.inj (here.symm.trans hj)
      exact h.numbered i th hi
    · rw [List.getElem?_set_ne same] at hj
      exact h.numbered j th' hj
  · intro id
    rw [IdContainer.freeid, Finset.mem_erase, h.pool]
    constructor
    · rintro ⟨other, j, th', hj, rfl, alive⟩
      have away : i ≠ j := by
        rintro rfl
        exact other (congrArg Thread.threadId (Option.some.inj (hj.symm.trans hi)))
      exact ⟨j, th', by rw [List.getElem?_set_ne away, hj], rfl, alive⟩
    · rintro ⟨j, th', hj, rfl, alive⟩
      have away : i ≠ j := by
        rintro rfl
        rw [← Option.some.inj (here.symm.trans hj)] at alive
        exact gone alive
      rw [List.getElem?_set_ne away] at hj
      exact ⟨fun same => away (h.eq_of_threadId_eq hi hj same.symm), j, th', hj, rfl, alive⟩

/-- What the two steps of a teardown do. -/
theorem teardown_spec {j : Nat}
    (hs : step s (.freeSubLoop j) = some t ∨ step s (.delete j) = some t) :
    ∃ th stage, s.threads[j]? = some th ∧ stage ≠ .alive ∧
      t = ⟨s.ids.freeid th.threadId, s.threads.set j { th with stage := stage }⟩ := by
  rcases hs with hs | hs
  all_goals
    simp only [step] at hs
    split at hs
    · next th hj =>
        split at hs
        · cases hs
          exact ⟨th, _, hj, by simp, rfl⟩
        · cases hs
    · cases hs

theorem Inv.exact (h : Inv s) : Exact s where
  own := fun _ _ hi => h.own hi
  apart := by
    intro i j th t hi away hs
    obtain ⟨th', stage, hj, gone, rfl⟩ := teardown_spec hs
    have kept : (s.threads.set j { th' with stage := stage })[i]? = some th := by
      rw [List.getElem?_set_ne away, hi]
    rw [Bool.eq_iff_iff, (h.free hj stage gone).own kept, h.own hi]

theorem Inv.step {a : Action} (h : Inv s) (fits : Fits s a) (hs : ThreadId.step s a = some t) :
    Inv t := by
  cases a with
  | create =>
      have fits : s.threads.length + 1 < 0x100000000 := fits
      have last : (s.threads ++ [.new s.ids.id])[s.threads.length]? = some (.new s.ids.id) :=
        List.getElem?_concat_length
      have old : ∀ (i : Nat) (th : Thread), s.threads[i]? = some th →
          (s.threads ++ [.new s.ids.id])[i]? = some th := by
        intro i th hi
        rw [List.getElem?_append_left (List.getElem?_eq_some_iff.mp hi).1, hi]
      have cases_ : ∀ (i : Nat) (th : Thread), (s.threads ++ [.new s.ids.id])[i]? = some th →
          s.threads[i]? = some th ∨ i = s.threads.length ∧ th = .new s.ids.id := by
        intro i th hi
        have inside := (List.getElem?_eq_some_iff.mp hi).1
        rw [List.length_append, List.length_singleton] at inside
        rcases Nat.lt_succ_iff_lt_or_eq.mp inside with before | rfl
        · rw [List.getElem?_append_left before] at hi
          exact .inl hi
        · exact .inr ⟨rfl, Option.some.inj (hi.symm.trans last)⟩
      obtain rfl := Option.some.inj hs
      refine ⟨?_, ?_, fun i th hi => ?_, fun id => ?_⟩
      · rw [List.length_append, List.length_singleton]
        exact fits
      · rw [List.length_append, List.length_singleton, ← h.next]
        have one : (s.ids.id + 1).toNat = (s.ids.id.toNat + 1) % 2 ^ 64 := UInt64.toNat_add _ _
        rw [h.next] at one ⊢
        exact one.trans (Nat.mod_eq_of_lt (by omega))
      · rcases cases_ i th hi with hi | ⟨rfl, rfl⟩
        · exact h.numbered i th hi
        · exact ⟨h.next, rfl⟩
      · simp only [Finset.mem_insert, h.pool]
        constructor
        · rintro (rfl | ⟨i, th, hi, same, alive⟩)
          · exact ⟨_, _, last, rfl, rfl⟩
          · exact ⟨i, th, old i th hi, same, alive⟩
        · rintro ⟨i, th, hi, rfl, alive⟩
          rcases cases_ i th hi with hi | ⟨-, rfl⟩
          · exact .inr ⟨i, th, hi, rfl, alive⟩
          · exact .inl rfl
  | freeSubLoop j =>
      obtain ⟨th, stage, hj, gone, rfl⟩ := teardown_spec (.inl hs)
      exact h.free hj stage gone
  | delete j =>
      obtain ⟨th, stage, hj, gone, rfl⟩ := teardown_spec (.inr hs)
      exact h.free hj stage gone

/-! ### Afterwards -/

/-- The first id with more bits reads as 0, which is in use for no thread. -/
theorem Inv.not_exact (h : Inv s) (full : ¬ s.threads.length + 1 < 0x100000000)
    (hs : ThreadId.step s .create = some t) : ¬ Exact t := by
  intro exact_
  have bound := h.bound
  have next : s.ids.id.toNat = 0x100000000 := by
    rw [h.next]
    omega
  have zero : getid (setid s.ids.id) = 0 := by
    apply UInt64.toNat_inj.mp
    rw [getid, setid, UInt32.toNat_toUInt64, UInt64.toNat_toUInt32, next]
    rfl
  obtain rfl := Option.some.inj hs
  have known := (exact_.own s.threads.length (.new s.ids.id) List.getElem?_concat_length).mpr rfl
  simp only [State.notfree, IdContainer.notfree, Thread.new, zero, Finset.mem_insert,
    decide_eq_true_iff] at known
  rcases known with new | old
  · rw [← new] at next
    cases next
  · obtain ⟨i, th, hi, id, -⟩ := (h.pool 0).mp old
    have number := (h.numbered i th hi).1
    rw [id] at number
    cases number

/-- **Every check of every thread is right, in every history, exactly if fewer than
`2^32 - 1` threads were there before each creation.** -/
theorem notfree_exact_iff (as : List Action) :
    Always step Exact init as ↔ Meets step Fits init as := by
  refine always_iff_meets (I := Inv) (fun _ _ _ h fits hs => h.step fits hs) (fun _ h => h.exact)
    ?_ inv_init as
  intro s a t h full hs
  cases a with
  | create => exact h.not_exact full hs
  | freeSubLoop j | delete j => exact absurd trivial full

/-- Threads that are created and torn down, one after the other. -/
def churn : Nat → List Action
  | 0 => []
  | n + 1 => churn n ++ [.create, .freeSubLoop n, .delete n]

theorem run_churn {n : Nat} (small : n < 0x100000000) :
    ∃ s, run step init (churn n) = some s ∧ Inv s ∧ s.threads.length = n := by
  induction n with
  | zero => exact ⟨init, rfl, inv_init, rfl⟩
  | succ n ih =>
      obtain ⟨s, hrun, inv, rfl⟩ := ih (Nat.lt_of_succ_lt small)
      have created := inv.step (a := .create) small rfl
      have here : (s.threads ++ [.new s.ids.id])[s.threads.length]? = some (.new s.ids.id) :=
        List.getElem?_concat_length
      have freed := created.free here .freed (by simp)
      have last : ((s.threads ++ [Thread.new s.ids.id]).set s.threads.length
          { Thread.new s.ids.id with stage := .freed })[s.threads.length]? =
            some { Thread.new s.ids.id with stage := .freed } :=
        List.getElem?_set_self (List.getElem?_eq_some_iff.mp here).1
      refine ⟨_, ?_, freed.free last .deleted (by simp), by simp⟩
      rw [churn, run_append, hrun]
      simp [run, step, IdContainer.newid, Thread.new]

theorem not_exact_churn {n : Nat} (full : n + 1 = 0x100000000) :
    ¬ Always step Exact init (churn n ++ [.create]) := by
  intro always
  obtain ⟨s, hrun, inv, rfl⟩ := run_churn (n := n) (by omega)
  have none : ¬ s.threads.length + 1 < 0x100000000 := by omega
  exact inv.not_exact none rfl (always.drop hrun rfl).head

/-- The thread with the id `2^32` counts as closed from the beginning. -/
theorem new_thread_closed : ¬ Always step Exact init (churn 0xFFFFFFFF ++ [.create]) :=
  not_exact_churn rfl

end ThreadJs.Registry.ThreadId
