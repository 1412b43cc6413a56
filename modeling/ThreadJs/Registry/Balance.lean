import ThreadJs.Lib.Machine
import ThreadJs.Registry.ObjectMap

/-!
The entries of `object_container` over the life of the threads.

Three objects are put for each thread: the two `RecvEventData`, and `main_event` for
the callback of `del_event`. `free_recv_event_from` deletes its object before it takes
the entry out, the entry of `main_event` is never taken out, and the handler of
`do_script` takes out nothing. So the container is balanced exactly in the states in
which no thread is between `delete` and `rm` and none has completed its teardown, and
along a run exactly as long as no teardown deletes and no set-up fails
(`balanced_iff_untorn`). What stays behind is said by `left_behind`.
-/

namespace ThreadJs.Registry

open Machine

/-- The objects of the thread with the given number. -/
inductive Obj where
  | mainRecv (thread : Nat)
  /-- The handle `main_event`. -/
  | mainEvent (thread : Nat)
  | subRecv (thread : Nat)
  deriving DecidableEq

def Obj.owner : Obj → Nat
  | .mainRecv i | .mainEvent i | .subRecv i => i

/-- The sub thread in `do_script`. -/
inductive SubPc where
  | notStarted
  | starting
  /-- In set-up, after `create_uv_async`. -/
  | bound
  | running
  /-- In `free_recv_event_from(sub_event)`, between `delete` and `rm`. -/
  | deleting
  | removed
  /-- `del_event` is signalled. -/
  | finished
  /-- Ended by the handler; the flag says whether `sub_event` was there. -/
  | failed (bound : Bool)
  deriving DecidableEq

/-- The main thread in `j_create` and `recv_delete_event`. -/
inductive MainPc where
  /-- In `j_create`, before `del_event` is made. -/
  | creating
  | waiting
  /-- In `free_recv_event_from(main_event)`, between `delete` and `rm`. -/
  | deleting
  /-- Both handles are to be closed. -/
  | closing
  /-- The memory of the handles is freed. -/
  | done
  deriving DecidableEq

structure Thread where
  sub : SubPc
  main : MainPc
  /-- `main_event->data`. -/
  mainKey : Nat
  /-- `del_event->data`. -/
  delKey : Nat
  /-- `sub_event->data`. -/
  subKey : Nat
  deriving DecidableEq

structure State where
  container : ObjectMap Obj
  threads : List Thread
  deleted : List Obj

def init : State := ⟨.empty, [], []⟩

/-- The steps of `j_create`, `do_script` and `recv_delete_event` that have to do with
the container, for the thread with the given number. -/
inductive Action where
  /-- `create_uv_async` of `j_create`. -/
  | create
  /-- The rest of `j_create`: `del_event` is made and the sub thread started. -/
  | createDel (i : Nat)
  /-- `create_uv_async` of `do_script`. -/
  | bind (i : Nat)
  | start (i : Nat)
  /-- Set-up throws, or the code does not compile. -/
  | fail (i : Nat)
  | subDelete (i : Nat)
  | subRemove (i : Nat)
  | subSignal (i : Nat)
  | mainDelete (i : Nat)
  | mainRemove (i : Nat)
  /-- The callbacks of `uv_close`. -/
  | mainClosed (i : Nat)
  deriving DecidableEq

def State.set (s : State) (i : Nat) (th : Thread) : State :=
  { s with threads := s.threads.set i th }

def State.put (s : State) (o : Obj) : State := { s with container := s.container.put o }

def State.rm (s : State) (key : Nat) : State := { s with container := s.container.rm key }

/-- `delete`. -/
def State.del (s : State) (o : Obj) : State := { s with deleted := o :: s.deleted }

/-- The step of one thread that is there already. -/
def threadStep (s : State) (i : Nat) (th : Thread) : Action → Option State
  | .create => none
  | .createDel _ =>
      if th.main = .creating then
        some ((s.put (.mainEvent i)).set i
          { th with main := .waiting, sub := .starting, delKey := s.container.objectId + 1 })
      else none
  | .bind _ =>
      if th.sub = .starting then
        some ((s.put (.subRecv i)).set i
          { th with sub := .bound, subKey := s.container.objectId + 1 })
      else none
  | .start _ => if th.sub = .bound then some (s.set i { th with sub := .running }) else none
  | .fail _ =>
      match th.sub with
      | .starting => some (s.set i { th with sub := .failed false })
      | .bound => some (s.set i { th with sub := .failed true })
      | _ => none
  | .subDelete _ =>
      if th.sub = .running then
        match s.container.get th.subKey with
        | some red => some ((s.del red).set i { th with sub := .deleting })
        | none => some (s.set i { th with sub := .removed })
      else none
  | .subRemove _ =>
      if th.sub = .deleting then
        some ((s.rm th.subKey).set i { th with sub := .removed, subKey := 0 })
      else none
  | .subSignal _ => if th.sub = .removed then some (s.set i { th with sub := .finished }) else none
  | .mainDelete _ =>
      if th.main = .waiting ∧ th.sub = .finished then
        match s.container.get th.delKey with
        | some _ =>
            match s.container.get th.mainKey with
            | some red => some ((s.del red).set i { th with main := .deleting })
            | none => some (s.set i { th with main := .closing })
        | none => some (s.set i { th with main := .done })
      else none
  | .mainRemove _ =>
      if th.main = .deleting then
        some ((s.rm th.mainKey).set i { th with main := .closing, mainKey := 0 })
      else none
  | .mainClosed _ =>
      if th.main = .closing then some ((s.del (.mainEvent i)).set i { th with main := .done })
      else none

/-- The thread an action is about. -/
def Action.thread : Action → Nat
  | .create => 0
  | .createDel i | .bind i | .start i | .fail i | .subDelete i | .subRemove i | .subSignal i
  | .mainDelete i | .mainRemove i | .mainClosed i => i

def step (s : State) (a : Action) : Option State :=
  match a with
  | .create =>
      some { s.put (.mainRecv s.threads.length) with
        threads := s.threads ++ [⟨.notStarted, .creating, s.container.objectId + 1, 0, 0⟩] }
  | a => (s.threads[a.thread]?).bind fun th => threadStep s a.thread th a

/-! ### Balance -/

/-- Nothing is left to be done for the thread: the main side has closed its handles, or
the handler has ended the thread and `del_event` will not be signalled. -/
def Thread.completed (th : Thread) : Bool :=
  th.main = .done || th.sub = .failed false || th.sub = .failed true

structure Balanced (s : State) : Prop where
  /-- An id that is resolved designates an object that is not deleted. -/
  resolves : ∀ id o, s.container.get id = some o → o ∉ s.deleted
  /-- No entry stays behind when a thread has completed its teardown. -/
  cleared : ∀ (i : Nat) (th : Thread), s.threads[i]? = some th → th.completed = true →
    ∀ e ∈ s.container.pool, e.2.owner ≠ i

/-- Neither side is between `delete` and `rm`, and teardown is not complete. -/
structure Thread.Settled (th : Thread) : Prop where
  sub : th.sub ≠ .deleting
  main : th.main ≠ .deleting
  going : th.completed = false

/-- No teardown deletes an object, and no set-up fails. -/
def Untorn : Action → Prop
  | .fail _ | .subDelete _ | .mainDelete _ => False
  | _ => True

/-! ### What is in the container -/

def MainPc.hasRecv : MainPc → Bool
  | .creating | .waiting | .deleting => true
  | .closing | .done => false

def SubPc.hasRecv : SubPc → Bool
  | .bound | .running | .deleting | .failed true => true
  | _ => false

/-- The entries of a thread, by where its two sides are. -/
def Thread.Holds (th : Thread) (id : Nat) : Obj → Prop
  | .mainRecv _ => id = th.mainKey ∧ th.main.hasRecv = true
  | .mainEvent _ => id = th.delKey ∧ th.main ≠ .creating
  | .subRecv _ => id = th.subKey ∧ th.sub.hasRecv = true

/-- The objects of a thread that are deleted. -/
def Thread.Gone (th : Thread) : Obj → Prop
  | .mainRecv _ => th.main = .deleting ∨ th.main = .closing ∨ th.main = .done
  | .mainEvent _ => th.main = .done
  | .subRecv _ => th.sub = .deleting ∨ th.sub = .removed ∨ th.sub = .finished

/-- The two sides take turns. -/
structure Thread.Ordered (th : Thread) : Prop where
  creating : th.main = .creating → th.sub = .notStarted
  teardown : th.main = .deleting ∨ th.main = .closing ∨ th.main = .done → th.sub = .finished

structure Inv (s : State) : Prop where
  holds : ∀ (i : Nat) (th : Thread), s.threads[i]? = some th → ∀ id o, o.owner = i →
    ((id, o) ∈ s.container.pool ↔ th.Holds id o)
  gone : ∀ (i : Nat) (th : Thread), s.threads[i]? = some th → ∀ o,
    o.owner = i → (o ∈ s.deleted ↔ th.Gone o)
  owned : ∀ e ∈ s.container.pool, e.2.owner < s.threads.length
  known : ∀ o ∈ s.deleted, o.owner < s.threads.length
  ordered : ∀ (i : Nat) (th : Thread), s.threads[i]? = some th → th.Ordered

theorem inv_init : Inv init where
  holds := nofun
  gone := nofun
  owned := nofun
  known := nofun
  ordered := nofun

/-- What a thread holds is found under its id. -/
theorem Inv.found {s : State} {i id : Nat} {th : Thread} {o : Obj} (h : Inv s)
    (hi : s.threads[i]? = some th) (owner : o.owner = i) (holds : th.Holds id o) :
    s.container.get id = some o :=
  ObjectMap.get_eq_some.mpr ((h.holds i th hi id o owner).mpr holds)

theorem hasRecv_and_gone_main {th : Thread} : th.main.hasRecv = true ∧
    (th.main = .deleting ∨ th.main = .closing ∨ th.main = .done) ↔ th.main = .deleting := by
  cases th.main <;> simp [MainPc.hasRecv]

theorem hasRecv_and_gone_sub {th : Thread} : th.sub.hasRecv = true ∧
    (th.sub = .deleting ∨ th.sub = .removed ∨ th.sub = .finished) ↔ th.sub = .deleting := by
  cases th.sub <;> simp [SubPc.hasRecv]

theorem completed_iff {th : Thread} :
    th.completed = true ↔ th.main = .done ∨ th.sub = .failed false ∨ th.sub = .failed true := by
  simp [Thread.completed, or_assoc]

/-- A thread that has completed its teardown has its `del_event`. -/
theorem Thread.Ordered.created {th : Thread} (h : th.Ordered) (done : th.completed = true) :
    th.main ≠ .creating := by
  intro creating
  have notStarted := h.creating creating
  rcases completed_iff.mp done with main | sub | sub
  · exact nomatch creating.symm.trans main
  · exact nomatch notStarted.symm.trans sub
  · exact nomatch notStarted.symm.trans sub

/-- **The container is balanced where every thread is settled**, and only there. -/
theorem Inv.balanced_iff {s : State} (h : Inv s) :
    Balanced s ↔ ∀ (i : Nat) (th : Thread), s.threads[i]? = some th → th.Settled := by
  constructor
  · intro balanced i th hi
    -- An entry of a deleted object would be resolved.
    have unresolved : ∀ id o, o.owner = i → th.Holds id o → ¬ th.Gone o := by
      intro id o owner holds gone
      exact balanced.resolves id o (h.found hi owner holds) ((h.gone i th hi o owner).mpr gone)
    refine ⟨fun sub => ?_, fun main => ?_, ?_⟩
    · exact unresolved th.subKey (.subRecv i) rfl ⟨rfl, by rw [sub]; rfl⟩ (.inl sub)
    · exact unresolved th.mainKey (.mainRecv i) rfl ⟨rfl, by rw [main]; rfl⟩ (.inl main)
    · by_contra done
      have done : th.completed = true := Bool.not_eq_false _ ▸ done
      have entry := (h.holds i th hi th.delKey (.mainEvent i) rfl).mpr
        ⟨rfl, (h.ordered i th hi).created done⟩
      exact balanced.cleared i th hi done _ entry rfl
  · intro settled
    refine ⟨fun id o resolved deleted => ?_, fun i th hi done => ?_⟩
    · have entry := ObjectMap.get_eq_some.mp resolved
      obtain ⟨th, hi⟩ : ∃ th, s.threads[o.owner]? = some th :=
        ⟨_, List.getElem?_eq_getElem (h.owned _ entry)⟩
      have holds := (h.holds _ th hi id o rfl).mp entry
      have gone := (h.gone _ th hi o rfl).mp deleted
      have settled := settled _ th hi
      cases o with
      | mainRecv i => exact settled.main (hasRecv_and_gone_main.mp ⟨holds.2, gone⟩)
      | mainEvent i =>
          have done : th.completed = true := completed_iff.mpr (.inl gone)
          exact absurd (settled.going.symm.trans done) nofun
      | subRecv i => exact settled.sub (hasRecv_and_gone_sub.mp ⟨holds.2, gone⟩)
    · exact absurd ((settled i th hi).going.symm.trans done) nofun

/-! ### Steps -/

/-- A step of thread `i` that touches only its own entries and objects. -/
theorem Inv.update {s : State} (h : Inv s) {i : Nat} {th th' : Thread}
    (hi : s.threads[i]? = some th) {container : ObjectMap Obj} {deleted : List Obj}
    (others : ∀ id o, o.owner ≠ i → ((id, o) ∈ container.pool ↔ (id, o) ∈ s.container.pool))
    (holds : ∀ id o, o.owner = i → ((id, o) ∈ container.pool ↔ th'.Holds id o))
    (kept : ∀ o, o.owner ≠ i → (o ∈ deleted ↔ o ∈ s.deleted))
    (gone : ∀ o, o.owner = i → (o ∈ deleted ↔ th'.Gone o)) (ordered : th'.Ordered) :
    Inv ⟨container, s.threads.set i th', deleted⟩ := by
  have bound : i < s.threads.length := (List.getElem?_eq_some_iff.mp hi).1
  have same : (s.threads.set i th')[i]? = some th' := by simp [bound]
  have other : ∀ j, j ≠ i → (s.threads.set i th')[j]? = s.threads[j]? :=
    fun j hj => List.getElem?_set_ne (Ne.symm hj)
  refine ⟨fun j u hu id o owner => ?_, fun j u hu o owner => ?_, fun e he => ?_, fun o ho => ?_,
    fun j u hu => ?_⟩
  · by_cases hj : j = i
    · subst hj
      obtain rfl := Option.some.inj (same.symm.trans hu)
      exact holds id o owner
    · rw [other j hj] at hu
      exact (others id o (owner ▸ hj)).trans (h.holds j u hu id o owner)
  · by_cases hj : j = i
    · subst hj
      obtain rfl := Option.some.inj (same.symm.trans hu)
      exact gone o owner
    · rw [other j hj] at hu
      exact (kept o (owner ▸ hj)).trans (h.gone j u hu o owner)
  · rw [List.length_set]
    by_cases owner : e.2.owner = i
    · exact owner ▸ bound
    · exact h.owned e ((others e.1 e.2 owner).mp he)
  · rw [List.length_set]
    by_cases owner : o.owner = i
    · exact owner ▸ bound
    · exact h.known o ((kept o owner).mp ho)
  · by_cases hj : j = i
    · subst hj
      obtain rfl := Option.some.inj (same.symm.trans hu)
      exact ordered
    · rw [other j hj] at hu
      exact h.ordered j u hu

section Own

variable {s : State} {i : Nat} {th th' : Thread}

/-- A step that leaves the container and the objects alone. -/
theorem Inv.set (h : Inv s) (hi : s.threads[i]? = some th)
    (holds : ∀ id o, th'.Holds id o ↔ th.Holds id o) (gone : ∀ o, th'.Gone o ↔ th.Gone o)
    (ordered : th'.Ordered) : Inv (s.set i th') := by
  refine h.update hi (fun _ _ _ => Iff.rfl) (fun id o owner => ?_) (fun _ _ => Iff.rfl)
    (fun o owner => ?_) ordered
  · rw [h.holds i th hi id o owner, holds]
  · rw [h.gone i th hi o owner, gone]

theorem Inv.put (h : Inv s) (hi : s.threads[i]? = some th) {new : Obj} (own : new.owner = i)
    (holds : ∀ id o, o.owner = i →
      (th'.Holds id o ↔ id = s.container.objectId + 1 ∧ o = new ∨ th.Holds id o))
    (gone : ∀ o, th'.Gone o ↔ th.Gone o) (ordered : th'.Ordered) : Inv ((s.put new).set i th') := by
  refine h.update hi (fun id o other => ?_) (fun id o owner => ?_) (fun _ _ => Iff.rfl)
    (fun o owner => ?_) ordered
  · rw [State.put, ObjectMap.mem_put, Prod.mk.injEq, or_iff_right]
    rintro ⟨-, rfl⟩
    exact other own
  · rw [State.put, ObjectMap.mem_put, Prod.mk.injEq, h.holds i th hi id o owner, holds id o owner]
  · change o ∈ s.deleted ↔ _
    rw [h.gone i th hi o owner, gone]

theorem Inv.del (h : Inv s) (hi : s.threads[i]? = some th) {old : Obj} (own : old.owner = i)
    (holds : ∀ id o, th'.Holds id o ↔ th.Holds id o)
    (gone : ∀ o, o.owner = i → (th'.Gone o ↔ o = old ∨ th.Gone o)) (ordered : th'.Ordered) :
    Inv ((s.del old).set i th') := by
  refine h.update hi (fun _ _ _ => Iff.rfl) (fun id o owner => ?_) (fun o other => ?_)
    (fun o owner => ?_) ordered
  · change (id, o) ∈ s.container.pool ↔ _
    rw [h.holds i th hi id o owner, holds]
  · rw [State.del, List.mem_cons, or_iff_right]
    rintro rfl
    exact other own
  · rw [State.del, List.mem_cons, h.gone i th hi o owner, gone o owner]

/-- An object has one id at most. -/
theorem Thread.Holds.id_eq {id id' : Nat} {o : Obj} (h : th.Holds id o) (h' : th.Holds id' o) :
    id = id' := by
  cases o <;> exact h.1.trans h'.1.symm

/-- Taking out an entry takes out no other. -/
theorem Inv.rm (h : Inv s) (hi : s.threads[i]? = some th) {key : Nat} {old : Obj}
    (own : old.owner = i) (entry : th.Holds key old)
    (holds : ∀ id o, o.owner = i → (th'.Holds id o ↔ th.Holds id o ∧ o ≠ old))
    (gone : ∀ o, th'.Gone o ↔ th.Gone o) (ordered : th'.Ordered) : Inv ((s.rm key).set i th') := by
  have here := (h.holds i th hi key old own).mpr entry
  have only : ∀ id o, (id, o) ∈ s.container.pool → id = key → o = old := fun id o known same =>
    (Prod.mk.inj (ObjectMap.eq_of_id_eq known here same)).2
  refine h.update hi (fun id o other => ?_) (fun id o owner => ?_) (fun _ _ => Iff.rfl)
    (fun o owner => ?_) ordered
  · rw [State.rm, ObjectMap.mem_rm, and_iff_left_iff_imp]
    exact fun known same => other (only id o known same ▸ own)
  · rw [State.rm, ObjectMap.mem_rm, holds id o owner, ← h.holds i th hi id o owner]
    refine and_congr_right fun known => not_congr ⟨only id o known, ?_⟩
    rintro rfl
    exact ((h.holds i th hi id o owner).mp known).id_eq entry
  · change o ∈ s.deleted ↔ _
    rw [h.gone i th hi o owner, gone]

/-- Only the sub thread moves between its start and the end of its teardown. -/
theorem Thread.Ordered.sub (ordered : th.Ordered) (started : th.sub ≠ .notStarted)
    (going : th.sub ≠ .finished) : th.main = .waiting := by
  cases hmain : th.main with
  | waiting => rfl
  | creating => exact absurd (ordered.creating hmain) started
  | deleting => exact absurd (ordered.teardown (.inl hmain)) going
  | closing => exact absurd (ordered.teardown (.inr (.inl hmain))) going
  | done => exact absurd (ordered.teardown (.inr (.inr hmain))) going

theorem Thread.Ordered.of_waiting (waiting : th.main = .waiting) : th.Ordered :=
  ⟨by simp [waiting], by simp [waiting]⟩

/-- A step of the sub thread that has nothing to do with its `RecvEventData`. -/
theorem Inv.setSub (h : Inv s) (hi : s.threads[i]? = some th) {sub : SubPc}
    (waiting : th.main = .waiting) (recv : sub.hasRecv = th.sub.hasRecv)
    (gone : (sub = .deleting ∨ sub = .removed ∨ sub = .finished) ↔
      (th.sub = .deleting ∨ th.sub = .removed ∨ th.sub = .finished)) :
    Inv (s.set i { th with sub := sub }) := by
  refine h.set hi (fun id o => ?_) (fun o => ?_) (.of_waiting waiting)
  · cases o with
    | mainRecv | mainEvent => rfl
    | subRecv => rw [Thread.Holds, Thread.Holds, recv]
  · cases o with
    | mainRecv | mainEvent => rfl
    | subRecv => exact gone

end Own

/-- `j_create` adds a thread. -/
theorem Inv.create {s t : State} (h : Inv s) (hs : step s .create = some t) : Inv t := by
  cases hs
  set new : Thread := ⟨.notStarted, .creating, s.container.objectId + 1, 0, 0⟩
  have last : (s.threads ++ [new])[s.threads.length]? = some new := by simp
  have before : ∀ i, i ≠ s.threads.length → ∀ th, (s.threads ++ [new])[i]? = some th →
      s.threads[i]? = some th := by
    intro i hi th hth
    rwa [List.getElem?_append_left] at hth
    have bound := (List.getElem?_eq_some_iff.mp hth).1
    rw [List.length_append, List.length_singleton] at bound
    omega
  -- The new thread owns nothing yet.
  have fresh : ∀ id o, o.owner = s.threads.length → (id, o) ∉ s.container.pool :=
    fun id o owner entry => absurd (h.owned _ entry) (owner ▸ Nat.lt_irrefl _)
  have alive : ∀ o : Obj, o.owner = s.threads.length → o ∉ s.deleted :=
    fun o owner deleted => absurd (h.known _ deleted) (owner ▸ Nat.lt_irrefl _)
  refine ⟨fun i th hi id o owner => ?_, fun i th hi o owner => ?_, fun e he => ?_, fun o ho => ?_,
    fun i th hi => ?_⟩
  · change (id, o) ∈ (s.container.put _).pool ↔ _
    rw [ObjectMap.mem_put, Prod.mk.injEq]
    by_cases hlast : i = s.threads.length
    · subst hlast
      obtain rfl := Option.some.inj (last.symm.trans hi)
      have none := fresh id o owner
      cases o <;> simp_all [Thread.Holds, new, MainPc.hasRecv, SubPc.hasRecv, Obj.owner]
    · have old := before i hlast th hi
      rw [h.holds i th old id o owner, or_iff_right]
      rintro ⟨-, rfl⟩
      exact hlast owner.symm
  · change o ∈ s.deleted ↔ _
    by_cases hlast : i = s.threads.length
    · subst hlast
      obtain rfl := Option.some.inj (last.symm.trans hi)
      refine iff_of_false (alive o owner) ?_
      cases o <;> simp [Thread.Gone, new]
    · exact h.gone i th (before i hlast th hi) o owner
  · rw [List.length_append]
    rcases ObjectMap.mem_put.mp he with rfl | he
    · exact Nat.lt_succ_self _
    · exact Nat.lt_succ_of_lt (h.owned e he)
  · rw [List.length_append]
    exact Nat.lt_succ_of_lt (h.known o ho)
  · by_cases hlast : i = s.threads.length
    · subst hlast
      obtain rfl := Option.some.inj (last.symm.trans hi)
      exact ⟨fun _ => rfl, by simp [new]⟩
    · exact h.ordered i th (before i hlast th hi)

/-- A step of one thread. -/
theorem Inv.threadStep {s t : State} {a : Action} {i : Nat} {th : Thread} (h : Inv s)
    (hi : s.threads[i]? = some th) (hs : threadStep s i th a = some t) : Inv t := by
  have ordered := h.ordered i th hi
  cases a with
  | create => cases hs
  | createDel _ =>
      simp only [Registry.threadStep, Option.ite_none_right_eq_some] at hs
      obtain ⟨creating, hs⟩ := hs
      cases hs
      have notStarted := ordered.creating creating
      refine h.put hi rfl (fun id o owner => ?_) (fun o => ?_) ⟨nofun, by simp⟩
      · cases o <;> simp_all [Thread.Holds, MainPc.hasRecv, SubPc.hasRecv, Obj.owner]
      · cases o <;> simp [Thread.Gone, creating, notStarted]
  | bind _ =>
      simp only [Registry.threadStep, Option.ite_none_right_eq_some] at hs
      obtain ⟨starting, hs⟩ := hs
      cases hs
      have waiting := ordered.sub (by rw [starting]; nofun) (by rw [starting]; nofun)
      refine h.put hi rfl (fun id o owner => ?_) (fun o => ?_) (.of_waiting waiting)
      · cases o <;> simp_all [Thread.Holds, SubPc.hasRecv, Obj.owner]
      · cases o <;> simp [Thread.Gone, starting]
  | start _ =>
      simp only [Registry.threadStep, Option.ite_none_right_eq_some] at hs
      obtain ⟨bound, hs⟩ := hs
      cases hs
      have waiting := ordered.sub (by rw [bound]; nofun) (by rw [bound]; nofun)
      exact h.setSub hi waiting (by rw [bound]; rfl) (by simp [bound])
  | fail _ =>
      simp only [Registry.threadStep] at hs
      split at hs
      · next starting =>
          cases hs
          have waiting := ordered.sub (by rw [starting]; nofun) (by rw [starting]; nofun)
          exact h.setSub hi waiting (by rw [starting]; rfl) (by simp [starting])
      · next bound =>
          cases hs
          have waiting := ordered.sub (by rw [bound]; nofun) (by rw [bound]; nofun)
          exact h.setSub hi waiting (by rw [bound]; rfl) (by simp [bound])
      · cases hs
  | subDelete _ =>
      simp only [Registry.threadStep, Option.ite_none_right_eq_some] at hs
      obtain ⟨running, hs⟩ := hs
      have waiting := ordered.sub (by rw [running]; nofun) (by rw [running]; nofun)
      have found : s.container.get th.subKey = some (.subRecv i) :=
        h.found hi rfl ⟨rfl, by rw [running]; rfl⟩
      simp only [found] at hs
      cases hs
      refine h.del hi rfl (fun id o => ?_) (fun o owner => ?_) (.of_waiting waiting)
      · cases o <;> simp [Thread.Holds, SubPc.hasRecv, running]
      · cases o <;> simp_all [Thread.Gone, Obj.owner]
  | subRemove _ =>
      simp only [Registry.threadStep, Option.ite_none_right_eq_some] at hs
      obtain ⟨deleting, hs⟩ := hs
      cases hs
      have waiting := ordered.sub (by rw [deleting]; nofun) (by rw [deleting]; nofun)
      have entry : th.Holds th.subKey (.subRecv i) := ⟨rfl, by rw [deleting]; rfl⟩
      refine h.rm hi rfl entry (fun id o owner => ?_) (fun o => ?_) (.of_waiting waiting)
      · cases o <;> simp_all [Thread.Holds, SubPc.hasRecv, Obj.owner]
      · cases o <;> simp [Thread.Gone, deleting]
  | subSignal _ =>
      simp only [Registry.threadStep, Option.ite_none_right_eq_some] at hs
      obtain ⟨removed, hs⟩ := hs
      cases hs
      have waiting := ordered.sub (by rw [removed]; nofun) (by rw [removed]; nofun)
      exact h.setSub hi waiting (by rw [removed]; rfl) (by simp [removed])
  | mainDelete _ =>
      simp only [Registry.threadStep, Option.ite_none_right_eq_some] at hs
      obtain ⟨⟨waiting, finished⟩, hs⟩ := hs
      have event : s.container.get th.delKey = some (.mainEvent i) :=
        h.found hi rfl ⟨rfl, by rw [waiting]; nofun⟩
      have found : s.container.get th.mainKey = some (.mainRecv i) :=
        h.found hi rfl ⟨rfl, by rw [waiting]; rfl⟩
      simp only [event, found] at hs
      cases hs
      refine h.del hi rfl (fun id o => ?_) (fun o owner => ?_) ⟨nofun, fun _ => finished⟩
      · cases o <;> simp [Thread.Holds, MainPc.hasRecv, waiting]
      · cases o <;> simp_all [Thread.Gone, Obj.owner]
  | mainRemove _ =>
      simp only [Registry.threadStep, Option.ite_none_right_eq_some] at hs
      obtain ⟨deleting, hs⟩ := hs
      cases hs
      have finished := ordered.teardown (.inl deleting)
      have entry : th.Holds th.mainKey (.mainRecv i) := ⟨rfl, by rw [deleting]; rfl⟩
      refine h.rm hi rfl entry (fun id o owner => ?_) (fun o => ?_) ⟨nofun, fun _ => finished⟩
      · cases o <;> simp_all [Thread.Holds, MainPc.hasRecv, Obj.owner]
      · cases o <;> simp [Thread.Gone, deleting]
  | mainClosed _ =>
      simp only [Registry.threadStep, Option.ite_none_right_eq_some] at hs
      obtain ⟨closing, hs⟩ := hs
      cases hs
      have finished := ordered.teardown (.inr (.inl closing))
      refine h.del hi rfl (fun id o => ?_) (fun o owner => ?_) ⟨nofun, fun _ => finished⟩
      · cases o <;> simp [Thread.Holds, MainPc.hasRecv, closing]
      · cases o <;> simp_all [Thread.Gone, Obj.owner]

/-- A step is the creation of a thread or the step of one thread. -/
theorem step_cases {s t : State} {a : Action} (hs : step s a = some t) :
    a = .create ∨ ∃ th, s.threads[a.thread]? = some th ∧ threadStep s a.thread th a = some t := by
  cases a with
  | create => exact .inl rfl
  | _ => exact .inr (Option.bind_eq_some_iff.mp hs)

theorem Inv.step {s t : State} {a : Action} (h : Inv s) (hs : Registry.step s a = some t) :
    Inv t := by
  rcases step_cases hs with rfl | ⟨th, hi, hs⟩
  · exact h.create hs
  · exact h.threadStep hi hs

/-! ### Runs -/

/-- Teardown has not begun for the thread. -/
structure Thread.Untorn (th : Thread) : Prop where
  sub : th.sub = .notStarted ∨ th.sub = .starting ∨ th.sub = .bound ∨ th.sub = .running
  main : th.main = .creating ∨ th.main = .waiting

theorem Thread.Untorn.settled {th : Thread} (h : th.Untorn) : th.Settled := by
  obtain ⟨sub, main⟩ := h
  rcases sub with sub | sub | sub | sub <;> rcases main with main | main <;>
    exact ⟨by simp [sub], by simp [main], by simp [Thread.completed, sub, main]⟩

theorem untorn_threadStep {s t : State} {a : Action} {i : Nat} {th : Thread} (h : th.Untorn)
    (hc : Untorn a) (hs : threadStep s i th a = some t) :
    ∃ th' : Thread, th'.Untorn ∧ t.threads = s.threads.set i th' := by
  obtain ⟨sub, main⟩ := h
  cases a <;> simp only [threadStep, Option.ite_none_right_eq_some] at hs
  case create => cases hs
  case fail | subDelete | mainDelete => exact hc.elim
  case createDel =>
    obtain ⟨-, hs⟩ := hs
    cases hs
    refine ⟨_, ?_, rfl⟩
    exact ⟨.inr (.inl rfl), .inr rfl⟩
  case bind =>
    obtain ⟨-, hs⟩ := hs
    cases hs
    refine ⟨_, ?_, rfl⟩
    exact ⟨.inr (.inr (.inl rfl)), main⟩
  case start =>
    obtain ⟨-, hs⟩ := hs
    cases hs
    refine ⟨_, ?_, rfl⟩
    exact ⟨.inr (.inr (.inr rfl)), main⟩
  case subRemove | subSignal =>
    obtain ⟨hsub, -⟩ := hs
    simp [hsub] at sub
  case mainRemove | mainClosed =>
    obtain ⟨hmain, -⟩ := hs
    simp [hmain] at main

/-- Every thread of the state is before its teardown. -/
def AllUntorn (s : State) : Prop := ∀ (i : Nat) (th : Thread), s.threads[i]? = some th → th.Untorn

theorem AllUntorn.step {s t : State} {a : Action} (h : AllUntorn s) (hc : Untorn a)
    (hs : step s a = some t) : AllUntorn t := by
  rcases step_cases hs with rfl | ⟨th, hi, hs⟩
  · cases hs
    intro i th hth
    rcases List.getElem?_eq_some_iff.mp hth with ⟨bound, rfl⟩
    rcases List.mem_append.mp (List.getElem_mem bound) with old | new
    · obtain ⟨j, hj⟩ := List.mem_iff_getElem?.mp old
      exact h j _ hj
    · rw [List.mem_singleton.mp new]
      exact ⟨.inl rfl, .inl rfl⟩
  · obtain ⟨th', untorn, threads⟩ := untorn_threadStep (h _ th hi) hc hs
    intro j u hu
    rw [threads] at hu
    by_cases hj : j = a.thread
    · subst hj
      have bound := (List.getElem?_eq_some_iff.mp hi).1
      rw [List.getElem?_set_self bound] at hu
      exact Option.some.inj hu ▸ untorn
    · rw [List.getElem?_set_ne (Ne.symm hj)] at hu
      exact h j u hu

/-- The first step of teardown unsettles its thread. -/
theorem unsettled_of_torn {s t : State} {a : Action} (h : Inv s) (untorn : AllUntorn s)
    (hc : ¬ Untorn a) (hs : step s a = some t) :
    ∃ th', t.threads[a.thread]? = some th' ∧ ¬ th'.Settled := by
  rcases step_cases hs with rfl | ⟨th, hi, hs⟩
  · exact absurd trivial hc
  have bound := (List.getElem?_eq_some_iff.mp hi).1
  have placed : ∀ (u : State) (th' : Thread), u.threads = s.threads →
      (u.set a.thread th').threads[a.thread]? = some th' := by
    intro u th' same
    rw [State.set, same, List.getElem?_set_self bound]
  cases a with
  | fail i =>
      simp only [threadStep] at hs
      split at hs
      · cases hs
        refine ⟨_, placed s _ rfl, fun settled => ?_⟩
        exact absurd (settled.going.symm.trans (completed_iff.mpr (.inr (.inl rfl)))) nofun
      · cases hs
        refine ⟨_, placed s _ rfl, fun settled => ?_⟩
        exact absurd (settled.going.symm.trans (completed_iff.mpr (.inr (.inr rfl)))) nofun
      · cases hs
  | subDelete i =>
      simp only [threadStep, Option.ite_none_right_eq_some] at hs
      obtain ⟨running, hs⟩ := hs
      have found : s.container.get th.subKey = some (.subRecv i) :=
        h.found hi rfl ⟨rfl, by rw [running]; rfl⟩
      simp only [found] at hs
      cases hs
      exact ⟨_, placed (s.del _) _ rfl, fun settled => settled.sub rfl⟩
  | mainDelete i =>
      simp only [threadStep, Option.ite_none_right_eq_some] at hs
      obtain ⟨⟨-, finished⟩, -⟩ := hs
      have sub := (untorn i th hi).sub
      simp [finished] at sub
  | _ => exact absurd trivial hc

/-- **The registry is balanced**, along a run, if and only if no teardown of the run
deletes an object and no set-up fails. Among the states of any run it is balanced
exactly where no thread is between `delete` and `rm` or has completed its teardown. -/
theorem balanced_iff_untorn (as : List Action) :
    (Always step Balanced init as ↔ Meets step (fun _ a => Untorn a) init as) ∧
      Always step (fun s => Balanced s ↔ ∀ th ∈ s.threads, th.Settled) init as := by
  have runs : Always step Inv init as :=
    Always.of_inductive (fun _ _ _ h hs => h.step hs) inv_init as
  constructor
  · refine always_iff_meets (I := fun s => Inv s ∧ AllUntorn s) ?_ ?_ ?_ ⟨inv_init, nofun⟩ as
    · exact fun s a t h hc hs => ⟨h.1.step hs, h.2.step hc hs⟩
    · exact fun s h => h.1.balanced_iff.mpr fun i th hi => (h.2 i th hi).settled
    · intro s a t h hc hs balanced
      obtain ⟨th, hi, unsettled⟩ := unsettled_of_torn h.1 h.2 hc hs
      exact unsettled ((h.1.step hs).balanced_iff.mp balanced _ th hi)
  · refine runs.imp fun s h => h.balanced_iff.trans ⟨fun all th mem => ?_, fun all i th hi => ?_⟩
    · obtain ⟨i, hi⟩ := List.mem_iff_getElem?.mp mem
      exact all i th hi
    · exact all th (List.mem_iff_getElem?.mpr ⟨i, hi⟩)

/-- What a thread that has completed its teardown leaves in the container: the entry of
`main_event`, whose handle is freed, and after a failure the entries of both sides. -/
theorem left_behind (as : List Action) :
    Always step (fun s => ∀ (i : Nat) (th : Thread), s.threads[i]? = some th → th.completed = true →
      ∀ id o, o.owner = i → ((id, o) ∈ s.container.pool ↔
        id = th.delKey ∧ o = .mainEvent i ∨
        th.sub = .failed false ∧ id = th.mainKey ∧ o = .mainRecv i ∨
        th.sub = .failed true ∧ (id = th.mainKey ∧ o = .mainRecv i ∨
          id = th.subKey ∧ o = .subRecv i)))
      init as := by
  refine (Always.of_inductive (fun _ _ _ h hs => h.step hs) inv_init as).imp ?_
  intro s h i th hi done id o owner
  have ordered := h.ordered i th hi
  have created := ordered.created done
  rw [h.holds i th hi id o owner]
  rcases completed_iff.mp done with main | sub | sub
  · have finished := ordered.teardown (.inr (.inr main))
    cases o <;> simp_all [Thread.Holds, MainPc.hasRecv, SubPc.hasRecv, Obj.owner]
  · have waiting := ordered.sub (by rw [sub]; nofun) (by rw [sub]; nofun)
    cases o <;> simp_all [Thread.Holds, MainPc.hasRecv, SubPc.hasRecv, Obj.owner]
  · have waiting := ordered.sub (by rw [sub]; nofun) (by rw [sub]; nofun)
    cases o <;> simp_all [Thread.Holds, MainPc.hasRecv, SubPc.hasRecv, Obj.owner]

/-- While the sub thread is in `free_recv_event_from` its id resolves to the object it
has just deleted. -/
theorem deleted_resolved : ¬ Always step Balanced init
    [.create, .createDel 0, .bind 0, .start 0, .subDelete 0] := by
  intro h
  exact (h.last rfl).resolves 3 (.subRecv 0) rfl (List.mem_cons_self ..)

end ThreadJs.Registry
