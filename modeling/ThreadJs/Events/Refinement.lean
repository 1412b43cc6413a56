import Mathlib.Algebra.BigOperators.Group.Finset.Piecewise
import ThreadJs.Events.Walk

/-!
The linked lists of `lib/events.js` refine the registry as long as every removal
takes out a leading block.

`Rep E cells` says that the emitter `E` stores under every name the registrations
`cells name`, each at its own heap address, and that both counters agree with
them. `on` keeps it (`Rep.on`) and so does a walk whose removals form a leading
block (`Rep.walk`); `emitter_refines_registry` is the resulting simulation.
`Rep.walk_eq` says what a walk leaves in the other case, and `Rep.emit_after_walk`
that the next `emit` shows it.
-/

namespace ThreadJs.Events

open Machine

variable {Name Cb Data : Type}

/-- The total of a counter: the sum of the list lengths over all names. -/
def Total (n : Int) (cells : Name → List (Nat × Entry Cb)) : Prop :=
  ∀ S : Finset Name, (∀ name ∉ S, cells name = []) → n = ∑ name ∈ S, ((cells name).length : Int)

/-- The emitter stores the registrations `cells name` under each name. -/
structure Rep (E : EventEmitter Name Cb) (cells : Name → List (Nat × Entry Cb)) : Prop where
  chain : ∀ name, Chain E.next (E.first name) (addrs (cells name))
  stored : ∀ name, Stored E (cells name)
  last : ∀ name hd, E.eventHandles name = some hd → hd.e = (addrs (cells name)).getLast?
  nodup : ∀ name, (addrs (cells name)).Nodup
  apart : ∀ name other, name ≠ other → ∀ a ∈ addrs (cells name), a ∉ addrs (cells other)
  count : ∀ name, E.eventCount name = (E.eventHandles name).map fun _ => ((cells name).length : Int)
  total : Total E.allCount cells
  finite : ∃ S : Finset Name, ∀ name ∉ S, cells name = []

/-- The emitter holds exactly the registrations of the registry, in order. -/
def Refines (E : EventEmitter Name Cb) (r : Registry Name Cb) : Prop :=
  ∃ cells, Rep E cells ∧ ∀ name, (cells name).map Prod.snd = r name

theorem Total.update [DecidableEq Name] {n : Int} {cells : Name → List (Nat × Entry Cb)}
    (h : Total n cells) (name : Name) (cs : List (Nat × Entry Cb)) :
    Total (n - (cells name).length + cs.length) (Function.update cells name cs) := by
  intro S hS
  have outside : ∀ other ∉ insert name S, cells other = [] := by
    intro other hother
    rw [Finset.mem_insert, not_or] at hother
    rw [← hS other hother.2, Function.update_of_ne hother.1]
  have lengths : (fun other => ((Function.update cells name cs other).length : Int)) =
      Function.update (fun other => ((cells other).length : Int)) name cs.length := by
    funext other
    by_cases e : other = name
    · subst e
      simp
    · simp [Function.update_of_ne e]
  have grow : ∑ other ∈ S, ((Function.update cells name cs other).length : Int) =
      ∑ other ∈ insert name S, ((Function.update cells name cs other).length : Int) :=
    (Finset.sum_insert_of_eq_zero_if_notMem fun hname => by rw [hS name hname]; rfl).symm
  rw [grow, lengths, Finset.sum_update_of_mem (Finset.mem_insert_self name S), h _ outside,
    Finset.sum_eq_add_sum_sdiff_singleton_of_mem (Finset.mem_insert_self name S)]
  omega

/-! ### Addresses -/

theorem Rep.cells_eq_nil {E : EventEmitter Name Cb} {cells : Name → List (Nat × Entry Cb)}
    (h : Rep E cells) {name : Name} (hn : E.eventHandles name = none) : cells name = [] := by
  have c := h.chain name
  rw [EventEmitter.first, hn] at c
  have hnil : addrs (cells name) = [] := by
    simpa using c.head?_eq
  simpa using hnil

/-- With no entry in its tables an emitter stores nothing, whatever the heap. -/
theorem Rep.cleared (heap : List (Dat Cb)) :
    Rep (⟨heap, fun _ => none, 0, fun _ => none⟩ : EventEmitter Name Cb) fun _ => [] where
  chain _ := .nil
  stored _ _ hc := by cases hc
  last _ _ h := by cases h
  nodup _ := List.nodup_nil
  apart _ _ _ _ ha := by cases ha
  count _ := rfl
  total _ _ := by simp
  finite := ⟨∅, fun _ _ => rfl⟩

theorem refines_new : Refines (EventEmitter.new : EventEmitter Name Cb) Registry.empty :=
  ⟨_, .cleared [], fun _ => rfl⟩

theorem refines_removeAllListeners (E : EventEmitter Name Cb) :
    Refines E.removeAllListeners Registry.empty :=
  ⟨_, .cleared E.heap, fun _ => rfl⟩

/-! ### `on` -/

namespace EventEmitter

theorem getElem?_setNext (heap : List (Dat Cb)) (t b a : Nat) :
    (setNext heap t b)[a]? =
      if t = a then heap[a]?.map fun d => { d with next := some b } else heap[a]? := by
  rw [setNext, List.getElem?_modify]
  split
  · rfl
  · simp

variable [DecidableEq Name] {E : EventEmitter Name Cb} {name : Name} {cb : Cb} {remove : Bool}

/-- What `on` writes to the heap: the new node at the end, and a link to it from
the node that the name's `e` points to, if any. -/
theorem on_heap : (E.on name cb remove).heap =
    match (E.eventHandles name).bind Handles.e with
    | none => E.heap ++ [⟨cb, none, remove⟩]
    | some t => setNext (E.heap ++ [⟨cb, none, remove⟩]) t E.heap.length := by
  unfold EventEmitter.on
  cases E.eventHandles name with
  | none => rfl
  | some hd => cases he : hd.e <;> simp [he]

/-- The handles that `on` stores under the name. -/
theorem on_handles : (E.on name cb remove).eventHandles name =
    some ⟨match (E.eventHandles name).bind Handles.e with
      | none => some E.heap.length
      | some _ => E.first name, some E.heap.length⟩ := by
  unfold EventEmitter.on EventEmitter.first
  cases h : E.eventHandles name with
  | none => simp
  | some hd => cases he : hd.e <;> simp [he]

theorem on_handles_of_ne {other : Name} (h : other ≠ name) :
    (E.on name cb remove).eventHandles other = E.eventHandles other := by
  simp [EventEmitter.on, h]

/-- Nodes that exist keep callback and flag. -/
theorem on_entry {a : Nat} {d : Dat Cb} (h : E.heap[a]? = some d) :
    ∃ d', (E.on name cb remove).heap[a]? = some d' ∧ d'.entry = d.entry := by
  have old : (E.heap ++ [⟨cb, none, remove⟩])[a]? = some d := by
    rw [List.getElem?_append_left (List.getElem?_eq_some_iff.mp h).1, h]
  rw [on_heap]
  cases (E.eventHandles name).bind Handles.e with
  | none => exact ⟨d, old, rfl⟩
  | some t =>
      simp only [getElem?_setNext, old]
      split
      · exact ⟨_, rfl, rfl⟩
      · exact ⟨d, rfl, rfl⟩

/-- Only the node that `e` points to gets a new link. -/
theorem on_next_of_ne {a : Nat} (lt : a < E.heap.length)
    (ne : (E.eventHandles name).bind Handles.e ≠ some a) :
    (E.on name cb remove).next a = E.next a := by
  have old : (E.heap ++ [⟨cb, none, remove⟩])[a]? = E.heap[a]? :=
    List.getElem?_append_left lt
  unfold EventEmitter.next
  rw [on_heap]
  cases h : (E.eventHandles name).bind Handles.e with
  | none => exact congrArg (·.bind Dat.next) old
  | some t =>
      rw [h] at ne
      simp only [getElem?_setNext]
      rw [if_neg fun e => ne (congrArg some e), old]

theorem on_next_last {t : Nat} (lt : t < E.heap.length)
    (he : (E.eventHandles name).bind Handles.e = some t) :
    (E.on name cb remove).next t = some E.heap.length := by
  unfold EventEmitter.next
  simp only [on_heap, he, getElem?_setNext, if_true, List.getElem?_append_left lt,
    List.getElem?_eq_getElem lt]
  rfl

/-- The new node stands at the end of the heap and of its list. -/
theorem on_new (fresh : (E.eventHandles name).bind Handles.e ≠ some E.heap.length) :
    (E.on name cb remove).heap[E.heap.length]? = some ⟨cb, none, remove⟩ := by
  rw [on_heap]
  cases h : (E.eventHandles name).bind Handles.e with
  | none => simp
  | some t =>
      rw [h] at fresh
      simp only [getElem?_setNext]
      rw [if_neg fun e => fresh (congrArg some e)]
      simp

end EventEmitter

/-- `e` of a name is its last stored node. -/
theorem Rep.tail_eq {E : EventEmitter Name Cb} {cells : Name → List (Nat × Entry Cb)}
    (h : Rep E cells) (name : Name) :
    (E.eventHandles name).bind Handles.e = (addrs (cells name)).getLast? := by
  cases hn : E.eventHandles name with
  | none => simp [h.cells_eq_nil hn]
  | some hd => exact h.last name hd hn

theorem Rep.lt {E : EventEmitter Name Cb} {cells : Name → List (Nat × Entry Cb)}
    (h : Rep E cells) {name : Name} {a : Nat} (ha : a ∈ addrs (cells name)) : a < E.heap.length :=
  (h.stored name).lt ha

/-- `e` never points to a node that does not exist yet. -/
theorem Rep.fresh {E : EventEmitter Name Cb} {cells : Name → List (Nat × Entry Cb)}
    (h : Rep E cells) (name : Name) :
    (E.eventHandles name).bind Handles.e ≠ some E.heap.length := by
  rw [h.tail_eq name]
  exact fun he => lt_irrefl _ (h.lt (List.mem_of_getLast? he))

section On

variable [DecidableEq Name] {E : EventEmitter Name Cb} {cells : Name → List (Nat × Entry Cb)}

/-- The cells after `on`: the new node comes last under its name. -/
def added (cells : Name → List (Nat × Entry Cb)) (name : Name) (a : Nat) (e : Entry Cb) :
    Name → List (Nat × Entry Cb) :=
  Function.update cells name (cells name ++ [(a, e)])

theorem mem_addrs_added {name other : Name} {a b : Nat} {e : Entry Cb}
    (h : b ∈ addrs (added cells name a e other)) :
    b ∈ addrs (cells other) ∨ other = name ∧ b = a := by
  by_cases eq : other = name
  · subst eq
    simpa [added] using h
  · rw [added, Function.update_of_ne eq] at h
    exact .inl h

variable (h : Rep E cells) (name : Name) (cb : Cb) (remove : Bool)

include h

theorem Rep.on_chain (other : Name) :
    Chain (E.on name cb remove).next ((E.on name cb remove).first other)
      (addrs (added cells name E.heap.length ⟨cb, remove⟩ other)) := by
  by_cases e : other = name
  · subst e
    have stop : (E.on other cb remove).next E.heap.length = none := by
      simp [EventEmitter.next, EventEmitter.on_new (h.fresh other)]
    rw [added, Function.update_self, EventEmitter.first, EventEmitter.on_handles]
    cases ht : (E.eventHandles other).bind Handles.e with
    | none =>
        have hnil : cells other = [] := by simpa [ht] using (h.tail_eq other).symm
        rw [hnil]
        exact .cons (stop ▸ .nil)
    | some t =>
        have last : (addrs (cells other)).getLast? = some t := by rw [← h.tail_eq, ht]
        have link : (E.on other cb remove).next t = some E.heap.length :=
          EventEmitter.on_next_last (h.lt (List.mem_of_getLast? last)) ht
        have appended : Chain (E.on other cb remove).next (E.first other)
            (addrs (cells other) ++ [E.heap.length]) :=
          (h.chain other).snoc last (h.nodup other) (fun hb => lt_irrefl _ (h.lt hb)) stop link
            fun a ha hat => EventEmitter.on_next_of_ne (h.lt ha)
              (by rw [ht]; simpa using Ne.symm hat)
        simpa using appended
  · rw [added, Function.update_of_ne e, EventEmitter.first, EventEmitter.on_handles_of_ne e]
    refine (h.chain other).frame fun a ha => EventEmitter.on_next_of_ne (h.lt ha) fun he => ?_
    rw [h.tail_eq name] at he
    exact h.apart other name e a ha (List.mem_of_getLast? he)

theorem Rep.on_stored (other : Name) :
    Stored (E.on name cb remove) (added cells name E.heap.length ⟨cb, remove⟩ other) := by
  have kept : Stored (E.on name cb remove) (cells other) := by
    intro c hc
    obtain ⟨d, hd, he⟩ := h.stored other c hc
    obtain ⟨d', hd', he'⟩ : ∃ d', (E.on name cb remove).heap[c.1]? = some d' ∧ d'.entry = d.entry :=
      EventEmitter.on_entry hd
    exact ⟨d', hd', he'.trans he⟩
  intro c hc
  by_cases e : other = name
  · subst e
    rw [added, Function.update_self] at hc
    rcases List.mem_append.mp hc with hc | hc
    · exact kept c hc
    · obtain rfl := List.mem_singleton.mp hc
      exact ⟨_, EventEmitter.on_new (h.fresh other), rfl⟩
  · rw [added, Function.update_of_ne e] at hc
    exact kept c hc

theorem Rep.on_nodup (other : Name) :
    (addrs (added cells name E.heap.length ⟨cb, remove⟩ other)).Nodup := by
  by_cases e : other = name
  · subst e
    rw [added, Function.update_self]
    simp only [List.map_append, List.map_cons, List.map_nil]
    refine List.nodup_append.mpr ⟨h.nodup other, by simp, fun a ha b hb => ?_⟩
    rw [List.mem_singleton] at hb
    exact (hb ▸ h.lt ha).ne
  · rw [added, Function.update_of_ne e]
    exact h.nodup other

theorem Rep.on_count (other : Name) : (E.on name cb remove).eventCount other =
    ((E.on name cb remove).eventHandles other).map fun _ =>
      ((added cells name E.heap.length ⟨cb, remove⟩ other).length : Int) := by
  by_cases e : other = name
  · subst e
    rw [EventEmitter.on_handles, added, Function.update_self]
    simp only [EventEmitter.on, Function.update_self, h.count other]
    cases hn : E.eventHandles other with
    | none => simp [h.cells_eq_nil hn]
    | some hd => simp
  · rw [EventEmitter.on_handles_of_ne e, added, Function.update_of_ne e, ← h.count other]
    simp [EventEmitter.on, e]

/-- `on` appends its registration. -/
theorem Rep.on : Rep (E.on name cb remove) (added cells name E.heap.length ⟨cb, remove⟩) where
  chain := h.on_chain name cb remove
  stored := h.on_stored name cb remove
  nodup := h.on_nodup name cb remove
  count := h.on_count name cb remove
  last other hd hhd := by
    by_cases e : other = name
    · subst e
      rw [EventEmitter.on_handles, Option.some.injEq] at hhd
      simp [← hhd, added]
    · rw [EventEmitter.on_handles_of_ne e] at hhd
      rw [added, Function.update_of_ne e]
      exact h.last other hd hhd
  apart n m hne a ha hb := by
    rcases mem_addrs_added ha with ha | ⟨hn, ha⟩ <;> rcases mem_addrs_added hb with hb | ⟨hm, hb⟩
    · exact h.apart n m hne a ha hb
    · exact lt_irrefl _ (hb ▸ h.lt ha)
    · exact lt_irrefl _ (ha ▸ h.lt hb)
    · exact hne (hn.trans hm.symm)
  total := by
    have grown := h.total.update name (cells name ++ [(E.heap.length, ⟨cb, remove⟩)])
    have hcount : E.allCount - (cells name).length +
        (cells name ++ [(E.heap.length, (⟨cb, remove⟩ : Entry Cb))]).length = E.allCount + 1 := by
      simp only [List.length_append, List.length_singleton]
      omega
    rwa [hcount] at grown
  finite := by
    obtain ⟨S, hS⟩ := h.finite
    refine ⟨insert name S, fun other hother => ?_⟩
    rw [Finset.mem_insert, not_or] at hother
    rw [added, Function.update_of_ne hother.1, hS other hother.2]

end On

/-! ### `removeListener` and `emit` -/

section Walk

variable [DecidableEq Name] {E : EventEmitter Name Cb} {cells : Name → List (Nat × Entry Cb)}
  {takes : Dat Cb → Bool} {m : Entry Cb → Bool} {pred : Option Nat → Option Nat}
  {calls : Dat Cb → List (Call Cb Data)} {out : Entry Cb → List (Call Cb Data)}

/-- The cells behind a leading block. -/
def dropped (cells : Name → List (Nat × Entry Cb)) (name : Name) (m : Entry Cb → Bool) :
    Name → List (Nat × Entry Cb) :=
  Function.update cells name ((cells name).dropWhile fun c => m c.2)

/-- Everything a walk does, in one equation for each of its two cases. -/
theorem Rep.walk_eq (h : Rep E cells) (name : Name) (hpred : pred none = none)
    (htakes : ∀ d, takes d = m d.entry) (hcalls : ∀ d, calls d = out d.entry) :
    (E.eventHandles name = none ∧ E.walk name takes pred calls = .ok (E, [])) ∨
    ∃ e, (E.eventHandles name).isSome ∧
      E.walk name takes pred calls =
        .ok (E.adjust name ⟨(addrs (dropped cells name m name)).head?, e⟩
          ((cells name).countP fun c => m c.2), (cells name).flatMap fun c => out c.2) ∧
      (Leading (fun c => m c.2) (cells name) →
        e = (addrs (dropped cells name m name)).getLast?) := by
  cases hn : E.eventHandles name with
  | none => exact .inl ⟨rfl, by simp [EventEmitter.walk, hn]⟩
  | some hd =>
      have chain := h.chain name
      rw [EventEmitter.first, hn, Option.bind_some] at chain
      obtain ⟨e, heq, he⟩ := EventEmitter.walk_from_first htakes hcalls hpred (cells name)
        E.heap.length E [] hd.s hd.e ((h.stored name).length_le (h.nodup name)) chain
          (h.stored name) hn (h.nodup name)
      refine .inr ⟨e, rfl, ?_, ?_⟩
      · simpa [EventEmitter.walk, hn, dropped] using heq
      · simpa [dropped] using he (h.last name hd hn)

theorem dropped_suffix (cells : Name → List (Nat × Entry Cb)) (name other : Name) :
    dropped cells name m other <:+ cells other := by
  by_cases e : other = name
  · subst e
    rw [dropped, Function.update_self]
    exact List.dropWhile_suffix _
  · rw [dropped, Function.update_of_ne e]

/-- Taking out a leading block leaves a well-formed emitter. -/
theorem Rep.adjust (h : Rep E cells) {name : Name} (handled : (E.eventHandles name).isSome)
    (lead : Leading (fun c => m c.2) (cells name)) :
    Rep (E.adjust name ⟨(addrs (dropped cells name m name)).head?,
        (addrs (dropped cells name m name)).getLast?⟩ ((cells name).countP fun c => m c.2))
      (dropped cells name m) where
  chain other := by
    rw [EventEmitter.first]
    by_cases e : other = name
    · subst e
      rw [EventEmitter.adjust_eventHandles]
      exact (h.chain other).suffix ((dropped_suffix cells other other).map _)
    · rw [EventEmitter.adjust_eventHandles_of_ne e, dropped, Function.update_of_ne e]
      exact h.chain other
  stored other c hc := h.stored other c ((dropped_suffix cells name other).subset hc)
  last other hd hhd := by
    by_cases e : other = name
    · subst e
      rw [EventEmitter.adjust_eventHandles, Option.some.injEq] at hhd
      rw [← hhd]
    · rw [EventEmitter.adjust_eventHandles_of_ne e] at hhd
      rw [dropped, Function.update_of_ne e]
      exact h.last other hd hhd
  nodup other := (h.nodup other).sublist ((dropped_suffix cells name other).map _).sublist
  apart n n' hne a ha hb := h.apart n n' hne a
    (((dropped_suffix cells name n).map _).subset ha)
    (((dropped_suffix cells name n').map _).subset hb)
  count other := by
    by_cases e : other = name
    · subst e
      obtain ⟨hd, hhd⟩ := Option.isSome_iff_exists.mp handled
      rw [EventEmitter.adjust_eventHandles, dropped, Function.update_self]
      simp [EventEmitter.adjust, h.count other, hhd, leading_iff_length.mp lead]
    · rw [EventEmitter.adjust_eventHandles_of_ne e, dropped, Function.update_of_ne e, ← h.count]
      simp [EventEmitter.adjust, e]
  total := by
    have rest := h.total.update name ((cells name).dropWhile fun c => m c.2)
    rw [leading_iff_length.mp lead] at rest
    have hcount : E.allCount - (cells name).length +
        ((cells name).length - (cells name).countP fun c => m c.2) =
        E.allCount - (cells name).countP fun c => m c.2 := by omega
    rwa [hcount] at rest
  finite := by
    obtain ⟨S, hS⟩ := h.finite
    refine ⟨S, fun other hother => ?_⟩
    simpa [hS other hother] using dropped_suffix (m := m) cells name other

/-- A walk that is asked to take out a leading block takes out exactly that. -/
theorem Rep.walk (h : Rep E cells) (name : Name) (hpred : pred none = none)
    (htakes : ∀ d, takes d = m d.entry) (hcalls : ∀ d, calls d = out d.entry)
    (lead : Leading (fun c => m c.2) (cells name)) :
    ∃ E', E.walk name takes pred calls = .ok (E', (cells name).flatMap fun c => out c.2) ∧
      Rep E' (dropped cells name m) := by
  rcases h.walk_eq name hpred htakes hcalls with ⟨hn, heq⟩ | ⟨e, handled, heq, he⟩
  · have hnil := h.cells_eq_nil hn
    refine ⟨E, by rw [heq, hnil]; rfl, ?_⟩
    have same : dropped cells name m = cells := by
      rw [dropped, hnil]
      simp [← hnil]
    rwa [same]
  · exact ⟨_, heq, he lead ▸ h.adjust handled lead⟩

/-- `emit` calls every node of the list it finds, taken out or not. -/
theorem emit_of_chain {cs : List (Nat × Entry Cb)} {name : Name}
    (chain : Chain E.next (E.first name) (addrs cs)) (stored : Stored E cs)
    (nodup : (addrs cs).Nodup) (data : Data) :
    ∃ E', E.emit name data = .ok (E', cs.map fun c => (c.2.cb, data)) := by
  unfold EventEmitter.emit EventEmitter.walk
  cases hn : E.eventHandles name with
  | none =>
      rw [EventEmitter.first, hn] at chain
      have hnil : cs = [] := by simpa using chain.head?_eq
      exact ⟨E, by rw [hnil]; rfl⟩
  | some hd =>
      rw [EventEmitter.first, hn] at chain
      obtain ⟨e, heq, -⟩ := @EventEmitter.walk_from_first Name Cb Data _ name Dat.remove Entry.once
        (fun _ => none) _ (fun e => [(e.cb, data)]) (fun _ => rfl) (fun _ => rfl) rfl cs
        E.heap.length E [] hd.s hd.e (stored.length_le nodup) chain stored hn nodup
      rw [← List.map_eq_flatMap, List.nil_append] at heq
      exact ⟨_, heq⟩

/-- Whatever a walk was to take out, it leaves all entries behind the leading
block: the next `emit` calls every one of them. -/
theorem Rep.emit_after_walk (h : Rep E cells) (name : Name) (hpred : pred none = none)
    (htakes : ∀ d, takes d = m d.entry) (hcalls : ∀ d, calls d = out d.entry)
    {E' : EventEmitter Name Cb} {done : List (Call Cb Data)}
    (walk : E.walk name takes pred calls = .ok (E', done)) (data : Data) :
    ∃ E'', E'.emit name data =
      .ok (E'', (dropped cells name m name).map fun c => (c.2.cb, data)) := by
  have suffix := dropped_suffix (m := m) cells name name
  rcases h.walk_eq name hpred htakes hcalls with ⟨hn, heq⟩ | ⟨e, -, heq, -⟩
  · obtain ⟨rfl, -⟩ := Prod.mk.inj (Except.ok.inj (heq.symm.trans walk))
    have hnil : dropped cells name m name = cells name := by simp [dropped, h.cells_eq_nil hn]
    rw [hnil]
    exact emit_of_chain (h.chain name) (h.stored name) (h.nodup name) data
  · obtain ⟨rfl, -⟩ := Prod.mk.inj (Except.ok.inj (heq.symm.trans walk))
    have stored : Stored (E.adjust name ⟨(addrs (dropped cells name m name)).head?, e⟩
        ((cells name).countP fun c => m c.2)) (dropped cells name m name) :=
      fun c hc => h.stored name c (suffix.subset hc)
    refine emit_of_chain ?_ stored ((h.nodup name).sublist (suffix.map _).sublist) data
    rw [EventEmitter.first, EventEmitter.adjust_eventHandles]
    exact (h.chain name).suffix (suffix.map _)

end Walk

section Step

variable [DecidableEq Name] {E : EventEmitter Name Cb} {r : Registry Name Cb}

theorem matchesListener_eq [DecidableEq Cb] (cb : Option Cb) (d : Dat Cb) :
    EventEmitter.matchesListener cb d = Registry.listens cb d.entry := rfl

theorem Refines.on (h : Refines E r) (name : Name) (cb : Cb) (remove : Bool) :
    Refines (E.on name cb remove) (r.register name ⟨cb, remove⟩) := by
  obtain ⟨cells, rep, hr⟩ := h
  refine ⟨_, rep.on name cb remove, fun other => ?_⟩
  by_cases e : other = name
  · subst e
    simp [added, Registry.register, hr]
  · rw [added, Function.update_of_ne e, hr, Registry.register, Function.update_of_ne e]

/-- The simulation step of the two operations that walk a list. -/
theorem Refines.walk (h : Refines E r) (name : Name) {takes : Dat Cb → Bool}
    {m : Entry Cb → Bool} {pred : Option Nat → Option Nat} {calls : Dat Cb → List (Call Cb Data)}
    {out : Entry Cb → List (Call Cb Data)} (hpred : pred none = none)
    (htakes : ∀ d, takes d = m d.entry) (hcalls : ∀ d, calls d = out d.entry)
    (lead : Leading m (r name)) :
    ∃ E', E.walk name takes pred calls = .ok (E', (r name).flatMap out) ∧
      Refines E' (r.takeOut name m) := by
  obtain ⟨cells, rep, hr⟩ := h
  have lead' : Leading (fun c => m c.2) (cells name) := by
    rw [← hr, leading_map] at lead
    exact lead
  obtain ⟨E', heq, rep'⟩ := rep.walk name hpred htakes hcalls lead'
  refine ⟨E', ?_, _, rep', fun other => ?_⟩
  · rw [heq, ← hr name, List.flatMap_map]
  · by_cases e : other = name
    · subst e
      rw [dropped, Function.update_self, Registry.takeOut, Function.update_self,
        ← dropWhile_eq_filter_iff.mpr lead, ← hr, List.dropWhile_map]
      rfl
    · rw [dropped, Function.update_of_ne e, hr, Registry.takeOut, Function.update_of_ne e]

/-- One operation whose removals form a leading block of the list does what the
registry does, with the same calls. -/
theorem Refines.step [DecidableEq Cb] (h : Refines E r) (op : Op Name Cb Data)
    (head : HeadRemoval r op) :
    ∃ E', E.step op = .ok (E', (r.step op).2) ∧ Refines E' (r.step op).1 := by
  cases op with
  | on name cb => exact ⟨_, rfl, h.on name cb false⟩
  | once name cb => exact ⟨_, rfl, h.on name cb true⟩
  | removeAllListeners => exact ⟨_, rfl, refines_removeAllListeners E⟩
  | removeListener name cb =>
      obtain ⟨E', heq, h'⟩ : ∃ E', E.walk name (EventEmitter.matchesListener cb) id (fun _ => []) =
          .ok (E', (r name).flatMap fun _ => ([] : List (Call Cb Data))) ∧
          Refines E' (r.takeOut name (Registry.listens cb)) :=
        h.walk name rfl (matchesListener_eq cb) (fun _ => rfl) head
      rw [List.flatMap_eq_nil_iff.mpr fun _ _ => rfl] at heq
      exact ⟨E', heq, h'⟩
  | emit name data =>
      obtain ⟨E', heq, h'⟩ : ∃ E',
          E.walk name Dat.remove (fun _ => none) (fun d => [(d.cb, data)]) =
            .ok (E', (r name).flatMap fun e => [(e.cb, data)]) ∧
          Refines E' (r.takeOut name Entry.once) :=
        h.walk name rfl (fun _ => rfl) (fun _ => rfl) head
      rw [← List.map_eq_flatMap] at heq
      exact ⟨E', heq, h'⟩

end Step

/-! ### Whole histories -/

/-- An `emit` of any name would make exactly the calls that the registry prescribes. -/
def EmitsAgree [DecidableEq Name] (Data : Type) (E : EventEmitter Name Cb)
    (r : Registry Name Cb) : Prop :=
  ∀ name (data : Data), ∃ E', E.emit name data = .ok (E', (r name).map fun e => (e.cb, data))

theorem Refines.emitsAgree [DecidableEq Name] {E : EventEmitter Name Cb} {r : Registry Name Cb}
    (h : Refines E r) : EmitsAgree Data E r := by
  intro name data
  obtain ⟨cells, rep, hr⟩ := h
  rw [← hr name, List.map_map]
  exact emit_of_chain (rep.chain name) (rep.stored name) (rep.nodup name) data

/-- After a walk over a list that it was to take more than a leading block from,
the next `emit` makes a call too many. -/
theorem not_emitsAgree_of_walk [DecidableEq Name] [Inhabited Data] {E E' : EventEmitter Name Cb}
    {r : Registry Name Cb} (h : Refines E r) (name : Name) {takes : Dat Cb → Bool}
    {m : Entry Cb → Bool} {pred : Option Nat → Option Nat} {calls : Dat Cb → List (Call Cb Data)}
    (out : Entry Cb → List (Call Cb Data)) {done : List (Call Cb Data)} (hpred : pred none = none)
    (htakes : ∀ d, takes d = m d.entry) (hcalls : ∀ d, calls d = out d.entry)
    (walk : E.walk name takes pred calls = .ok (E', done)) (inner : ¬ Leading m (r name)) :
    ¬ EmitsAgree Data E' (r.takeOut name m) := by
  obtain ⟨cells, rep, hr⟩ := h
  intro agree
  obtain ⟨_, hreal⟩ := rep.emit_after_walk name hpred htakes hcalls walk default
  obtain ⟨_, hspec⟩ := agree name default
  have same := (Prod.mk.inj (Except.ok.inj (hreal.symm.trans hspec))).2
  have lengths := congrArg List.length same
  rw [Registry.takeOut, dropped, Function.update_self, Function.update_self, List.length_map,
    List.length_map] at lengths
  refine inner (leading_of_length_eq ?_)
  rw [← lengths, ← hr name, List.dropWhile_map, List.length_map]
  rfl

section Runs

variable [DecidableEq Name] [DecidableEq Cb]

/-- An operation that is to take out more than a leading block is a walk. -/
theorem walk_of_inner {E E' : EventEmitter Name Cb} {r : Registry Name Cb} (op : Op Name Cb Data)
    (inner : ¬ HeadRemoval r op) {done : List (Call Cb Data)} (step : E.step op = .ok (E', done)) :
    ∃ (name : Name) (takes : Dat Cb → Bool) (m : Entry Cb → Bool) (pred : Option Nat → Option Nat)
      (calls : Dat Cb → List (Call Cb Data)) (out : Entry Cb → List (Call Cb Data)),
      pred none = none ∧ (∀ d, takes d = m d.entry) ∧ (∀ d, calls d = out d.entry) ∧
        E.walk name takes pred calls = .ok (E', done) ∧ ¬ Leading m (r name) ∧
        (r.step op).1 = r.takeOut name m := by
  cases op with
  | removeListener name cb =>
      have walk : E.walk name (EventEmitter.matchesListener cb) id (fun _ => []) = .ok (E', done) :=
        step
      exact ⟨name, _, _, _, _, fun _ => [], rfl, matchesListener_eq cb, fun _ => rfl, walk, inner,
        rfl⟩
  | emit name data =>
      have walk : E.walk name Dat.remove (fun _ => none) (fun d => [(d.cb, data)]) =
        .ok (E', done) := step
      exact ⟨name, _, _, _, _, fun e => [(e.cb, data)], rfl, fun _ => rfl, fun _ => rfl, walk,
        inner, rfl⟩
  | on name cb => exact absurd trivial inner
  | once name cb => exact absurd trivial inner
  | removeAllListeners => exact absurd trivial inner

/-- An operation that takes out more than a leading block is betrayed by the next
`emit`. -/
theorem not_emitsAgree_of_inner [Inhabited Data] {E E' : EventEmitter Name Cb}
    {r : Registry Name Cb} (h : Refines E r) (op : Op Name Cb Data) (inner : ¬ HeadRemoval r op)
    {done : List (Call Cb Data)} (step : E.step op = .ok (E', done)) :
    ¬ EmitsAgree Data E' (r.step op).1 := by
  obtain ⟨name, _, m, _, _, out, hpred, htakes, hcalls, walk, more, taken⟩ :=
    walk_of_inner op inner step
  rw [taken]
  exact not_emitsAgree_of_walk h name out hpred htakes hcalls walk more

/-- **Refinement.** Along every history whose removals form leading blocks, the
emitter makes exactly the calls of the registry and holds its registrations. -/
theorem emitter_refines_registry (ops : List (Op Name Cb Data))
    (head : Mealy.Meets Registry.step HeadRemoval Registry.empty ops) :
    ∃ E : EventEmitter Name Cb, Mealy.exec EventEmitter.step .new ops =
        .ok (E, (Mealy.run Registry.step Registry.empty ops).2) ∧
      Refines E (Mealy.run Registry.step Registry.empty ops).1 :=
  Mealy.simulates (fun _ _ op h hc => h.step op hc) refines_new head

/-- **Exactness.** A history makes the calls of the registry, and at every moment
an `emit` would make them too, if and only if each of its removals takes out a
leading block of the list at that moment. -/
theorem calls_agree_iff_head_removals [Inhabited Data] (ops : List (Op Name Cb Data)) :
    (∀ pre, pre <+: ops → ∃ E : EventEmitter Name Cb,
      Mealy.exec EventEmitter.step .new pre =
        .ok (E, (Mealy.run Registry.step Registry.empty pre).2) ∧
      EmitsAgree Data E (Mealy.run Registry.step Registry.empty pre).1) ↔
    Mealy.Meets Registry.step HeadRemoval Registry.empty ops := by
  constructor
  · intro agree
    refine Mealy.meets_of_good (fun _ _ op h hc => h.step op hc)
      (fun _ _ op _ _ h hc step => not_emitsAgree_of_inner h op hc step) refines_new
      fun pre hpre => ?_
    obtain ⟨E, hE, hagree⟩ := agree pre hpre
    exact ⟨E, _, hE, hagree⟩
  · intro head pre hpre
    obtain ⟨E, hE, refines⟩ := emitter_refines_registry pre (head.of_prefix hpre)
    exact ⟨E, hE, refines.emitsAgree⟩

/-- `p.next == h.next` leaves a removed listener linked, and `_remove(h)` loses
the tail of the list. -/
theorem inner_removal_diverges :
    (Mealy.exec EventEmitter.step (.new : EventEmitter String Nat)
        [.on "a" 1, .on "a" 2, .removeListener "a" (some 2), .emit "a" ()]).map Prod.snd ≠
      .ok (Mealy.run Registry.step Registry.empty
        [.on "a" 1, .on "a" 2, .removeListener "a" (some 2), .emit "a" ()]).2 ∧
    (Mealy.exec EventEmitter.step (.new : EventEmitter String Nat)
        [.on "a" 1, .once "a" 2, .emit "a" (), .on "a" 3, .emit "a" ()]).map Prod.snd ≠
      .ok (Mealy.run Registry.step Registry.empty
        [.on "a" 1, .once "a" 2, .emit "a" (), .on "a" 3, .emit "a" ()]).2 := by
  decide

end Runs

end ThreadJs.Events
