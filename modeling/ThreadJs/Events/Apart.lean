import ThreadJs.Events.Refinement

/-!
Two parties on one emitter.

One party owns some of the names and some of the callbacks, and the other listens
under the other names only. No list of the other party runs into a node of the first
(`Apart`), so whatever the other party does leaves the nodes and the handles of the
first alone (`SameOwn`), and its walks come to an end.
-/

namespace ThreadJs.Events

variable {Name Cb Data : Type} (ownName : Name → Bool) (own : Cb → Bool)

/-- There is a node at the address, and its callback is one of the other party. -/
def Foreign (heap : List (Dat Cb)) (a : ℕ) : Prop :=
  ∃ d : Dat Cb, heap[a]? = some d ∧ own d.cb = false

structure Apart (E : EventEmitter Name Cb) : Prop where
  handles : ∀ name hd, ownName name = false → E.eventHandles name = some hd →
    ∀ a, hd.s = some a ∨ hd.e = some a → Foreign own E.heap a
  /-- The lists of the other party stay with it, and their links lead to later nodes. -/
  next : ∀ a b, Foreign own E.heap a → E.next a = some b → Foreign own E.heap b ∧ a < b

/-- What the first party has is untouched, and the nodes of the other are still there. -/
structure SameOwn (E E' : EventEmitter Name Cb) : Prop where
  heap : ∀ (a : ℕ) (d : Dat Cb), E.heap[a]? = some d → own d.cb = true → E'.heap[a]? = some d
  handles : ∀ name, ownName name = true → E'.eventHandles name = E.eventHandles name
  foreign : ∀ a, Foreign own E.heap a → Foreign own E'.heap a

variable {ownName own} {E E' E'' : EventEmitter Name Cb}

theorem apart_new : Apart ownName own (EventEmitter.new : EventEmitter Name Cb) where
  handles := by
    intro name hd _ handles
    cases handles
  next := by
    rintro a b ⟨d, node, -⟩
    simp [EventEmitter.new] at node

theorem SameOwn.refl (E : EventEmitter Name Cb) : SameOwn ownName own E E :=
  ⟨fun _ _ h _ => h, fun _ _ => rfl, fun _ h => h⟩

theorem SameOwn.trans (h : SameOwn ownName own E E') (h' : SameOwn ownName own E' E'') :
    SameOwn ownName own E E'' where
  heap a d node ours := h'.heap a d (h.heap a d node ours) ours
  handles name ours := (h'.handles name ours).trans (h.handles name ours)
  foreign a node := h'.foreign a (h.foreign a node)

theorem Foreign.lt {heap : List (Dat Cb)} {a : ℕ} (h : Foreign own heap a) : a < heap.length := by
  obtain ⟨d, node, -⟩ := h
  exact (List.getElem?_eq_some_iff.mp node).1

theorem Foreign.append {heap : List (Dat Cb)} {a : ℕ} (h : Foreign own heap a) (d : Dat Cb) :
    Foreign own (heap ++ [d]) a := by
  obtain ⟨d', node, other⟩ := h
  refine ⟨d', ?_, other⟩
  rw [List.getElem?_append_left (Foreign.lt ⟨d', node, other⟩), node]

namespace EventEmitter

theorem next_eq_some {a b : ℕ} :
    E.next a = some b ↔ ∃ d, E.heap[a]? = some d ∧ d.next = some b := by
  rw [next, Option.bind_eq_some_iff]

variable [DecidableEq Name] {name : Name}

/-- A new name: nothing is linked. -/
theorem on_heap_of_none (fresh : E.eventHandles name = none) (cb : Cb) (remove : Bool) :
    (E.on name cb remove).heap = E.heap ++ [⟨cb, none, remove⟩] := by
  rw [on_heap, fresh]
  rfl

theorem on_handles_of_none (fresh : E.eventHandles name = none) (cb : Cb) (remove : Bool) :
    (E.on name cb remove).eventHandles name = some ⟨some E.heap.length, some E.heap.length⟩ := by
  rw [on_handles, fresh]
  rfl

end EventEmitter

open EventEmitter

variable [DecidableEq Name] {name : Name} {cb : Cb}

/-- The addresses of foreign nodes among old ones and a new one. -/
theorem foreign_append {heap : List (Dat Cb)} {d : Dat Cb} {a : ℕ} :
    Foreign own (heap ++ [d]) a ↔ Foreign own heap a ∨ a = heap.length ∧ own d.cb = false := by
  constructor
  · rintro ⟨d', node, other⟩
    rcases Nat.lt_or_ge a heap.length with lt | ge
    · rw [List.getElem?_append_left lt] at node
      exact .inl ⟨d', node, other⟩
    · have last : a = heap.length := by
        have := (List.getElem?_eq_some_iff.mp node).1
        rw [List.length_append, List.length_singleton] at this
        omega
      subst last
      rw [List.getElem?_concat_length] at node
      exact .inr ⟨rfl, Option.some.inj node ▸ other⟩
  · rintro (node | ⟨rfl, other⟩)
    · exact node.append d
    · exact ⟨d, List.getElem?_concat_length, other⟩

theorem foreign_setNext {heap : List (Dat Cb)} {t b a : ℕ} :
    Foreign own (setNext heap t b) a ↔ Foreign own heap a := by
  rw [Foreign, Foreign]
  simp only [getElem?_setNext]
  split
  · constructor
    · rintro ⟨d, node, other⟩
      obtain ⟨d', node', rfl⟩ := Option.map_eq_some_iff.mp node
      exact ⟨d', node', other⟩
    · rintro ⟨d, node, other⟩
      exact ⟨{ d with next := some b }, by rw [node]; rfl, other⟩
  · rfl

omit [DecidableEq Name] in
theorem ne_of_owner {other : Name} (ours : ownName other = true) (notOurs : ownName name = false) :
    other ≠ name := by
  rintro rfl
  exact absurd (ours.symm.trans notOurs) (by simp)

/-- The first party takes a name that is not in use. -/
theorem Apart.on_own (h : Apart ownName own E) (ours : own cb = true)
    (fresh : E.eventHandles name = none) (nameOurs : ownName name = true) (remove : Bool) :
    Apart ownName own (E.on name cb remove) := by
  have old : ∀ a, Foreign own (E.on name cb remove).heap a ↔ Foreign own E.heap a := by
    intro a
    rw [on_heap_of_none fresh, foreign_append]
    simp [ours]
  constructor
  · intro other hd notOurs handles a ha
    rw [on_handles_of_ne (ne_of_owner nameOurs notOurs).symm] at handles
    exact (old a).mpr (h.handles other hd notOurs handles a ha)
  · intro a b node link
    have before := (old a).mp node
    obtain ⟨d, hd, hnext⟩ := next_eq_some.mp link
    rw [on_heap_of_none fresh, List.getElem?_append_left before.lt] at hd
    obtain ⟨later, lt⟩ := h.next a b before (next_eq_some.mpr ⟨d, hd, hnext⟩)
    exact ⟨(old b).mpr later, lt⟩

theorem foreign_on (notOurs : own cb = false) (remove : Bool) (a : ℕ) :
    Foreign own (E.on name cb remove).heap a ↔ Foreign own E.heap a ∨ a = E.heap.length := by
  rw [on_heap]
  cases (E.eventHandles name).bind Handles.e with
  | none => simp [foreign_append, notOurs]
  | some t => simp [foreign_setNext, foreign_append, notOurs]

omit [DecidableEq Name] in
/-- The last node of a foreign list. -/
theorem Apart.tail (h : Apart ownName own E) (nameNotOurs : ownName name = false) {t : ℕ}
    (last : (E.eventHandles name).bind Handles.e = some t) : Foreign own E.heap t := by
  obtain ⟨hd, hhd, he⟩ := Option.bind_eq_some_iff.mp last
  exact h.handles name hd nameNotOurs hhd t (.inr he)

/-- After `on` a link is an old one, or leads from the last node of the list to the new
node. -/
theorem on_next_eq_some
    (tail : ∀ t, (E.eventHandles name).bind Handles.e = some t → t < E.heap.length)
    {remove : Bool} {a b : ℕ} (link : (E.on name cb remove).next a = some b) :
    E.next a = some b ∨ a < b ∧ b = E.heap.length := by
  rcases Nat.lt_or_ge a E.heap.length with lt | ge
  · by_cases last : (E.eventHandles name).bind Handles.e = some a
    · rw [on_next_last lt last] at link
      exact .inr ⟨Option.some.inj link ▸ lt, (Option.some.inj link).symm⟩
    · rw [on_next_of_ne lt last] at link
      exact .inl link
  · -- The new node has no link.
    have fresh : (E.eventHandles name).bind Handles.e ≠ some E.heap.length :=
      fun last => Nat.lt_irrefl _ (tail _ last)
    obtain ⟨d, node, hnext⟩ := next_eq_some.mp link
    have isNew : a = E.heap.length := by
      have lt := (List.getElem?_eq_some_iff.mp node).1
      rw [on_heap] at lt
      cases last : (E.eventHandles name).bind Handles.e <;>
        simp [last, setNext] at lt <;> omega
    rw [isNew, on_new fresh] at node
    rw [← Option.some.inj node] at hnext
    cases hnext

/-- The other party registers under a name of its own: the first party sees nothing of it. -/
theorem Apart.on_sameOwn (h : Apart ownName own E) (notOurs : own cb = false)
    (nameNotOurs : ownName name = false) (remove : Bool) :
    SameOwn ownName own E (E.on name cb remove) where
  heap a d node ours := by
    have old : (E.heap ++ [⟨cb, none, remove⟩])[a]? = some d := by
      rw [List.getElem?_append_left (List.getElem?_eq_some_iff.mp node).1, node]
    rw [on_heap]
    cases last : (E.eventHandles name).bind Handles.e with
    | none => exact old
    | some t =>
        -- The node that is linked to the new one is not of the first party.
        obtain ⟨d', node', other⟩ := h.tail nameNotOurs last
        have ne : t ≠ a := by
          rintro rfl
          rw [node] at node'
          rw [Option.some.inj node', other] at ours
          cases ours
        rw [getElem?_setNext, if_neg ne, old]
  handles _ ours := on_handles_of_ne (ne_of_owner ours nameNotOurs)
  foreign a node := (foreign_on notOurs remove a).mpr (.inl node)

theorem Apart.on_foreign (h : Apart ownName own E) (notOurs : own cb = false)
    (nameNotOurs : ownName name = false) (remove : Bool) : Apart ownName own (E.on name cb remove)
    where
  handles other hd notOurs' handles a ha := by
    rw [foreign_on notOurs]
    by_cases same : other = name
    · subst same
      rw [on_handles] at handles
      obtain rfl := Option.some.inj handles
      rcases ha with first | last
      · simp only at first
        split at first
        · exact .inr (Option.some.inj first).symm
        · obtain ⟨hd, hhd, hs⟩ := Option.bind_eq_some_iff.mp first
          exact .inl (h.handles other hd notOurs' hhd a (.inl hs))
      · exact .inr (Option.some.inj last).symm
    · rw [on_handles_of_ne same] at handles
      exact .inl (h.handles other hd notOurs' handles a ha)
  next a b node link := by
    rw [foreign_on notOurs]
    rcases on_next_eq_some (fun t last => (h.tail nameNotOurs last).lt) link with old | ⟨lt, new⟩
    · rcases (foreign_on notOurs remove a).mp node with before | new
      · obtain ⟨later, lt⟩ := h.next a b before old
        exact ⟨.inl later, lt⟩
      · obtain ⟨d, hd, -⟩ := next_eq_some.mp old
        exact absurd (List.getElem?_eq_some_iff.mp hd).1 (new ▸ Nat.lt_irrefl _)
    · exact ⟨.inr new, lt⟩

/-- All nodes that a value of `s`, `e` or a link may lead to are foreign. -/
def ForeignOrNone (own : Cb → Bool) (heap : List (Dat Cb)) (p : Option ℕ) : Prop :=
  ∀ a, p = some a → Foreign own heap a

/-- Handles and counters of a foreign name are changed. -/
theorem Apart.adjust (h : Apart ownName own E) (nameNotOurs : ownName name = false) {hd : Handles}
    (s : ForeignOrNone own E.heap hd.s) (e : ForeignOrNone own E.heap hd.e) (k : ℕ) :
    Apart ownName own (E.adjust name hd k) ∧ SameOwn ownName own E (E.adjust name hd k) := by
  refine ⟨⟨?_, h.next⟩, fun _ _ node _ => node, ?_, fun _ node => node⟩
  · intro other hd' notOurs handles a ha
    by_cases same : other = name
    · subst same
      rw [adjust_eventHandles] at handles
      obtain rfl := Option.some.inj handles
      exact ha.elim (s a) (e a)
    · rw [adjust_eventHandles_of_ne same] at handles
      exact h.handles other hd' notOurs handles a ha
  · intro other ours
    exact adjust_eventHandles_of_ne (ne_of_owner ours nameNotOurs) hd k

/-- Handles and counters of an own name are changed. -/
theorem Apart.adjust_own (h : Apart ownName own E) (nameOurs : ownName name = true) (hd : Handles)
    (k : ℕ) : Apart ownName own (E.adjust name hd k) where
  handles other hd' notOurs handles a ha := by
    rw [adjust_eventHandles_of_ne (ne_of_owner nameOurs notOurs).symm] at handles
    exact h.handles other hd' notOurs handles a ha
  next := h.next

/-- `_remove` of a node in a foreign list. -/
theorem Apart.remove (h : Apart ownName own E) (nameNotOurs : ownName name = false) {a : ℕ}
    (node : Foreign own E.heap a) {p : Option ℕ} (hp : ForeignOrNone own E.heap p) {hd : Handles}
    (handles : E.eventHandles name = some hd) :
    ∃ hd', E.remove name a p = .ok (E.adjust name hd' 1) ∧ Apart ownName own (E.adjust name hd' 1) ∧
      SameOwn ownName own E (E.adjust name hd' 1) := by
  refine ⟨_, remove_eq handles a p, h.adjust nameNotOurs ?_ ?_ 1⟩
  · intro b hb
    simp only at hb
    split at hb
    · exact (h.next a b node hb).1
    · exact h.handles name hd nameNotOurs handles b (.inl hb)
  · intro b hb
    simp only at hb
    split at hb
    · exact hp b hb
    · exact h.handles name hd nameNotOurs handles b (.inr hb)

section RemoveListener

variable {takes : Dat Cb → Bool} {calls : Dat Cb → List (Call Cb Data)}

/-- The rest of a walk over a foreign list. The links lead upwards in the heap, so that
the walk comes to an end. -/
theorem Apart.iterator (nameNotOurs : ownName name = false) :
    ∀ (fuel : ℕ) (E : EventEmitter Name Cb) (done : List (Call Cb Data)) (h p : Option ℕ),
      Apart ownName own E → E.eventHandles name ≠ none → ForeignOrNone own E.heap p →
      (∀ a, h = some a → Foreign own E.heap a ∧ E.heap.length ≤ fuel + a) →
      ∃ E' done', Events.EventEmitter.iterator (fun st => st.1.next) (visit name takes id calls)
        fuel
          (E, done) h p = .ok (E', done') ∧
        Apart ownName own E' ∧ SameOwn ownName own E E' := by
  intro fuel
  induction fuel with
  | zero =>
      intro E done h p apart _ _ bound
      cases h with
      | none => exact ⟨E, done, rfl, apart, .refl E⟩
      | some a =>
          obtain ⟨node, le⟩ := bound a rfl
          have := node.lt
          omega
  | succ fuel ih =>
      intro E done h p apart known hp bound
      cases h with
      | none => exact ⟨E, done, rfl, apart, .refl E⟩
      | some a =>
          obtain ⟨node, le⟩ := bound a rfl
          obtain ⟨d, stored, -⟩ := id node
          have onwards : ∀ b, E.next a = some b →
              Foreign own E.heap b ∧ E.heap.length ≤ fuel + b := by
            intro b link
            obtain ⟨later, lt⟩ := apart.next a b node link
            exact ⟨later, by omega⟩
          cases taken : takes d with
          | false =>
              obtain ⟨E', done', run, rest⟩ :=
                  ih E (done ++ calls d) (E.next a) (some a) apart known
                (fun b hb => Option.some.inj hb ▸ node) onwards
              refine ⟨E', done', ?_, rest⟩
              simp [EventEmitter.iterator, visit_kept stored taken, bind, Except.bind, run]
          | true =>
              obtain ⟨hd, handles⟩ := Option.ne_none_iff_exists'.mp known
              obtain ⟨hd', removed, apart', same⟩ := apart.remove nameNotOurs node hp handles
              obtain ⟨E', done', run, apart'', same'⟩ := ih (E.adjust name hd' 1) (done ++ calls d)
                (E.next a) p apart' (by simp) hp onwards
              refine ⟨E', done', ?_, apart'', same.trans same'⟩
              simp [EventEmitter.iterator, visit, stored, taken, removed, bind, Except.bind, pure,
                Except.pure, run]

/-- `removeListener` of a foreign name. -/
theorem Apart.removeListener [DecidableEq Cb] (Data : Type) (h : Apart ownName own E)
    (nameNotOurs : ownName name = false) (cb : Option Cb) :
    ∃ E' done,
      (E.removeListener name cb : Except Fault (_ × List (Call Cb Data))) = .ok (E', done) ∧
      Apart ownName own E' ∧ SameOwn ownName own E E' := by
  unfold EventEmitter.removeListener walk
  cases handles : E.eventHandles name with
  | none => exact ⟨E, [], rfl, h, .refl E⟩
  | some hd =>
      refine Apart.iterator nameNotOurs _ E [] hd.s none h (by simp [handles]) nofun fun a ha => ?_
      exact ⟨h.handles name hd nameNotOurs handles a (.inl ha), Nat.le_add_right _ _⟩

end RemoveListener

end ThreadJs.Events
