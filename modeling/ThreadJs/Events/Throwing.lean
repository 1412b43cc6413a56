import ThreadJs.Events.Refinement

/-!
`emit` with callbacks that throw.

An exception ends the walk at the node whose callback has thrown, after the node was taken
out if it is for once. Seen as a list, a name loses the once entries that lead it, up to the
one that has thrown, and nothing behind the first entry that stays (`Passes`). Emitters
that hold the entries of a registry emit as its lists do (`Emits.passes`, `Passes.emits`).
-/

namespace ThreadJs.Events

/-- How the call of a callback ends, or an `emit`. -/
inductive Outcome where
  | returns
  | throws
  /-- What is thrown has no properties, or its properties cannot be sent. -/
  | escapes
  deriving DecidableEq

variable {Name Cb : Type} (may : Cb → Outcome → Prop)

/-! ### The emitter -/

section Emitter

variable [DecidableEq Name]

/-- `if (h.remove) _remove(h)`. -/
def EventEmitter.unlist (E : EventEmitter Name Cb) (name : Name) (h : ℕ) (d : Dat Cb) :
    Except Fault (EventEmitter Name Cb) :=
  if d.remove then E.remove name h none else .ok E

/-- The walk of `emit` from `h` on, with the emitter it leaves; every callback ends in one of
the ways it may. -/
inductive Calling (name : Name) :
    EventEmitter Name Cb → Option ℕ → EventEmitter Name Cb → Outcome → Prop where
  | done {E : EventEmitter Name Cb} : Calling name E none E .returns
  | returns {E E₁ E' : EventEmitter Name Cb} {h : ℕ} {d : Dat Cb} {o : Outcome} :
      E.heap[h]? = some d → E.unlist name h d = .ok E₁ → may d.cb .returns →
      Calling name E₁ (E₁.next h) E' o → Calling name E (some h) E' o
  | throws {E E' : EventEmitter Name Cb} {h : ℕ} {d : Dat Cb} {o : Outcome} :
      E.heap[h]? = some d → E.unlist name h d = .ok E' → may d.cb o → o ≠ .returns →
      Calling name E (some h) E' o

/-- `emit(name, data)`. -/
def Emits (E : EventEmitter Name Cb) (name : Name) (E' : EventEmitter Name Cb)
    (o : Outcome) : Prop :=
  match E.eventHandles name with
  | none => E' = E ∧ o = .returns
  | some hd => Calling may name E hd.s E' o

end Emitter

/-! ### Its lists -/

/-- How a walk over a list can end. -/
inductive Ends : List (Entry Cb) → Outcome → Prop where
  | done : Ends [] .returns
  | returns {e : Entry Cb} {es : List (Entry Cb)} {o : Outcome} :
      may e.cb .returns → Ends es o → Ends (e :: es) o
  | throws {e : Entry Cb} {es : List (Entry Cb)} {o : Outcome} :
      may e.cb o → o ≠ .returns → Ends (e :: es) o

/-- The same with the list that is left. -/
inductive Passes : List (Entry Cb) → List (Entry Cb) → Outcome → Prop where
  | done : Passes [] [] .returns
  | returns {e : Entry Cb} {es left : List (Entry Cb)} {o : Outcome} :
      e.once = true → may e.cb .returns → Passes es left o → Passes (e :: es) left o
  | throws {e : Entry Cb} {es : List (Entry Cb)} {o : Outcome} :
      e.once = true → may e.cb o → o ≠ .returns → Passes (e :: es) es o
  | stays {e : Entry Cb} {es : List (Entry Cb)} {o : Outcome} :
      e.once = false → Ends may (e :: es) o → Passes (e :: es) (e :: es) o

section Lists

variable {may} {es left : List (Entry Cb)} {o : Outcome}

theorem Passes.length_le (passes : Passes may es left o) : left.length ≤ es.length := by
  induction passes with
  | done => exact Nat.le_refl _
  | returns _ _ _ ih => exact Nat.le_succ_of_le ih
  | throws => exact Nat.le_succ _
  | stays => exact Nat.le_refl _

theorem Passes.ends (passes : Passes may es left o) : Ends may es o := by
  induction passes with
  | done => exact .done
  | returns _ mayReturn _ ih => exact .returns mayReturn ih
  | throws _ mayThrow thrown => exact .throws mayThrow thrown
  | stays _ ends => exact ends

theorem Ends.passes (ends : Ends may es o) : ∃ left, Passes may es left o := by
  induction ends with
  | done => exact ⟨[], .done⟩
  | @returns e es o mayReturn ends ih =>
      cases once : e.once with
      | true =>
          obtain ⟨left, passes⟩ := ih
          exact ⟨left, .returns once mayReturn passes⟩
      | false => exact ⟨_, .stays once (.returns mayReturn ends)⟩
  | @throws e es o mayThrow thrown =>
      cases once : e.once with
      | true => exact ⟨es, .throws once mayThrow thrown⟩
      | false => exact ⟨_, .stays once (.throws mayThrow thrown)⟩

end Lists

/-- The lists of the emitter are the cells. -/
def Linked (E : EventEmitter Name Cb) (cells : Name → List (ℕ × Entry Cb)) : Prop :=
  ∀ name, Chain E.next (E.first name) (addrs (cells name)) ∧ Stored E (cells name) ∧
    (addrs (cells name)).Nodup

/-- The lists of the emitter are those of the registry. -/
def Holds (E : EventEmitter Name Cb) (r : Registry Name Cb) : Prop :=
  ∃ cells, Linked E cells ∧ ∀ name, (cells name).map Prod.snd = r name

theorem Refines.holds {E : EventEmitter Name Cb} {r : Registry Name Cb} (h : Refines E r) :
    Holds E r := by
  obtain ⟨cells, rep, entries⟩ := h
  exact ⟨cells, fun name => ⟨rep.chain name, rep.stored name, rep.nodup name⟩, entries⟩

/-- What a walk does to an emitter: the list of the name begins at `s`. -/
structure Shifted (name : Name) (E E' : EventEmitter Name Cb) (s : Option ℕ) : Prop where
  heap : E'.heap = E.heap
  others : ∀ m, m ≠ name → E'.eventHandles m = E.eventHandles m
  handles : ∃ e, E'.eventHandles name = some ⟨s, e⟩

namespace Shifted

variable {name : Name} {E E₁ E' : EventEmitter Name Cb} {s s' : Option ℕ}

theorem refl {e : Option ℕ} (handles : E.eventHandles name = some ⟨s, e⟩) : Shifted name E E s :=
  ⟨rfl, fun _ _ => rfl, e, handles⟩

theorem trans (first : Shifted name E E₁ s') (later : Shifted name E₁ E' s) :
    Shifted name E E' s where
  heap := later.heap.trans first.heap
  others m ne := (later.others m ne).trans (first.others m ne)
  handles := later.handles

theorem next (h : Shifted name E E' s) : E'.next = E.next := by
  funext a
  rw [EventEmitter.next, h.heap]
  rfl

theorem first (h : Shifted name E E' s) : E'.first name = s := by
  obtain ⟨e, handles⟩ := h.handles
  rw [EventEmitter.first, handles]
  rfl

theorem stored (h : Shifted name E E' s) {cs : List (ℕ × Entry Cb)} (stored : Stored E cs) :
    Stored E' cs := by
  intro c hc
  rw [h.heap]
  exact stored c hc

end Shifted

section Walk

variable [DecidableEq Name] {may} {name : Name} {E E' : EventEmitter Name Cb} {o : Outcome}

theorem unlist_eq {s e : Option ℕ} (handles : E.eventHandles name = some ⟨s, e⟩) (h : ℕ)
    (d : Dat Cb) :
    ∃ E₁, E.unlist name h d = .ok E₁ ∧
      Shifted name E E₁ (if d.remove = true ∧ some h = s then E.next h else s) := by
  cases once : d.remove with
  | false =>
      refine ⟨E, by simp [EventEmitter.unlist, once], ?_⟩
      simpa using Shifted.refl handles
  | true =>
      refine ⟨_, by rw [EventEmitter.unlist, if_pos once, EventEmitter.remove_eq handles], ?_⟩
      constructor
      · rfl
      · intro m ne
        exact EventEmitter.adjust_eventHandles_of_ne ne ..
      · simp

/-- Behind the first node of the list nothing leaves it. -/
theorem Calling.behind {cs : List (ℕ × Entry Cb)} {h s e : Option ℕ}
    (calling : Calling may name E h E' o) (chain : Chain E.next h (addrs cs)) (stored : Stored E cs)
    (handles : E.eventHandles name = some ⟨s, e⟩) (behind : ∀ a ∈ addrs cs, some a ≠ s) :
    Ends may (cs.map Prod.snd) o ∧ Shifted name E E' s := by
  induction cs generalizing E h e with
  | nil =>
      obtain rfl := Chain.nil_iff.mp chain
      cases calling with
      | done => exact ⟨.done, .refl handles⟩
  | cons c cs ih =>
      obtain ⟨rfl, tail⟩ := Chain.cons_iff.mp chain
      obtain ⟨d, node, entry⟩ := stored c List.mem_cons_self
      have isCb : d.cb = c.2.cb := congrArg Entry.cb entry
      obtain ⟨E₁, unlisted, shifted⟩ := unlist_eq handles c.1 d
      rw [if_neg fun both => behind c.1 List.mem_cons_self both.2] at shifted
      cases calling with
      | returns node' unlisted' mayReturn rest =>
          obtain rfl := Option.some.inj (node.symm.trans node')
          obtain rfl := Except.ok.inj (unlisted.symm.trans unlisted')
          obtain ⟨e', handles'⟩ := shifted.handles
          rw [shifted.next] at rest
          obtain ⟨ends, after⟩ := ih rest (shifted.next.symm ▸ tail)
            (shifted.stored fun x hx => stored x (List.mem_cons_of_mem _ hx)) handles'
            fun a ha => behind a (List.mem_cons_of_mem _ ha)
          exact ⟨.returns (isCb ▸ mayReturn) ends, shifted.trans after⟩
      | throws node' unlisted' mayThrow thrown =>
          obtain rfl := Option.some.inj (node.symm.trans node')
          obtain rfl := Except.ok.inj (unlisted.symm.trans unlisted')
          exact ⟨.throws (isCb ▸ mayThrow) thrown, shifted⟩

/-- A walk can end as the list lets it. -/
theorem Ends.calling {cs : List (ℕ × Entry Cb)} {h s e : Option ℕ}
    (ends : Ends may (cs.map Prod.snd) o) (chain : Chain E.next h (addrs cs)) (stored : Stored E cs)
    (handles : E.eventHandles name = some ⟨s, e⟩) : ∃ E', Calling may name E h E' o := by
  induction cs generalizing E h s e with
  | nil =>
      obtain rfl := Chain.nil_iff.mp chain
      cases ends with
      | done => exact ⟨E, .done⟩
  | cons c cs ih =>
      obtain ⟨rfl, tail⟩ := Chain.cons_iff.mp chain
      obtain ⟨d, node, entry⟩ := stored c List.mem_cons_self
      have isCb : d.cb = c.2.cb := congrArg Entry.cb entry
      obtain ⟨E₁, unlisted, shifted⟩ := unlist_eq handles c.1 d
      cases ends with
      | returns mayReturn rest =>
          obtain ⟨e', handles'⟩ := shifted.handles
          have tail' : Chain E₁.next (E₁.next c.1) (addrs cs) := by
            rw [shifted.next]
            exact tail
          obtain ⟨E', calling⟩ := ih rest tail'
            (shifted.stored fun x hx => stored x (List.mem_cons_of_mem _ hx)) handles'
          exact ⟨E', .returns node unlisted (isCb ▸ mayReturn) calling⟩
      | throws mayThrow thrown => exact ⟨E₁, .throws node unlisted (isCb ▸ mayThrow) thrown⟩

/-- The walk of `emit` over a list. -/
theorem Calling.passes {cs : List (ℕ × Entry Cb)} {h e : Option ℕ}
    (calling : Calling may name E h E' o) (chain : Chain E.next h (addrs cs)) (stored : Stored E cs)
    (nodup : (addrs cs).Nodup) (handles : E.eventHandles name = some ⟨h, e⟩) :
    ∃ left, left <:+ cs ∧ Passes may (cs.map Prod.snd) (left.map Prod.snd) o ∧
      Shifted name E E' (addrs left).head? := by
  induction cs generalizing E h e with
  | nil =>
      obtain rfl := Chain.nil_iff.mp chain
      cases calling with
      | done => exact ⟨[], List.suffix_refl _, .done, .refl handles⟩
  | cons c cs ih =>
      have whole := calling
      obtain ⟨rfl, tail⟩ := Chain.cons_iff.mp chain
      obtain ⟨d, node, entry⟩ := stored c List.mem_cons_self
      have isCb : d.cb = c.2.cb := congrArg Entry.cb entry
      have isOnce : d.remove = c.2.once := congrArg Entry.once entry
      obtain ⟨notIn, nodup'⟩ := List.nodup_cons.mp nodup
      cases once : c.2.once with
      | false =>
          -- The first node stays, and so do all behind it.
          have behind : Ends may ((c :: cs).map Prod.snd) o ∧ Shifted name E E' (some c.1) := by
            have stays : ∀ {E₁}, E.unlist name c.1 d = .ok E₁ → E₁ = E := by
              intro E₁ unlisted
              rw [EventEmitter.unlist, isOnce, once] at unlisted
              exact (Except.ok.inj unlisted).symm
            cases calling with
            | returns node' unlisted mayReturn rest =>
                obtain rfl := Option.some.inj (node.symm.trans node')
                obtain rfl := stays unlisted
                obtain ⟨ends, shifted⟩ := rest.behind tail
                  (fun x hx => stored x (List.mem_cons_of_mem _ hx)) handles
                  fun a ha same => notIn (Option.some.inj same ▸ ha)
                exact ⟨.returns (isCb ▸ mayReturn) ends, shifted⟩
            | throws node' unlisted mayThrow thrown =>
                obtain rfl := Option.some.inj (node.symm.trans node')
                obtain rfl := stays unlisted
                exact ⟨.throws (isCb ▸ mayThrow) thrown, .refl handles⟩
          exact ⟨c :: cs, List.suffix_refl _, .stays once behind.1, behind.2⟩
      | true =>
          obtain ⟨E₁, unlisted, shifted⟩ := unlist_eq handles c.1 d
          rw [if_pos ⟨isOnce.trans once, rfl⟩] at shifted
          cases calling with
          | returns node' unlisted' mayReturn rest =>
              obtain rfl := Option.some.inj (node.symm.trans node')
              obtain rfl := Except.ok.inj (unlisted.symm.trans unlisted')
              obtain ⟨e', handles'⟩ := shifted.handles
              rw [shifted.next] at rest
              obtain ⟨left, suffix, passes, after⟩ := ih rest (shifted.next.symm ▸ tail)
                (shifted.stored fun x hx => stored x (List.mem_cons_of_mem _ hx)) nodup' handles'
              exact ⟨left, suffix.trans (List.suffix_cons _ _),
                .returns once (isCb ▸ mayReturn) passes, shifted.trans after⟩
          | throws node' unlisted' mayThrow thrown =>
              obtain rfl := Option.some.inj (node.symm.trans node')
              obtain rfl := Except.ok.inj (unlisted.symm.trans unlisted')
              refine ⟨cs, List.suffix_cons _ _, .throws once (isCb ▸ mayThrow) thrown, ?_⟩
              rw [tail.head?_eq]
              exact shifted

theorem Passes.calling {cs : List (ℕ × Entry Cb)} {left : List (Entry Cb)} {h e : Option ℕ}
    (passes : Passes may (cs.map Prod.snd) left o) (chain : Chain E.next h (addrs cs))
    (stored : Stored E cs) (nodup : (addrs cs).Nodup)
    (handles : E.eventHandles name = some ⟨h, e⟩) :
    ∃ E' cs', cs' <:+ cs ∧ cs'.map Prod.snd = left ∧ Calling may name E h E' o ∧
      Shifted name E E' (addrs cs').head? := by
  induction cs generalizing E h e with
  | nil =>
      obtain rfl := Chain.nil_iff.mp chain
      cases passes with
      | done => exact ⟨E, [], List.suffix_refl _, rfl, .done, .refl handles⟩
  | cons c cs ih =>
      obtain ⟨isFirst, tail⟩ := Chain.cons_iff.mp chain
      obtain ⟨d, node, entry⟩ := stored c List.mem_cons_self
      have isCb : d.cb = c.2.cb := congrArg Entry.cb entry
      have isOnce : d.remove = c.2.once := congrArg Entry.once entry
      cases passes with
      | stays once ends =>
          have ends : Ends may ((c :: cs).map Prod.snd) o := ends
          obtain ⟨E', calling⟩ := ends.calling chain stored handles
          obtain ⟨left, suffix, passes, shifted⟩ := calling.passes chain stored nodup handles
          have same : left = c :: cs := by
            refine suffix.eq_of_length ?_
            generalize hleft : left.map Prod.snd = entries at passes
            cases passes with
            | stays => simpa using congrArg List.length hleft
            | returns once' => rw [once] at once'; cases once'
            | throws once' => rw [once] at once'; cases once'
          exact ⟨E', c :: cs, List.suffix_refl _, rfl, calling, same ▸ shifted⟩
      | returns once mayReturn rest =>
          subst isFirst
          obtain ⟨E₁, unlisted, shifted⟩ := unlist_eq handles c.1 d
          rw [if_pos ⟨isOnce.trans once, rfl⟩] at shifted
          obtain ⟨e', handles'⟩ := shifted.handles
          have tail' : Chain E₁.next (E₁.next c.1) (addrs cs) := by
            rw [shifted.next]
            exact tail
          rw [← shifted.next] at handles'
          obtain ⟨E', cs', suffix, entries, calling, after⟩ := ih rest tail'
            (shifted.stored fun x hx => stored x (List.mem_cons_of_mem _ hx))
            (List.nodup_cons.mp nodup).2 handles'
          exact ⟨E', cs', suffix.trans (List.suffix_cons _ _), entries,
            .returns node unlisted (isCb ▸ mayReturn) calling, shifted.trans after⟩
      | throws once mayThrow thrown =>
          subst isFirst
          obtain ⟨E₁, unlisted, shifted⟩ := unlist_eq handles c.1 d
          rw [if_pos ⟨isOnce.trans once, rfl⟩, ← tail.head?_eq] at shifted
          exact ⟨E₁, cs, List.suffix_cons _ _, rfl,
            .throws node unlisted (isCb ▸ mayThrow) thrown, shifted⟩

omit [DecidableEq Name] in
theorem Linked.nil {cells : Name → List (ℕ × Entry Cb)} (linked : Linked E cells)
    (none : E.eventHandles name = none) : cells name = [] := by
  have chain := (linked name).1
  rw [EventEmitter.first, none] at chain
  simpa using chain.head?_eq

/-- A list that begins later is a list. -/
theorem Linked.shifted {cells : Name → List (ℕ × Entry Cb)} (linked : Linked E cells)
    {left : List (ℕ × Entry Cb)} (suffix : left <:+ cells name)
    (shifted : Shifted name E E' (addrs left).head?) :
    Linked E' (Function.update cells name left) := by
  intro m
  rw [shifted.next]
  by_cases same : m = name
  · subst same
    rw [Function.update_self, shifted.first]
    obtain ⟨chain, stored, nodup⟩ := linked m
    have addresses : addrs left <:+ addrs (cells m) := suffix.map Prod.fst
    exact ⟨chain.suffix addresses, shifted.stored fun c hc => stored c (suffix.subset hc),
      nodup.sublist addresses.sublist⟩
  · rw [Function.update_of_ne same, EventEmitter.first, shifted.others m same]
    obtain ⟨chain, stored, nodup⟩ := linked m
    exact ⟨chain, shifted.stored stored, nodup⟩

theorem map_update {cells : Name → List (ℕ × Entry Cb)} {r : Registry Name Cb}
    (entries : ∀ m, (cells m).map Prod.snd = r m) (left : List (ℕ × Entry Cb)) (m : Name) :
    (Function.update cells name left m).map Prod.snd =
      Function.update r name (left.map Prod.snd) m := by
  by_cases same : m = name
  · rw [same, Function.update_self, Function.update_self]
  · rw [Function.update_of_ne same, Function.update_of_ne same, entries]

/-- What an `emit` does is what its list lets it do. -/
theorem Emits.passes {r : Registry Name Cb} (holds : Holds E r) (emits : Emits may E name E' o) :
    ∃ left, Passes may (r name) left o ∧ Holds E' (Function.update r name left) := by
  obtain ⟨cells, linked, entries⟩ := holds
  cases handles : E.eventHandles name with
  | none =>
      rw [Emits, handles] at emits
      obtain ⟨rfl, rfl⟩ := emits
      have nil : r name = [] := by rw [← entries, linked.nil handles, List.map_nil]
      refine ⟨[], by rw [nil]; exact .done, cells, linked, fun m => ?_⟩
      rw [← nil, Function.update_eq_self, entries]
  | some hd =>
      rw [Emits, handles] at emits
      obtain ⟨chain, stored, nodup⟩ := linked name
      rw [EventEmitter.first, handles] at chain
      obtain ⟨left, suffix, passes, shifted⟩ := emits.passes chain stored nodup handles
      exact ⟨left.map Prod.snd, entries name ▸ passes, _, linked.shifted suffix shifted,
        map_update entries left⟩

theorem Passes.emits {r : Registry Name Cb} (holds : Holds E r) {left : List (Entry Cb)}
    (passes : Passes may (r name) left o) :
    ∃ E', Emits may E name E' o ∧ Holds E' (Function.update r name left) := by
  obtain ⟨cells, linked, entries⟩ := holds
  cases handles : E.eventHandles name with
  | none =>
      have nil : r name = [] := by rw [← entries, linked.nil handles, List.map_nil]
      rw [nil] at passes
      cases passes with
      | done =>
          refine ⟨E, by rw [Emits, handles]; exact ⟨rfl, rfl⟩, cells, linked, fun m => ?_⟩
          rw [← nil, Function.update_eq_self, entries]
  | some hd =>
      obtain ⟨chain, stored, nodup⟩ := linked name
      rw [EventEmitter.first, handles] at chain
      rw [← entries name] at passes
      obtain ⟨E', cs', suffix, rfl, calling, shifted⟩ := passes.calling chain stored nodup handles
      exact ⟨E', by rw [Emits, handles]; exact calling, _, linked.shifted suffix shifted,
        map_update entries cs'⟩

end Walk

end ThreadJs.Events
