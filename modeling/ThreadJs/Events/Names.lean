import ThreadJs.Events.Realm
import ThreadJs.Events.Refinement

/-!
What one event name can do to another.

As long as no listener is registered under a name of `Object.prototype`, every name of
every emitter has its own list of nodes (`Linked`), and an operation on one name leaves
all other lists alone. The first registration under such a name is found by every emitter.
-/

namespace ThreadJs.Events

open Js (objectPrototype)
open Function

variable {Cb Data : Type}

namespace Realm

/-- The listeners that `emit(name)` calls. -/
def calls (R : Realm Cb) (A : ℕ) (name : String) : Except Fault (List Cb) :=
  (R.emit A name ()).map fun r => r.2.map Prod.fst

/-- `removeAllListeners` is about all names. -/
def touches : Op String Cb Data → String → Bool
  | .on name _, m | .once name _, m | .removeListener name _, m | .emit name _, m => m == name
  | .removeAllListeners, _ => true

/-- What the operation registers. -/
def registers : Op String Cb Data → Option (String × Cb)
  | .on name cb | .once name cb => some (name, cb)
  | .removeListener _ _ | .removeAllListeners | .emit _ _ => none

/-- The operation on the emitter `A` changes neither the listeners nor the count of any
other name, and what it registers is called and counted. -/
structure Respects (R : Realm Cb) (A : ℕ) (op : Op String Cb Data) (R' : Realm Cb) : Prop where
  others : ∀ B m, m ≠ "" → B ≠ A ∨ touches op m = false →
    R'.calls B m = R.calls B m ∧ R'.listenerCount B m = R.listenerCount B m
  registered : ∀ name cb, registers op = some (name, cb) → name ≠ "" →
    (∃ cbs, R'.calls A name = .ok cbs ∧ cb ∈ cbs) ∧
      ∃ n, R.listenerCount A name = .number n ∧ R'.listenerCount A name = .number (n + 1)

/-- Every operation of a history returns and respects the other names. -/
def Isolates [DecidableEq Cb] : Realm Cb → List (ℕ × Op String Cb Data) → Prop
  | _, [] => True
  | R, (A, op) :: ops => ∃ r, R.step A op = .ok r ∧ Respects R A op r.1 ∧ Isolates r.1 ops

/-- The operation does not register under a name of `Object.prototype`. -/
def Ordinary (op : Op String Cb Data) : Prop :=
  ∀ name cb, registers op = some (name, cb) → name ∉ objectPrototype

/-! ### One list for each name -/

/-- `L A name` are the nodes of the list of a name. -/
structure Linked (R : Realm Cb) (L : ℕ → String → List ℕ) : Prop where
  /-- Nothing is set on the functions of `Object.prototype`, nor on it. -/
  clean : ∀ name, R.slots (.member name) = ⟨none, none⟩
  ordinary : ∀ A name, R.entries A name = true → name ∉ objectPrototype
  absent : ∀ A name, R.entries A name = false → L A name = []
  list : ∀ A name, R.entries A name = true → ∃ s e, R.slots (.entry A name) = ⟨some s, some e⟩ ∧
    Chain R.next s (L A name) ∧ ∀ t ∈ e, t ∈ L A name
  lt : ∀ A name, ∀ a ∈ L A name, a < R.heap.length
  nodup : ∀ A name, (L A name).Nodup
  apart : ∀ A name B m a, a ∈ L A name → a ∈ L B m → A = B ∧ name = m
  numbers : ∀ A name, R.eventCount A name ≠ some .object

theorem linked_new : Linked (new : Realm Cb) fun _ _ => [] where
  clean _ := rfl
  ordinary A name h := by cases h
  absent _ _ _ := rfl
  list A name h := by cases h
  lt A name a h := by cases h
  nodup _ _ := .nil
  apart A name B m a h := by cases h
  numbers A name h := by cases h

section Lookup

variable {R : Realm Cb} {A : ℕ} {name : String}

theorem holder_entry (h : R.entries A name = true) : R.holder A name = some (.entry A name) := by
  rw [holder, if_pos h]

/-- Without an entry, what is found has an empty list. -/
theorem Linked.holder_absent {L : ℕ → String → List ℕ} (linked : Linked R L)
    (h : R.entries A name = false) : R.holder A name = none ∧ name ∉ objectPrototype ∨
      R.holder A name = some (.member name) ∧ name ∈ objectPrototype := by
  have unset : ∀ field : Slots → Option (Option ℕ), field ⟨none, none⟩ = none →
      R.get proto field = none := by
    intro field nothing
    rw [get, linked.clean, nothing]
    rfl
  rw [holder, if_neg (by simp [h])]
  by_cases known : name ∈ objectPrototype
  · exact .inr ⟨if_pos known, known⟩
  · refine .inl ⟨?_, known⟩
    rw [if_neg known, unset Slots.s rfl, unset Slots.e rfl]
    simp

theorem Linked.get_member {L : ℕ → String → List ℕ} (linked : Linked R L)
    {field : Slots → Option (Option ℕ)} (nothing : field ⟨none, none⟩ = none) :
    R.get (.member name) field = none := by
  rw [get, linked.clean, linked.clean, nothing]
  rfl

theorem get_entry {s e : Option ℕ} (h : R.slots (.entry A name) = ⟨some s, some e⟩) :
    R.get (.entry A name) Slots.s = s ∧ R.get (.entry A name) Slots.e = e := by
  simp [get, h]

end Lookup

/-! ### Walks -/

/-- What a walk over the list of a name can change. -/
structure Walked (A : ℕ) (name : String) (R R' : Realm Cb) : Prop where
  heap : R'.heap = R.heap
  entries : R'.entries = R.entries
  slots : ∀ o, o ≠ .entry A name → R'.slots o = R.slots o
  counts : ∀ B m, B ≠ A ∨ m ≠ name → R'.eventCount B m = R.eventCount B m
  numbers : (∀ B m, R.eventCount B m ≠ some .object) → ∀ B m, R'.eventCount B m ≠ some .object

theorem Walked.refl (A : ℕ) (name : String) (R : Realm Cb) : Walked A name R R :=
  ⟨rfl, rfl, fun _ _ => rfl, fun _ _ _ => rfl, fun h => h⟩

theorem Walked.trans {A : ℕ} {name : String} {R R' R'' : Realm Cb} (h : Walked A name R R')
    (h' : Walked A name R' R'') : Walked A name R R'' where
  heap := h'.heap.trans h.heap
  entries := h'.entries.trans h.entries
  slots o ne := (h'.slots o ne).trans (h.slots o ne)
  counts B m ne := (h'.counts B m ne).trans (h.counts B m ne)
  numbers numbers := h'.numbers (h.numbers numbers)

theorem eq_or_ne (A B : ℕ) (name m : String) : B = A ∧ m = name ∨ B ≠ A ∨ m ≠ name := by
  by_cases same : B = A
  · by_cases same' : m = name
    · exact .inl ⟨same, same'⟩
    · exact .inr (.inr same')
  · exact .inr (.inl same)

theorem setCount_slots (R : Realm Cb) (A : ℕ) (name : String) (c : Count) :
    (R.setCount A name c).slots = R.slots := by
  unfold setCount
  split <;> rfl

theorem setCount_heap (R : Realm Cb) (A : ℕ) (name : String) (c : Count) :
    (R.setCount A name c).heap = R.heap := by
  unfold setCount
  split <;> rfl

theorem setCount_entries (R : Realm Cb) (A : ℕ) (name : String) (c : Count) :
    (R.setCount A name c).entries = R.entries := by
  unfold setCount
  split <;> rfl

/-- Taking out a node writes no node. -/
theorem remove_heap {R : Realm Cb} {A : ℕ} {name : String} {o : Holder}
    (found : R.holder A name = some o) (h : ℕ) (p : Option ℕ) :
    ∃ R', R.remove A name h p = .ok R' ∧ R'.heap = R.heap := by
  simp only [remove, found]
  refine ⟨_, rfl, ?_⟩
  rw [setCount_heap]
  split
  · split <;> rfl
  · split <;> rfl

theorem setCount_walked (R : Realm Cb) (A : ℕ) (name : String) {c : Count} (number : c ≠ .object) :
    Walked A name R (R.setCount A name c) := by
  unfold setCount
  split
  · exact .refl A name R
  · have others : ∀ B m, B ≠ A ∨ m ≠ name →
        update R.eventCount A (update (R.eventCount A) name (some c)) B m = R.eventCount B m := by
      intro B m ne
      by_cases same : B = A
      · subst same
        rw [update_self, update_of_ne (ne.resolve_left (· rfl))]
      · rw [update_of_ne same]
    refine ⟨rfl, rfl, fun _ _ => rfl, others, fun numbers B m => ?_⟩
    rcases eq_or_ne A B name m with ⟨rfl, rfl⟩ | ne
    · simpa using number
    · exact fun object => numbers B m ((others B m ne).symm.trans object)

section Walk

variable {R : Realm Cb} {A : ℕ} {name : String}

theorem setS_walked (R : Realm Cb) (v : Option ℕ) : Walked A name R (R.setS (.entry A name) v) :=
  ⟨rfl, rfl, fun _ ne => update_of_ne ne .., fun _ _ _ => rfl, fun h => h⟩

theorem setE_walked (R : Realm Cb) (v : Option ℕ) : Walked A name R (R.setE (.entry A name) v) :=
  ⟨rfl, rfl, fun _ ne => update_of_ne ne .., fun _ _ _ => rfl, fun h => h⟩

/-- Taking a node out of the list of a name that has an entry. -/
theorem remove_entry {s e : Option ℕ} (entry : R.entries A name = true)
    (slots : R.slots (.entry A name) = ⟨some s, some e⟩) (h : ℕ) (p : Option ℕ) :
    ∃ R', R.remove A name h p = .ok R' ∧ Walked A name R R' ∧
      R'.slots (.entry A name) = ⟨some (if some h = s then R.next h else s),
        some (if some h = e then p else e)⟩ := by
  obtain ⟨R₁, first, w₁, slots₁⟩ : ∃ R₁, (if some h = R.get (.entry A name) Slots.s then
      R.setS (.entry A name) (R.next h) else R) = R₁ ∧ Walked A name R R₁ ∧
      R₁.slots (.entry A name) = ⟨some (if some h = s then R.next h else s), some e⟩ := by
    rw [(get_entry slots).1]
    split
    · exact ⟨_, rfl, setS_walked R _, by simp [setS, slots]⟩
    · exact ⟨_, rfl, .refl A name R, slots⟩
  obtain ⟨R₂, second, w₂, slots₂⟩ : ∃ R₂, (if some h = R₁.get (.entry A name) Slots.e then
      R₁.setE (.entry A name) p else R₁) = R₂ ∧ Walked A name R₁ R₂ ∧
      R₂.slots (.entry A name) = ⟨some (if some h = s then R.next h else s),
        some (if some h = e then p else e)⟩ := by
    rw [(get_entry slots₁).2]
    split
    · exact ⟨_, rfl, setE_walked R₁ _, by simp [setE, slots₁]⟩
    · exact ⟨_, rfl, .refl A name R₁, slots₁⟩
  simp only [remove, holder_entry entry, first, second]
  refine ⟨_, rfl, (w₁.trans (w₂.trans (setCount_walked R₂ A name ?_))).trans
    ⟨rfl, rfl, fun _ _ => rfl, fun _ _ _ => rfl, fun h => h⟩,
    (congrFun (setCount_slots R₂ A name _) _).trans slots₂⟩
  split <;> simp

variable {L : List ℕ} {takes : Dat Cb → Bool} {pred : Option ℕ → Option ℕ}

/-- The nodes that a walk takes out. -/
def taken (R : Realm Cb) (takes : Dat Cb → Bool) (a : ℕ) : Bool := R.heap[a]?.any takes

/-- The calls that a walk makes at a node. -/
def callsAt (R : Realm Cb) (out : Dat Cb → List (Call Cb Data)) (a : ℕ) : List (Call Cb Data) :=
  R.heap[a]?.toList.flatMap out

/-- From the suffix `as` of the list on. `s` is the first node of the list that is kept or
still to come, and `e` is no node that has been taken out. -/
theorem iterator_entry (out : Dat Cb → List (Call Cb Data)) (entry : R.entries A name = true)
    (hpred : ∀ p, pred p = p ∨ pred p = none)
    (lt : ∀ a ∈ L, a < R.heap.length) (nodup : L.Nodup) (as : List ℕ) :
    ∀ (fuel : ℕ) (R₁ : Realm Cb) (done : List (Call Cb Data)) (pre : List ℕ) (p e : Option ℕ),
      as.length ≤ fuel → L = pre ++ as → Chain R.next as.head? as → Walked A name R R₁ →
      R₁.slots (.entry A name) =
        ⟨some (pre.dropWhile (R.taken takes) ++ as).head?, some e⟩ →
      (∀ t ∈ e, t ∈ (pre.filter fun a => !R.taken takes a) ++ as) →
      (∀ t ∈ p, t ∈ pre.filter fun a => !R.taken takes a) →
      ∃ R' e', EventEmitter.iterator (fun st => st.1.next) (visit A name takes pred out) fuel
          (R₁, done) as.head? p = .ok (R', done ++ as.flatMap (R.callsAt out)) ∧
        Walked A name R R' ∧
        R'.slots (.entry A name) = ⟨some (L.dropWhile (R.taken takes)).head?, some e'⟩ ∧
        ∀ t ∈ e', t ∈ L.filter fun a => !R.taken takes a := by
  induction as with
  | nil =>
      rintro fuel R₁ done pre p e - rfl - walked slots he -
      rw [List.append_nil] at slots he
      refine ⟨R₁, e, ?_, walked, by rw [List.append_nil]; exact slots,
        by rw [List.append_nil]; exact he⟩
      cases fuel <;> simp [EventEmitter.iterator]
  | cons a as ih =>
      rintro fuel R₁ done pre p e hfuel rfl chain walked slots he hp
      obtain ⟨fuel, rfl⟩ : ∃ k, fuel = k + 1 := ⟨fuel - 1, by simp at hfuel; omega⟩
      obtain ⟨-, tail⟩ := Chain.cons_iff.mp chain
      have next : R₁.next a = as.head? := by
        rw [Realm.next, walked.heap]
        exact (tail.head?_eq).symm
      obtain ⟨d, node⟩ : ∃ d, R.heap[a]? = some d :=
        ⟨_, List.getElem?_eq_getElem (lt a (by simp))⟩
      have node₁ : R₁.heap[a]? = some d := walked.heap ▸ node
      have list : pre ++ a :: as = (pre ++ [a]) ++ as := by simp
      have here : R.callsAt out a = out d := by simp [callsAt, node]
      have entry₁ : R₁.entries A name = true := by rw [walked.entries, entry]
      have tail : Chain R.next as.head? as := tail.head?_eq ▸ tail
      have hfuel : as.length ≤ fuel := by simpa using hfuel
      rw [list] at nodup
      cases out_ : takes d with
      | true =>
          have isTaken : R.taken takes a = true := by simp [taken, node, out_]
          obtain ⟨R₂, removed, walked₂, slots₂⟩ := remove_entry entry₁ slots a (pred p)
          have stay : (pre ++ [a]).filter (fun a => !R.taken takes a) =
              pre.filter fun a => !R.taken takes a := by simp [isTaken]
          -- `s` moves on only as long as everything before it has been taken out.
          have first : (if some a = (pre.dropWhile (R.taken takes) ++ a :: as).head? then R₁.next a
              else (pre.dropWhile (R.taken takes) ++ a :: as).head?) =
              ((pre ++ [a]).dropWhile (R.taken takes) ++ as).head? := by
            rw [List.dropWhile_append]
            cases front : pre.dropWhile (R.taken takes) with
            | nil => simp [isTaken, next]
            | cons b bs =>
                have ne : a ≠ b := by
                  rintro rfl
                  have mem : a ∈ pre := List.dropWhile_subset _ (front ▸ List.mem_cons_self)
                  have apart := (List.nodup_append.mp (List.nodup_append.mp nodup).1).2.2
                  exact apart a mem a (List.mem_singleton_self a) rfl
                simp [ne]
          have last : ∀ t ∈ (if some a = e then pred p else e),
              t ∈ ((pre ++ [a]).filter fun a => !R.taken takes a) ++ as := by
            intro t ht
            rw [stay]
            split at ht
            · rcases hpred p with same | none
              · exact List.mem_append_left _ (hp t (same ▸ ht))
              · rw [none] at ht
                cases ht
            · next other =>
                rcases List.mem_append.mp (he t ht) with front | rest
                · exact List.mem_append_left _ front
                · refine List.mem_append_right _ ((List.mem_cons.mp rest).resolve_left ?_)
                  rintro rfl
                  exact other ht.symm
          rw [first] at slots₂
          obtain ⟨R', e', run, rest⟩ := ih fuel R₂ (done ++ out d) (pre ++ [a]) p _ hfuel list tail
            (walked.trans walked₂) slots₂ last (by rw [stay]; exact hp)
          refine ⟨R', e', ?_, rest⟩
          have next₂ : R₂.next a = as.head? := by rw [Realm.next, walked₂.heap]; exact next
          have visited : visit A name takes pred out (R₁, done) a p =
              .ok ((R₂, done ++ out d), true) := by
            simp [visit, node₁, out_, removed, bind, Except.bind, pure, Except.pure]
          simp only [List.head?_cons, EventEmitter.iterator, visited, bind, Except.bind, next₂,
            if_true]
          rw [run, List.flatMap_cons, here, List.append_assoc]
      | false =>
          have isKept : R.taken takes a = false := by simp [taken, node, out_]
          have kept : (pre ++ [a]).dropWhile (R.taken takes) ++ as =
              pre.dropWhile (R.taken takes) ++ a :: as := by
            rw [List.dropWhile_append]
            split
            · next none => simp [List.isEmpty_iff.mp none, isKept]
            · simp
          obtain ⟨R', e', run, rest⟩ := ih fuel R₁ (done ++ out d) (pre ++ [a]) (some a) e hfuel
            list tail walked (by rw [kept]; exact slots)
            (fun t ht => by simpa [isKept] using he t ht)
            (fun t ht => by simp [← Option.some.inj ht, isKept])
          refine ⟨R', e', ?_, rest⟩
          have visited : visit A name takes pred out (R₁, done) a p =
              .ok ((R₁, done ++ out d), false) := by simp [visit, node₁, out_, pure, Except.pure]
          simp only [List.head?_cons, EventEmitter.iterator, visited, bind, Except.bind, next]
          rw [if_neg Bool.false_ne_true, run, List.flatMap_cons, here, List.append_assoc]

end Walk

/-- The lists with another one for one name. -/
def put (L : ℕ → String → List ℕ) (A : ℕ) (name : String) (as : List ℕ) : ℕ → String → List ℕ :=
  update L A (update (L A) name as)

theorem put_self (L : ℕ → String → List ℕ) (A : ℕ) (name : String) (as : List ℕ) :
    put L A name as A name = as := by simp [put]

theorem put_of_ne {L : ℕ → String → List ℕ} {A B : ℕ} {name m : String} (ne : B ≠ A ∨ m ≠ name)
    (as : List ℕ) : put L A name as B m = L B m := by
  by_cases same : B = A
  · subst same
    rw [put, update_self, update_of_ne (ne.resolve_left (· rfl))]
  · rw [put, update_of_ne same]

theorem put_eq_self {L : ℕ → String → List ℕ} {A : ℕ} {name : String} {as : List ℕ}
    (same : L A name = as) : put L A name as = L := by
  rw [put, ← same, update_eq_self, update_eq_self]

section Linked

variable {R R' : Realm Cb} {L : ℕ → String → List ℕ} {A : ℕ} {name : String}

/-- A list of nodes that is changed together with the entry of its name. -/
theorem Linked.relink (linked : Linked R L) {as : List ℕ} {e : Option ℕ}
    (ordinary : name ∉ objectPrototype)
    (entries : ∀ B m, R'.entries B m = true ↔ R.entries B m = true ∨ B = A ∧ m = name)
    (others : ∀ o, o ≠ .entry A name → R'.slots o = R.slots o)
    (slots : R'.slots (.entry A name) = ⟨some as.head?, some e⟩)
    (chain : Chain R'.next as.head? as) (last : ∀ t ∈ e, t ∈ as) (nodup : as.Nodup)
    (longer : R.heap.length ≤ R'.heap.length)
    (next : ∀ B m a, B ≠ A ∨ m ≠ name → a ∈ L B m → R'.next a = R.next a)
    (own : ∀ a ∈ as, a < R'.heap.length ∧ (a ∈ L A name ∨ R.heap.length ≤ a))
    (numbers : ∀ B m, R'.eventCount B m ≠ some .object) : Linked R' (put L A name as) := by
  have entry : ∀ B m, B ≠ A ∨ m ≠ name → (Holder.entry B m ≠ .entry A name) := by
    rintro B m ne same
    obtain ⟨rfl, rfl⟩ := Holder.entry.inj same
    exact ne.elim (· rfl) (· rfl)
  refine ⟨fun m => ?_, fun B m present => ?_, fun B m absent => ?_, fun B m present => ?_,
    fun B m a ha => ?_, fun B m => ?_, fun B m B' m' a ha ha' => ?_, numbers⟩
  · rw [others _ (by simp), linked.clean]
  · rcases (entries B m).mp present with old | ⟨-, rfl⟩
    · exact linked.ordinary B m old
    · exact ordinary
  · rcases eq_or_ne A B name m with ⟨rfl, rfl⟩ | ne
    · rw [(entries B m).mpr (.inr ⟨rfl, rfl⟩)] at absent
      cases absent
    · rw [put_of_ne ne]
      refine linked.absent B m (Bool.eq_false_iff.mpr fun old => ?_)
      rw [(entries B m).mpr (.inl old)] at absent
      cases absent
  · rcases eq_or_ne A B name m with ⟨rfl, rfl⟩ | ne
    · rw [put_self]
      exact ⟨as.head?, e, slots, chain, last⟩
    · rw [put_of_ne ne, others _ (entry B m ne)]
      have old := ((entries B m).mp present).resolve_right fun ⟨hB, hm⟩ => ne.elim (· hB) (· hm)
      obtain ⟨s, e, slots, chain, last⟩ := linked.list B m old
      exact ⟨s, e, slots, chain.frame fun a ha => next B m a ne ha, last⟩
  · rcases eq_or_ne A B name m with ⟨rfl, rfl⟩ | ne
    · rw [put_self] at ha
      exact (own a ha).1
    · rw [put_of_ne ne] at ha
      exact Nat.lt_of_lt_of_le (linked.lt B m a ha) longer
  · rcases eq_or_ne A B name m with ⟨rfl, rfl⟩ | ne
    · rw [put_self]
      exact nodup
    · rw [put_of_ne ne]
      exact linked.nodup B m
  · have new : ∀ C k, C ≠ A ∨ k ≠ name → a ∈ put L A name as C k → a ∈ as → False := by
      intro C k ne mem mem'
      rw [put_of_ne ne] at mem
      rcases (own a mem').2 with old | fresh
      · obtain ⟨rfl, rfl⟩ := linked.apart A name C k a old mem
        exact ne.elim (· rfl) (· rfl)
      · exact absurd (linked.lt C k a mem) (Nat.not_lt.mpr fresh)
    rcases eq_or_ne A B name m with ⟨rfl, rfl⟩ | ne
    · rcases eq_or_ne B B' m m' with ⟨rfl, rfl⟩ | ne'
      · exact ⟨rfl, rfl⟩
      · rw [put_self] at ha
        exact (new B' m' ne' ha' ha).elim
    · rcases eq_or_ne A B' name m' with ⟨rfl, rfl⟩ | ne'
      · rw [put_self] at ha'
        exact (new B m ne ha ha').elim
      · rw [put_of_ne ne] at ha
        rw [put_of_ne ne'] at ha'
        exact linked.apart B m B' m' a ha ha'

/-- An entry that there is already is no new one. -/
theorem entries_eq (entry : R.entries A name = true) (B : ℕ) (m : String) :
    R.entries B m = true ↔ R.entries B m = true ∨ B = A ∧ m = name := by
  constructor
  · exact .inl
  · rintro (old | ⟨rfl, rfl⟩)
    · exact old
    · exact entry

theorem Linked.length_le (linked : Linked R L) (A : ℕ) (name : String) :
    (L A name).length ≤ R.heap.length := by
  have sub : L A name ⊆ List.range R.heap.length := fun a ha =>
    List.mem_range.mpr (linked.lt A name a ha)
  simpa using ((linked.nodup A name).subperm sub).length_le

/-- A walk returns. It leaves the nodes from the first one on that is kept, and makes the
calls of all nodes. -/
theorem Linked.walk (linked : Linked R L) (A : ℕ) (name : String) (takes : Dat Cb → Bool)
    (pred : Option ℕ → Option ℕ) (hpred : ∀ p, pred p = p ∨ pred p = none)
    (out : Dat Cb → List (Call Cb Data)) :
    ∃ R', R.walk A name takes pred out = .ok (R', (L A name).flatMap (R.callsAt out)) ∧
      Walked A name R R' ∧ Linked R' (put L A name ((L A name).dropWhile (R.taken takes))) := by
  cases entry : R.entries A name with
  | false =>
      have empty := linked.absent A name entry
      refine ⟨R, ?_, .refl A name R, ?_⟩
      · rw [empty, List.flatMap_nil]
        rcases linked.holder_absent entry with ⟨none, -⟩ | ⟨found, -⟩
        · rw [Realm.walk, none]
        · rw [Realm.walk, found]
          dsimp only
          rw [linked.get_member rfl]
          cases R.heap.length <;> rfl
      · rw [put_eq_self (by rw [empty]; rfl)]
        exact linked
  | true =>
      obtain ⟨s, e, slots, chain, last⟩ := linked.list A name entry
      have head := chain.head?_eq
      obtain ⟨R', e', run, walked, slots', last'⟩ := iterator_entry out entry hpred
        (linked.lt A name) (linked.nodup A name) (L A name) R.heap.length R [] [] none e
        (linked.length_le A name) rfl (head ▸ chain) (.refl A name R)
        (by rw [slots]; simp [head]) (fun t ht => last t ht) (fun t ht => by cases ht)
      refine ⟨R', ?_, walked, ?_⟩
      · rw [Realm.walk, holder_entry entry]
        dsimp only
        rw [(get_entry slots).1, ← head, run]
        rfl
      · have suffix : (L A name).dropWhile (R.taken takes) <:+ L A name := List.dropWhile_suffix _
        have links : R'.next = R.next := by
          funext a
          rw [next, walked.heap]
          rfl
        refine linked.relink (linked.ordinary A name entry) (fun B m => ?_) walked.slots slots'
          (links ▸ (head ▸ chain).suffix suffix) (fun t ht => ?_)
          ((linked.nodup A name).sublist suffix.sublist) (Nat.le_of_eq (by rw [walked.heap]))
          (fun _ _ a _ _ => congrFun links a) (fun a ha => ?_) (walked.numbers linked.numbers)
        · rw [walked.entries]
          exact entries_eq entry B m
        · exact (filter_sublist_dropWhile _ _).subset (last' t ht)
        · have mem := suffix.subset ha
          exact ⟨walked.heap ▸ linked.lt A name a mem, .inl mem⟩

end Linked

section Link

variable {R : Realm Cb} {L : ℕ → String → List ℕ} {A : ℕ} {name : String}

/-- The heap with one node more. -/
structure Grown (R : Realm Cb) (cb : Cb) (heap : List (Dat Cb)) : Prop where
  length : heap.length = R.heap.length + 1
  old : ∀ a < R.heap.length, heap[a]?.map Dat.cb = R.heap[a]?.map Dat.cb
  new : heap[R.heap.length]?.map Dat.cb = some cb

theorem grown_append (R : Realm Cb) (cb : Cb) (remove : Bool) :
    Grown R cb (R.heap ++ [⟨cb, none, remove⟩]) where
  length := by simp
  old a lt := by rw [List.getElem?_append_left lt]
  new := by rw [List.getElem?_concat_length]; rfl

theorem Grown.setNext {heap : List (Dat Cb)} {cb : Cb} (grown : Grown R cb heap) (t dat : ℕ) :
    Grown R cb (EventEmitter.setNext heap t dat) := by
  have same : ∀ a : ℕ,
      (EventEmitter.setNext heap t dat)[a]?.map Dat.cb = heap[a]?.map Dat.cb := by
    intro a
    rw [EventEmitter.getElem?_setNext]
    split
    · cases heap[a]? <;> rfl
    · rfl
  exact ⟨by simp [EventEmitter.setNext, grown.length], fun a lt => (same a).trans (grown.old a lt),
    (same _).trans grown.new⟩

/-- Behind the node `t` of a list the links are replaced by one to a new node. -/
theorem chain_cut {next next' : ℕ → Option ℕ} {h : Option ℕ} {pre : List ℕ} {t b : ℕ}
    {post : List ℕ} (chain : Chain next h (pre ++ t :: post)) (link : next' t = some b)
    (stop : next' b = none) (agree : ∀ a ∈ pre, next' a = next a) :
    Chain next' h (pre ++ [t, b]) := by
  induction pre generalizing h with
  | nil =>
      obtain ⟨rfl, -⟩ := Chain.cons_iff.mp chain
      exact .cons (link ▸ .cons (stop ▸ .nil))
  | cons a pre ih =>
      obtain ⟨rfl, tail⟩ := Chain.cons_iff.mp chain
      refine .cons ?_
      rw [agree a List.mem_cons_self]
      exact ih tail fun x hx => agree x (List.mem_cons_of_mem _ hx)

/-- Registering under a name that is none of `Object.prototype`. -/
theorem Linked.link (linked : Linked R L) (ordinary : name ∉ objectPrototype) (cb : Cb)
    (remove : Bool) : ∃ as, Linked (R.link A name cb remove) (put L A name as) ∧
      R.heap.length ∈ as ∧ Grown R cb (R.link A name cb remove).heap := by
  let R₀ : Realm Cb := { R with heap := R.heap ++ [⟨cb, none, remove⟩] }
  have grown : Grown R cb R₀.heap := grown_append R cb remove
  have next₀ : ∀ a < R.heap.length, R₀.next a = R.next a := by
    intro a lt
    simp only [next, R₀, List.getElem?_append_left lt]
  have stop₀ : R₀.next R.heap.length = none := by simp [next, R₀]
  have fresh : ∀ B m, R.heap.length ∉ L B m := fun B m mem =>
    Nat.lt_irrefl _ (linked.lt B m _ mem)
  cases entry : R.entries A name with
  | false =>
      have none : R₀.holder A name = none := by
        rcases linked.holder_absent entry with ⟨none, -⟩ | ⟨-, known⟩
        · exact none
        · exact absurd known ordinary
      have eq : R.link A name cb remove = { R₀ with
          slots := update R.slots (.entry A name)
            ⟨some (some R.heap.length), some (some R.heap.length)⟩
          entries := update R.entries A (update (R.entries A) name true) } := by
        simp only [Realm.link, R₀, none]
      rw [eq]
      refine ⟨[R.heap.length], linked.relink ordinary (fun B m => ?_)
        (fun o ne => update_of_ne ne ..) (update_self ..) (.cons (stop₀ ▸ .nil)) (by simp) (by simp)
        (by simp [R₀]) (fun B m a _ ha => next₀ a (linked.lt B m a ha)) (by simp [R₀])
        linked.numbers, by simp, grown⟩
      rcases eq_or_ne A B name m with ⟨rfl, rfl⟩ | ne
      · simp
      · by_cases same : B = A
        · subst same
          simp [ne.resolve_left (· rfl)]
        · simp [same]
  | true =>
      obtain ⟨s, e, slots, chain, last⟩ := linked.list A name entry
      have found : R₀.holder A name = some (.entry A name) := holder_entry entry
      have gets : R₀.get (.entry A name) Slots.e = e := (get_entry slots).2
      have entries := entries_eq entry
      cases e with
      | none =>
          have eq : R.link A name cb remove = (R₀.setS (.entry A name) (some R.heap.length)).setE
              (.entry A name) (some R.heap.length) := by
            simp only [Realm.link]
            rw [found]
            dsimp only
            rw [gets]
          rw [eq]
          refine ⟨[R.heap.length], linked.relink (e := some R.heap.length) ordinary entries
            (fun o ne => ?_) ?_ (.cons (stop₀ ▸ .nil)) (by simp) (by simp)
            (by simp [R₀, setS, setE])
            (fun B m a _ ha => next₀ a (linked.lt B m a ha)) (by simp [R₀, setS, setE])
            linked.numbers, by simp, grown⟩
          · simp [setS, setE, ne, R₀]
          · simp [setS, setE]
      | some t =>
          have eq : R.link A name cb remove =
              ({ R₀ with heap := EventEmitter.setNext R₀.heap t R.heap.length } : Realm Cb).setE
                (.entry A name) (some R.heap.length) := by
            simp only [Realm.link]
            rw [found]
            dsimp only
            rw [gets]
          have mem := last t rfl
          have before := linked.lt A name t mem
          obtain ⟨pre, post, cut⟩ := List.append_of_mem mem
          have links : ∀ a, (R.link A name cb remove).next a =
              if t = a then (R₀.heap[a]?).bind fun _ => some R.heap.length else R₀.next a := by
            intro a
            rw [eq, next, setE, EventEmitter.getElem?_setNext]
            split
            · cases R₀.heap[a]? <;> rfl
            · rfl
          have link : (R.link A name cb remove).next t = some R.heap.length := by
            rw [links, if_pos rfl, List.getElem?_append_left before,
              List.getElem?_eq_getElem before]
            rfl
          have stop : (R.link A name cb remove).next R.heap.length = none := by
            rw [links, if_neg (Nat.ne_of_lt before), stop₀]
          have kept : ∀ a, a < R.heap.length → a ≠ t →
              (R.link A name cb remove).next a = R.next a := by
            intro a lt ne
            rw [links, if_neg ne.symm, next₀ a lt]
          have nodup := linked.nodup A name
          have sub : pre ++ [t] <+: L A name := ⟨post, by rw [cut]; simp⟩
          have away : ∀ a ∈ pre, a ≠ t := by
            rintro a ha rfl
            rw [cut] at nodup
            exact (List.nodup_append.mp nodup).2.2 a ha a List.mem_cons_self rfl
          have head : (pre ++ [t, R.heap.length]).head? = s := by
            rw [← chain.head?_eq, cut]
            cases pre <;> rfl
          have split : pre ++ [t, R.heap.length] = (pre ++ [t]) ++ [R.heap.length] := by simp
          have slots' : (R.link A name cb remove).slots (.entry A name) =
              ⟨some (pre ++ [t, R.heap.length]).head?, some (some R.heap.length)⟩ := by
            rw [eq, head]
            simp [setE, R₀, slots]
          refine ⟨pre ++ [t, R.heap.length], linked.relink ordinary (eq ▸ entries) (fun o ne => ?_)
            slots' ?_ (by simp) ?_ ?_ (fun B m a ne ha => ?_) (fun a ha => ?_)
            (eq ▸ linked.numbers), by simp, ?_⟩
          · rw [eq]
            simp [setE, ne, R₀]
          · rw [head]
            exact chain_cut (cut ▸ chain) link stop fun a ha =>
              kept a (linked.lt A name a (sub.subset (List.mem_append_left _ ha))) (away a ha)
          · rw [split, List.nodup_append]
            refine ⟨nodup.sublist sub.sublist, by simp, fun a ha b hb => ?_⟩
            rw [List.mem_singleton.mp hb]
            exact Nat.ne_of_lt (linked.lt A name a (sub.subset ha))
          · rw [eq]
            simp [setE, R₀, EventEmitter.setNext]
          · refine kept a (linked.lt B m a ha) ?_
            rintro rfl
            obtain ⟨rfl, rfl⟩ := linked.apart B m A name a ha mem
            exact ne.elim (· rfl) (· rfl)
          · have length : (R.link A name cb remove).heap.length = R.heap.length + 1 := by
              rw [eq]
              exact (grown.setNext t _).length
            rw [length]
            rw [split] at ha
            rcases List.mem_append.mp ha with old | new
            · have mem' := sub.subset old
              exact ⟨Nat.lt_succ_of_lt (linked.lt A name a mem'), .inl mem'⟩
            · rw [List.mem_singleton.mp new]
              exact ⟨Nat.lt_succ_self _, .inr (Nat.le_refl _)⟩
          · rw [eq]
            exact grown.setNext t _

end Link

/-! ### Listeners and counts -/

section Steps

variable {R R' : Realm Cb} {L : ℕ → String → List ℕ} {A : ℕ} {name : String}

/-- The callbacks of some nodes. -/
def listeners (R : Realm Cb) (as : List ℕ) : List Cb :=
  as.flatMap fun a => (R.heap[a]?.map Dat.cb).toList

theorem Linked.calls_eq (linked : Linked R L) (B : ℕ) (m : String) :
    R.calls B m = .ok (R.listeners (L B m)) := by
  obtain ⟨R', run, -⟩ := linked.walk B m Dat.remove (fun _ => none) (fun _ => .inr rfl)
    fun d => [(d.cb, ())]
  rw [calls, emit, run]
  have each : ∀ a, (R.callsAt (fun d => [(d.cb, ())]) a).map Prod.fst =
      (R.heap[a]?.map Dat.cb).toList := by
    intro a
    rw [callsAt]
    cases R.heap[a]? <;> rfl
  simp [Except.map, List.map_flatMap, each, listeners]

theorem listeners_congr {as : List ℕ}
    (same : ∀ a ∈ as, R'.heap[a]?.map Dat.cb = R.heap[a]?.map Dat.cb) :
    R'.listeners as = R.listeners as := by
  rw [listeners, listeners]
  exact List.flatMap_congr fun a ha => by rw [same a ha]

/-- Nothing but the names of `Object.prototype` has an inherited count. -/
theorem Linked.inheritedCount (linked : Linked R L) (m : String) :
    R.inheritedCount m = if m ∈ objectPrototype then .object else .nan := by
  rw [Realm.inheritedCount, linked.clean]
  split
  · rfl
  · split <;> simp_all

theorem Linked.listenerCount_congr (linked : Linked R L) {L' : ℕ → String → List ℕ}
    (linked' : Linked R' L') {B : ℕ} {m : String} (some_ : m ≠ "")
    (same : R'.eventCount B m = R.eventCount B m) : R'.listenerCount B m = R.listenerCount B m := by
  rw [listenerCount, listenerCount, if_neg some_, if_neg some_, count, count, same,
    linked.inheritedCount, linked'.inheritedCount]

/-- A change to one list. -/
theorem Linked.others (linked : Linked R L) {as : List ℕ} (linked' : Linked R' (put L A name as))
    (heap : ∀ a < R.heap.length, R'.heap[a]?.map Dat.cb = R.heap[a]?.map Dat.cb)
    (counts : ∀ B m, B ≠ A ∨ m ≠ name → R'.eventCount B m = R.eventCount B m)
    {B : ℕ} {m : String} (some_ : m ≠ "") (ne : B ≠ A ∨ m ≠ name) :
    R'.calls B m = R.calls B m ∧ R'.listenerCount B m = R.listenerCount B m := by
  refine ⟨?_, linked.listenerCount_congr linked' some_ (counts B m ne)⟩
  rw [linked.calls_eq, linked'.calls_eq, put_of_ne ne,
    listeners_congr fun a ha => heap a (linked.lt B m a ha)]

theorem Linked.congr (linked : Linked R L) (heap : R'.heap = R.heap) (slots : R'.slots = R.slots)
    (entries : R'.entries = R.entries) (numbers : ∀ B m, R'.eventCount B m ≠ some .object) :
    Linked R' L := by
  have next : R'.next = R.next := by
    funext a
    rw [Realm.next, heap]
    rfl
  exact ⟨fun m => slots ▸ linked.clean m, entries ▸ linked.ordinary, entries ▸ linked.absent,
    by rw [entries, slots, next]; exact linked.list, heap ▸ linked.lt, linked.nodup, linked.apart,
    numbers⟩

/-- Registering: the counts. -/
theorem on_eq (R : Realm Cb) (A : ℕ) (name : String) (cb : Cb) (remove : Bool) :
    ∃ R₁ : Realm Cb, R₁.heap = (R.link A name cb remove).heap ∧
      R₁.slots = (R.link A name cb remove).slots ∧ R₁.entries = (R.link A name cb remove).entries ∧
      R₁.eventCount = R.eventCount ∧ R.on A name cb remove = R₁.setCount A name
        (match R₁.count A name with
          | .number n => .number (n + 1)
          | .nan | .object => .number 1) := by
  refine ⟨{ R.link A name cb remove with
    allCount := update (R.link A name cb remove).allCount A
      ((R.link A name cb remove).allCount A + 1) },
    rfl, rfl, rfl, ?_, rfl⟩
  simp only [link]
  split
  · rfl
  · split <;> rfl

theorem Linked.on (linked : Linked R L) (ordinary : name ∉ objectPrototype) (cb : Cb)
    (remove : Bool) : ∃ as, Linked (R.on A name cb remove) (put L A name as) ∧
      (∀ a < R.heap.length, (R.on A name cb remove).heap[a]?.map Dat.cb = R.heap[a]?.map Dat.cb) ∧
      (∀ B m, B ≠ A ∨ m ≠ name → (R.on A name cb remove).eventCount B m = R.eventCount B m) ∧
      cb ∈ (R.on A name cb remove).listeners as ∧ (name ≠ "" → ∃ n,
        R.listenerCount A name = .number n ∧
          (R.on A name cb remove).listenerCount A name = .number (n + 1)) := by
  obtain ⟨as, linked₁, mem, grown⟩ := linked.link (A := A) ordinary cb remove
  obtain ⟨R₁, heap, slots, entries, counts, eq⟩ := on_eq R A name cb remove
  have linked₁ : Linked R₁ (put L A name as) :=
    linked₁.congr heap slots entries (counts ▸ linked.numbers)
  have counted : ∀ c, c ≠ .object → Walked A name R₁ (R₁.setCount A name c) := fun c number =>
    setCount_walked R₁ A name number
  have walked := counted (match R₁.count A name with
    | .number n => .number (n + 1)
    | .nan | .object => .number 1) (by split <;> simp)
  rw [← eq] at walked
  have linked' := linked₁.congr walked.heap (eq ▸ setCount_slots ..) walked.entries
    (walked.numbers linked₁.numbers)
  refine ⟨as, linked', fun a lt => ?_,
    fun B m ne => (walked.counts B m ne).trans (by rw [counts]), ?_, fun some_ => ?_⟩
  · rw [walked.heap, heap, grown.old a lt]
  · refine List.mem_flatMap.mpr ⟨R.heap.length, mem, ?_⟩
    rw [walked.heap, heap, grown.new]
    exact List.mem_singleton_self cb
  · have notProto : name ≠ "__proto__" := by
      rintro rfl
      exact ordinary (by decide)
    have same : R₁.count A name = R.count A name := by
      rw [count, count, counts, linked₁.inheritedCount, linked.inheritedCount]
    have after : (R.on A name cb remove).count A name = match R₁.count A name with
        | .number n => .number (n + 1)
        | .nan | .object => .number 1 := by
      rw [eq]
      simp [setCount, notProto, count]
    rw [listenerCount, listenerCount, if_neg some_, if_neg some_, after, same]
    cases known : R.count A name with
    | number n => exact ⟨n, rfl, rfl⟩
    | nan => exact ⟨0, rfl, rfl⟩
    | object =>
        rw [count, linked.inheritedCount, if_neg ordinary] at known
        cases own : R.eventCount A name with
        | none => simp [own] at known
        | some c =>
            obtain rfl : c = .object := by simpa [own] using known
            exact absurd own (linked.numbers A name)

theorem Linked.removeAllListeners (linked : Linked R L) (A : ℕ) :
    Linked (R.removeAllListeners A) (update L A fun _ => []) where
  clean := linked.clean
  ordinary B m present := by
    by_cases same : B = A
    · simp [Realm.removeAllListeners, same] at present
    · exact linked.ordinary B m (by simpa [Realm.removeAllListeners, same] using present)
  absent B m absent := by
    by_cases same : B = A
    · simp [same]
    · rw [update_of_ne same]
      exact linked.absent B m (by simpa [Realm.removeAllListeners, same] using absent)
  list B m present := by
    by_cases same : B = A
    · simp [Realm.removeAllListeners, same] at present
    · rw [update_of_ne same]
      exact linked.list B m (by simpa [Realm.removeAllListeners, same] using present)
  lt B m a ha := by
    by_cases same : B = A
    · simp [same] at ha
    · rw [update_of_ne same] at ha
      exact linked.lt B m a ha
  nodup B m := by
    by_cases same : B = A
    · simp [same]
    · rw [update_of_ne same]
      exact linked.nodup B m
  apart B m B' m' a ha ha' := by
    by_cases same : B = A
    · simp [same] at ha
    · by_cases same' : B' = A
      · simp [same'] at ha'
      · rw [update_of_ne same] at ha
        rw [update_of_ne same'] at ha'
        exact linked.apart B m B' m' a ha ha'
  numbers B m := by
    by_cases same : B = A
    · simp [Realm.removeAllListeners, same]
    · simpa [Realm.removeAllListeners, same] using linked.numbers B m

/-- A registration under a name of `Object.prototype` is found by every emitter. -/
theorem Linked.shared (linked : Linked R L) (known : name ∈ objectPrototype) (cb : Cb)
    (remove : Bool) {B : ℕ} : (R.on A name cb remove).calls B name = .ok [cb] := by
  let dat : Dat Cb := ⟨cb, none, remove⟩
  let R₀ : Realm Cb := { R with heap := R.heap ++ [dat] }
  have absent : ∀ C, R.entries C name = false := fun C =>
    Bool.eq_false_iff.mpr fun present => linked.ordinary C name present known
  have find : ∀ (R' : Realm Cb) (C : ℕ), R'.entries = R.entries →
      R'.holder C name = some (.member name) := by
    intro R' C same
    rw [holder, same, if_neg (by simp [absent C]), if_pos known]
  have linked_ : R.link A name cb remove = (R₀.setS (.member name) (some R.heap.length)).setE
      (.member name) (some R.heap.length) := by
    have none : R₀.get (.member name) Slots.e = none := linked.get_member rfl
    simp only [Realm.link]
    rw [find R₀ A rfl]
    dsimp only
    rw [none]
  obtain ⟨R₁, heap, slots, entries, -, eq⟩ := on_eq R A name cb remove
  obtain ⟨R', hR'⟩ : ∃ R', R' = R.on A name cb remove := ⟨_, rfl⟩
  have heap' : R'.heap = R.heap ++ [dat] := by
    rw [hR', eq, setCount_heap, heap, linked_]
    rfl
  have found : R'.holder B name = some (.member name) := find R' B (by
    rw [hR', eq, setCount_entries, entries, linked_]
    rfl)
  have first : R'.get (.member name) Slots.s = some R.heap.length := by
    rw [get, hR', eq, setCount_slots, slots, linked_]
    simp [setE, setS]
  have node : R'.heap[R.heap.length]? = some dat := by rw [heap', List.getElem?_concat_length]
  obtain ⟨R'', b, visited, stop⟩ : ∃ R'' b, visit B name Dat.remove (fun _ => none)
      (fun d => [(d.cb, ())]) (R', []) R.heap.length none = .ok ((R'', [(cb, ())]), b) ∧
        R''.next R.heap.length = none := by
    have stop : ∀ R'' : Realm Cb, R''.heap = R'.heap → R''.next R.heap.length = none := by
      intro R'' same
      rw [next, same, node]
      rfl
    cases removes : dat.remove with
    | false =>
        refine ⟨R', false, ?_, stop R' rfl⟩
        simp only [visit, node, removes]
        rfl
    | true =>
        obtain ⟨R'', removed, same⟩ := remove_heap found R.heap.length none
        refine ⟨R'', true, ?_, stop R'' same⟩
        simp only [visit, node, removes, removed]
        rfl
  have length : R'.heap.length = R.heap.length + 1 := by rw [heap', List.length_append]; rfl
  have run : R'.emit B name () = .ok (R'', [(cb, ())]) := by
    rw [emit, Realm.walk, found]
    dsimp only
    rw [length, first]
    simp only [EventEmitter.iterator, visited, bind, Except.bind, stop]
  rw [← hR', calls, run]
  rfl

variable [DecidableEq Cb] {op : Op String Cb Data}

/-- An ordinary operation returns, keeps the lists apart, and respects the other names. -/
theorem Linked.step (linked : Linked R L) (ordinary : Ordinary op) (A : ℕ) :
    ∃ r L', R.step A op = .ok r ∧ Linked r.1 L' ∧ Respects R A op r.1 := by
  -- A registration, and a walk.
  have registering : ∀ name cb remove, registers op = some (name, cb) →
      (∀ m, touches op m = false → m ≠ name) → R.step A op = .ok (R.on A name cb remove, []) →
      ∃ r L', R.step A op = .ok r ∧ Linked r.1 L' ∧ Respects R A op r.1 := by
    intro name cb remove registered touched eq
    obtain ⟨as, linked', heap, counts, called, counted⟩ :=
      linked.on (A := A) (ordinary name cb registered) cb remove
    refine ⟨_, _, eq, linked', fun B m some_ ne => ?_, fun name' cb' registered' some_ => ?_⟩
    · exact linked.others linked' heap counts some_ (ne.imp_right (touched m))
    · obtain ⟨rfl, rfl⟩ := Prod.mk.inj (Option.some.inj (registered.symm.trans registered'))
      exact ⟨⟨_, linked'.calls_eq A name, by rw [put_self]; exact called⟩, counted some_⟩
  have walking : ∀ name takes (pred : Option ℕ → Option ℕ) out, registers op = none →
      (∀ p, pred p = p ∨ pred p = none) → (∀ m, touches op m = false → m ≠ name) →
      R.step A op = R.walk A name takes pred out →
      ∃ r L', R.step A op = .ok r ∧ Linked r.1 L' ∧ Respects R A op r.1 := by
    intro name takes pred out registered hpred touched eq
    obtain ⟨R', run, walked, linked'⟩ := linked.walk A name takes pred hpred out
    refine ⟨_, _, eq.trans run, linked', fun B m some_ ne => ?_, fun name' cb' registered' => ?_⟩
    · exact linked.others linked' (fun a _ => by rw [walked.heap]) walked.counts some_
        (ne.imp_right (touched m))
    · rw [registered] at registered'
      cases registered'
  rcases op with ⟨name, cb⟩ | ⟨name, cb⟩ | ⟨name, cb⟩ | - | ⟨name, data⟩
  · exact registering name cb false rfl (fun m other => by simpa [touches] using other) rfl
  · exact registering name cb true rfl (fun m other => by simpa [touches] using other) rfl
  · exact walking name _ id _ rfl (fun _ => .inl rfl)
      (fun m other => by simpa [touches] using other) rfl
  · refine ⟨_, _, rfl, linked.removeAllListeners A, fun B m some_ ne => ?_,
      fun name cb h => by cases h⟩
    have ne : B ≠ A := ne.resolve_right (by simp [touches])
    refine ⟨?_, linked.listenerCount_congr (linked.removeAllListeners A) some_ (by
      simp [Realm.removeAllListeners, ne])⟩
    rw [linked.calls_eq, (linked.removeAllListeners A).calls_eq, update_of_ne ne]
    rfl
  · exact walking name _ _ _ rfl (fun _ => .inr rfl) (fun m other => by simpa [touches] using other)
      rfl

theorem Linked.not_respects (linked : Linked R L) {cb : Cb}
    (registered : registers op = some (name, cb)) (known : name ∈ objectPrototype)
    {r : Realm Cb × List (Call Cb Data)} (run : R.step A op = .ok r) : ¬ Respects R A op r.1 := by
  intro respects
  have some_ : name ≠ "" := by
    rintro rfl
    simp [objectPrototype] at known
  have found : r.1.calls (A + 1) name = .ok [cb] := by
    rcases op with ⟨m, f⟩ | ⟨m, f⟩ | ⟨m, f⟩ | - | ⟨m, data⟩
    · obtain ⟨rfl, rfl⟩ := Prod.mk.inj (Option.some.inj registered)
      obtain rfl := Except.ok.inj run
      exact linked.shared known f false
    · obtain ⟨rfl, rfl⟩ := Prod.mk.inj (Option.some.inj registered)
      obtain rfl := Except.ok.inj run
      exact linked.shared known f true
    · cases registered
    · cases registered
    · cases registered
  have before : R.calls (A + 1) name = .ok [] := by
    have absent : R.entries (A + 1) name = false :=
      Bool.eq_false_iff.mpr fun present => linked.ordinary (A + 1) name present known
    rw [linked.calls_eq, linked.absent (A + 1) name absent]
    rfl
  have same := (respects.others (A + 1) name some_ (.inl (Nat.succ_ne_self A))).1
  rw [found, before] at same
  cases same

end Steps

theorem Linked.isolates_iff [DecidableEq Cb] {R : Realm Cb} {L : ℕ → String → List ℕ}
    (linked : Linked R L) (ops : List (ℕ × Op String Cb Data)) :
    Isolates R ops ↔ ∀ a ∈ ops, Ordinary a.2 := by
  induction ops generalizing R L with
  | nil => simp [Isolates]
  | cons a ops ih =>
      obtain ⟨A, op⟩ := a
      rw [List.forall_mem_cons]
      constructor
      · rintro ⟨r, run, respects, rest⟩
        have ordinary : Ordinary op := by
          intro name cb registered known
          exact linked.not_respects registered known run respects
        obtain ⟨r', L', run', linked', -⟩ := linked.step ordinary A
        obtain rfl := Except.ok.inj (run.symm.trans run')
        exact ⟨ordinary, (ih linked').mp rest⟩
      · rintro ⟨ordinary, rest⟩
        obtain ⟨r, L', run, linked', respects⟩ := linked.step ordinary A
        exact ⟨r, run, respects, (ih linked').mpr rest⟩

/-- **Event names are isolated** in a history of all emitters if and only if nothing is
registered under a name of `Object.prototype`. -/
theorem names_isolated_iff [DecidableEq Cb] (ops : List (ℕ × Op String Cb Data)) :
    Isolates (new : Realm Cb) ops ↔ ∀ a ∈ ops, Ordinary a.2 :=
  linked_new.isolates_iff ops

/-- A listener of one emitter under `toString` is called by another. -/
theorem toString_shared : ¬
    Isolates (new : Realm ℕ) [(0, (.on "toString" 7 : Op String ℕ Unit))] := by
  rintro ⟨r, run, respects, -⟩
  obtain rfl := Except.ok.inj run
  have same := (respects.others 1 "toString" (by simp) (.inl (by simp))).1
  have before : (new : Realm ℕ).calls 1 "toString" = .ok [] := rfl
  have after : ((new : Realm ℕ).on 0 "toString" 7 false).calls 1 "toString" = .ok [7] := rfl
  rw [before] at same
  cases after.symm.trans same

end Realm

end ThreadJs.Events
