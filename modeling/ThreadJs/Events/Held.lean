import ThreadJs.Events.Apart
import ThreadJs.Events.Reentrant

/-!
The lists of an emitter whose callbacks use it.

The links of the nodes lead upwards in the heap and stay within the list of one name
(`Tidy`), and what is registered under a name is found from its `s`, none of it behind its
`e` (`Held`). As long as no new node is linked to one that a walk has before it, a walk in
progress has a fixed list of nodes to call (`Fixed`).
-/

namespace ThreadJs.Events

open EventEmitter

variable {Name Cb : Type}

/-- Each node belongs to the name under which it was registered. -/
structure Tidy (owner : ℕ → Name) (E : EventEmitter Name Cb) : Prop where
  handle : ∀ name hd, E.eventHandles name = some hd → ∀ a, hd.s = some a ∨ hd.e = some a →
    a < E.heap.length ∧ owner a = name
  link : ∀ a b, E.next a = some b → a < b ∧ b < E.heap.length ∧ owner b = owner a

/-- The listeners of a name are in the list of its handles, none of them behind `e`. -/
structure Held (next : ℕ → Option ℕ) (hd : Handles) (live : List ℕ) : Prop where
  reach : ∀ a ∈ live, Reach next hd.s a
  last : ∀ t, hd.e = some t → Reach next hd.s t ∧ ∀ a ∈ live, a ≤ t
  empty : hd.e = none → live = []

/-- The walk `f` has called some nodes and is to call others, all in the order of the heap
and older than itself. -/
structure Fixed (owner : ℕ → Name) (E : EventEmitter Name Cb) (f : Emission Name)
    (rest : List ℕ) : Prop where
  owner : owner f.node = f.name
  node : f.node < E.heap.length
  chain : Chain E.next (E.next f.node) rest
  sorted : (f.called ++ rest).Pairwise (· < ·)
  old : ∀ a ∈ f.called ++ rest, a < f.size
  size : f.size ≤ E.heap.length
  all : ∀ a ∈ f.start, a ∈ f.called ++ rest

/-- The same before the walk takes the node `h`. -/
structure Coming (owner : ℕ → Name) (E : EventEmitter Name Cb) (f : Emission Name) (h : Option ℕ)
    (rest : List ℕ) : Prop where
  handle : ∀ a, h = some a → a < E.heap.length ∧ owner a = f.name
  chain : Chain E.next h rest
  sorted : (f.called ++ rest).Pairwise (· < ·)
  old : ∀ a ∈ f.called ++ rest, a < f.size
  size : f.size ≤ E.heap.length
  all : ∀ a ∈ f.start, a ∈ f.called ++ rest

structure Ended (f : Emission Name) : Prop where
  sorted : f.called.Pairwise (· < ·)
  old : ∀ a ∈ f.called, a < f.size
  all : ∀ a ∈ f.start, a ∈ f.called

section Tidy

variable {owner : ℕ → Name} {E : EventEmitter Name Cb}

theorem Tidy.up (tidy : Tidy owner E) (a b : ℕ) (link : E.next a = some b) : a < b :=
  (tidy.link a b link).1

theorem Tidy.first_lt (tidy : Tidy owner E) {name : Name} {a : ℕ} (h : E.first name = some a) :
    a < E.heap.length ∧ owner a = name := by
  obtain ⟨hd, handles, hs⟩ := Option.bind_eq_some_iff.mp h
  exact tidy.handle name hd handles a (.inl hs)

theorem Tidy.next_lt (tidy : Tidy owner E) {a b : ℕ} (h : E.next a = some b) : b < E.heap.length :=
  (tidy.link a b h).2.1

/-- What is ahead is a chain. -/
theorem Tidy.ahead (tidy : Tidy owner E) {h : Option ℕ}
    (fits : ∀ a, h = some a → a < E.heap.length) : Chain E.next h (Reentrant.ahead E h) :=
  path_chain (fun a b link => ⟨(tidy.link a b link).1, (tidy.link a b link).2.1⟩) E.heap.length
    fun a ha => ⟨fits a ha, Nat.le_add_right _ _⟩

theorem Tidy.mem_ahead (tidy : Tidy owner E) {h : Option ℕ}
    (fits : ∀ a, h = some a → a < E.heap.length) {a : ℕ} :
    a ∈ Reentrant.ahead E h ↔ Reach E.next h a := (tidy.ahead fits).mem_iff

/-- All that is found from a node belongs to the same name. -/
theorem Tidy.owner_eq (tidy : Tidy owner E) {h : Option ℕ} {a b : ℕ} (reach : Reach E.next h b)
    (start : h = some a) : owner b = owner a := by
  induction reach generalizing a with
  | here => rw [Option.some.inj start]
  | @onwards c b later ih =>
      obtain rfl := Option.some.inj start
      cases link : E.next c with
      | none =>
          rw [link] at later
          cases later
      | some d => rw [ih link, (tidy.link c d link).2.2]

theorem Tidy.owner_first (tidy : Tidy owner E) {name : Name} {a : ℕ}
    (reach : Reach E.next (E.first name) a) : owner a = name := by
  cases h : E.first name with
  | none =>
      rw [h] at reach
      cases reach
  | some b => rw [tidy.owner_eq reach h, (tidy.first_lt h).2]

theorem Tidy.reach_lt (tidy : Tidy owner E) {h : Option ℕ} {b : ℕ} (reach : Reach E.next h b)
    (fits : ∀ a, h = some a → a < E.heap.length) : b < E.heap.length := by
  induction reach with
  | here => exact fits _ rfl
  | onwards _ ih => exact ih fun b link => tidy.next_lt link

end Tidy

section On

variable [DecidableEq Name] {owner : ℕ → Name} {E : EventEmitter Name Cb} {name : Name} {cb : Cb}
  {remove : Bool}

theorem on_length : (E.on name cb remove).heap.length = E.heap.length + 1 := by
  rw [on_heap]
  split <;> simp [setNext]

theorem on_once {a : ℕ} (lt : a < E.heap.length) :
    ((E.on name cb remove).heap[a]?).any Dat.remove = (E.heap[a]?).any Dat.remove := by
  have node := List.getElem?_eq_getElem lt
  obtain ⟨d, node', entry⟩ : ∃ d, (E.on name cb remove).heap[a]? = some d ∧
      d.entry = E.heap[a].entry := on_entry node
  rw [node, node']
  exact congrArg Entry.once entry

omit [DecidableEq Name] in
/-- The end of the list of a name. -/
theorem Tidy.tail (tidy : Tidy owner E) {t : ℕ}
    (last : (E.eventHandles name).bind Handles.e = some t) : t < E.heap.length ∧
      owner t = name := by
  obtain ⟨hd, handles, he⟩ := Option.bind_eq_some_iff.mp last
  exact tidy.handle name hd handles t (.inr he)

/-- The only new link leads from the end of the list to the new node. -/
theorem Tidy.on_link (tidy : Tidy owner E) {a b : ℕ}
    (link : (E.on name cb remove).next a = some b) :
    E.next a = some b ∨ (E.eventHandles name).bind Handles.e = some a ∧ b = E.heap.length := by
  by_cases last : (E.eventHandles name).bind Handles.e = some a
  · rw [on_next_last (tidy.tail last).1 last] at link
    exact .inr ⟨last, (Option.some.inj link).symm⟩
  · rcases on_next_eq_some (fun t ht => (tidy.tail ht).1) link with old | ⟨lt, rfl⟩
    · exact .inl old
    · rw [on_next_of_ne lt last] at link
      exact .inl link

theorem Tidy.on_stop (tidy : Tidy owner E) : (E.on name cb remove).next E.heap.length = none := by
  cases link : (E.on name cb remove).next E.heap.length with
  | none => rfl
  | some b =>
      rcases tidy.on_link link with old | ⟨last, -⟩
      · have := tidy.link _ b old
        omega
      · exact absurd (tidy.tail last).1 (Nat.lt_irrefl _)

theorem Tidy.on_reach (tidy : Tidy owner E) {h : Option ℕ} {a : ℕ}
    (reach : Reach (E.on name cb remove).next h a) : Reach E.next h a ∨ a = E.heap.length :=
  reach.grow (fun _ _ link => (tidy.on_link link).imp_right And.right) tidy.on_stop

theorem Tidy.on (tidy : Tidy owner E) :
    Tidy (Function.update owner E.heap.length name) (E.on name cb remove) := by
  have old : ∀ a < E.heap.length, Function.update owner E.heap.length name a = owner a :=
    fun a lt => Function.update_of_ne (Nat.ne_of_lt lt) ..
  constructor
  · intro other hd handles a ha
    rw [on_length]
    by_cases same : other = name
    · subst same
      rw [on_handles] at handles
      obtain rfl := Option.some.inj handles
      have new : a = E.heap.length → a < E.heap.length + 1 ∧
          Function.update owner E.heap.length other a = other := by
        rintro rfl
        exact ⟨Nat.lt_succ_self _, Function.update_self ..⟩
      rcases ha with first | last
      · dsimp only at first
        split at first
        · exact new (Option.some.inj first).symm
        · obtain ⟨lt, isOwner⟩ := tidy.first_lt first
          exact ⟨Nat.lt_succ_of_lt lt, (old a lt).trans isOwner⟩
      · exact new (Option.some.inj last).symm
    · rw [on_handles_of_ne same] at handles
      obtain ⟨lt, isOwner⟩ := tidy.handle other hd handles a ha
      exact ⟨Nat.lt_succ_of_lt lt, (old a lt).trans isOwner⟩
  · intro a b link
    rw [on_length]
    rcases tidy.on_link link with before | ⟨last, rfl⟩
    · obtain ⟨lt, lt', same⟩ := tidy.link a b before
      exact ⟨lt, Nat.lt_succ_of_lt lt', by rw [old b lt', old a (Nat.lt_trans lt lt'), same]⟩
    · obtain ⟨lt, isOwner⟩ := tidy.tail last
      exact ⟨lt, Nat.lt_succ_self _, by rw [Function.update_self, old a lt, isOwner]⟩

/-- The new node is the last one of its name. -/
theorem Held.on (tidy : Tidy owner E) {live : List ℕ}
    (held : ∀ hd, E.eventHandles name = some hd → Held E.next hd live)
    (absent : E.eventHandles name = none → live = []) {hd' : Handles}
    (handles' : (E.on name cb remove).eventHandles name = some hd') :
    Held (E.on name cb remove).next hd' (live ++ [E.heap.length]) := by
  rw [on_handles] at handles'
  obtain rfl := Option.some.inj handles'
  cases last : (E.eventHandles name).bind Handles.e with
  | none =>
      have nothing : live = [] := by
        cases handles : E.eventHandles name with
        | none => exact absent handles
        | some hd => exact (held hd handles).empty (by rw [handles] at last; exact last)
      subst nothing
      exact ⟨by simp [Reach.here], fun t ht => by simp_all [Reach.here], fun none => by cases none⟩
  | some t =>
      obtain ⟨hd, handles, he⟩ := Option.bind_eq_some_iff.mp last
      have held := held hd handles
      have first : E.first name = hd.s := by rw [EventEmitter.first, handles]; rfl
      obtain ⟨toLast, le⟩ := held.last t he
      have before : ∀ b < t, (E.on name cb remove).next b = E.next b := fun b lt =>
        on_next_of_ne (Nat.lt_trans lt (tidy.tail last).1)
          (by rw [last]; exact fun e => Nat.ne_of_gt lt (Option.some.inj e))
      have new : Reach (E.on name cb remove).next hd.s E.heap.length :=
        (toLast.frame_lt tidy.up before).link (on_next_last (tidy.tail last).1 last)
      dsimp only
      rw [first]
      refine ⟨fun a ha => ?_, fun u hu => ?_, fun none => by cases none⟩
      · rcases List.mem_append.mp ha with old | isNew
        · exact (held.reach a old).frame_lt tidy.up fun b lt =>
            before b (Nat.lt_of_lt_of_le lt (le a old))
        · rw [List.mem_singleton.mp isNew]
          exact new
      · obtain rfl := Option.some.inj hu
        refine ⟨new, fun a ha => ?_⟩
        rcases List.mem_append.mp ha with old | isNew
        · exact Nat.le_of_lt (Nat.lt_of_le_of_lt (le a old) (tidy.tail last).1)
        · rw [List.mem_singleton.mp isNew]

/-- Other names do not see it. -/
theorem Held.on_of_ne (tidy : Tidy owner E) {other : Name} (ne : other ≠ name) {hd : Handles}
    (handles : E.eventHandles other = some hd) {live : List ℕ} (held : Held E.next hd live) :
    Held (E.on name cb remove).next hd live := by
  have first : E.first other = hd.s := by rw [EventEmitter.first, handles]; rfl
  have kept : ∀ a, Reach E.next hd.s a → Reach (E.on name cb remove).next hd.s a := by
    intro a reach
    rw [← first] at reach ⊢
    refine reach.frame fun b on_ => on_next_of_ne ?_ fun last => ?_
    · exact tidy.reach_lt on_ fun c hc => (tidy.first_lt hc).1
    · exact ne ((tidy.owner_first on_).symm.trans (tidy.tail last).2)
  exact ⟨fun a ha => kept a (held.reach a ha), fun t ht => (held.last t ht).imp_left (kept t),
    held.empty⟩

theorem Fixed.on (tidy : Tidy owner E) {f : Emission Name} {rest : List ℕ}
    (fixed : Fixed owner E f rest)
    (away : ∀ t, (E.eventHandles name).bind Handles.e = some t → t ≠ f.node ∧ t ∉ rest) :
    Fixed (Function.update owner E.heap.length name) (E.on name cb remove) f rest where
  owner := by rw [Function.update_of_ne (Nat.ne_of_lt fixed.node), fixed.owner]
  node := by
    rw [on_length]
    exact Nat.lt_succ_of_lt fixed.node
  chain := by
    rw [on_next_of_ne fixed.node fun last => (away _ last).1 rfl]
    refine fixed.chain.frame fun a ha => on_next_of_ne ?_ fun last => (away a last).2 ha
    exact tidy.reach_lt (fixed.chain.mem_iff.mp ha) fun b => tidy.next_lt
  sorted := fixed.sorted
  old := fixed.old
  size := by
    rw [on_length]
    exact Nat.le_succ_of_le fixed.size
  all := fixed.all

end On

section Take

variable {next : ℕ → Option ℕ} {hd : Handles} {live live' : List ℕ}

theorem Held.mono (held : Held next hd live) (sub : live' ⊆ live) : Held next hd live' where
  reach a ha := held.reach a (sub ha)
  last t ht := (held.last t ht).imp_right fun le a ha => le a (sub ha)
  empty none := List.eq_nil_of_subset_nil (held.empty none ▸ sub)

/-- A node of the list is taken out; `p` is the last one before it that stays. -/
theorem Held.take (held : Held next hd live) {h : ℕ} {p : Option ℕ}
    (hp : ∀ q, p = some q → Reach next hd.s q ∧ q < h)
    (before : ∀ b ∈ live, b < h → ∃ q, p = some q ∧ b ≤ q) :
    Held next ⟨if some h = hd.s then next h else hd.s, if some h = hd.e then p else hd.e⟩
      (live.filter (· != h)) := by
  have apart : ∀ b ∈ live.filter (· != h), b ∈ live ∧ b ≠ h := fun b hb => by
    simpa using List.mem_filter.mp hb
  refine ⟨fun a ha => ?_, fun t ht => ?_, fun none => ?_⟩
  · obtain ⟨mem, ne⟩ := apart a ha
    exact (held.reach a mem).skip ne
  · dsimp only at ht
    split at ht
    · next isLast =>
        obtain ⟨toT, lt⟩ := hp t ht
        refine ⟨toT.skip (Nat.ne_of_lt lt), fun a ha => ?_⟩
        obtain ⟨mem, ne⟩ := apart a ha
        have le := (held.last h isLast.symm).2 a mem
        obtain ⟨q, hq, le⟩ := before a mem (Nat.lt_of_le_of_ne le ne)
        rw [ht] at hq
        exact Option.some.inj hq ▸ le
    · next other =>
        obtain ⟨toT, le⟩ := held.last t ht
        refine ⟨toT.skip fun same => other (same ▸ ht.symm), fun a ha => le a (apart a ha).1⟩
  · dsimp only at none
    split at none
    · next isLast =>
        refine List.eq_nil_iff_forall_not_mem.mpr fun a ha => ?_
        obtain ⟨mem, ne⟩ := apart a ha
        have le := (held.last h isLast.symm).2 a mem
        obtain ⟨q, hq, -⟩ := before a mem (Nat.lt_of_le_of_ne le ne)
        rw [none] at hq
        cases hq
    · rw [held.empty none]
      rfl

end Take

section Walk

variable [DecidableEq Name] {owner : ℕ → Name} {name : Name} {Data : Type}

theorem Tidy.adjust {E : EventEmitter Name Cb} (tidy : Tidy owner E) {hd : Handles}
    (fits : ∀ a, hd.s = some a ∨ hd.e = some a → a < E.heap.length ∧ owner a = name) (k : ℕ) :
    Tidy owner (E.adjust name hd k) where
  handle other hd' handles a ha := by
    by_cases same : other = name
    · subst same
      rw [adjust_eventHandles] at handles
      obtain rfl := Option.some.inj handles
      exact fits a ha
    · rw [adjust_eventHandles_of_ne same] at handles
      exact tidy.handle other hd' handles a ha
  link := tidy.link

/-- The table entry that `_remove` stores stays in the list of its name. -/
theorem Tidy.take {E : EventEmitter Name Cb} (tidy : Tidy owner E) {hd : Handles}
    (handles : E.eventHandles name = some hd) (h : ℕ) {p : Option ℕ}
    (hp : ∀ q, p = some q → Reach E.next hd.s q) :
    Tidy owner (E.adjust name
      ⟨if some h = hd.s then E.next h else hd.s, if some h = hd.e then p else hd.e⟩ 1) := by
  have first : E.first name = hd.s := by rw [EventEmitter.first, handles]; rfl
  have inList : ∀ x, Reach E.next hd.s x → x < E.heap.length ∧ owner x = name := by
    intro x toX
    rw [← first] at toX
    exact ⟨tidy.reach_lt toX fun b hb => (tidy.first_lt hb).1, tidy.owner_first toX⟩
  refine tidy.adjust (fun x hx => ?_) 1
  rcases hx with isFirst | isLast
  · dsimp only at isFirst
    have toX : Reach E.next (if some h = hd.s then E.next h else hd.s) x := isFirst ▸ .here
    exact inList x toX.of_skip
  · dsimp only at isLast
    split at isLast
    · exact inList x (hp x isLast)
    · exact tidy.handle name hd handles x (.inr isLast)

/-- What a walk of `removeListener` leaves. -/
structure Left (owner : ℕ → Name) (name : Name) (E E' : EventEmitter Name Cb) (hd hd' : Handles) :
    Prop where
  heap : E'.heap = E.heap
  others : ∀ m, m ≠ name → E'.eventHandles m = E.eventHandles m
  handles : E'.eventHandles name = some hd'
  tidy : Tidy owner E'
  first : ∀ a, Reach E.next hd'.s a → Reach E.next hd.s a

/-- The rest of the walk, at the node `h` with `p` the last node that stays. -/
theorem Held.iterator (takes : Dat Cb → Bool) (calls : Dat Cb → List (Call Cb Data)) (fuel : ℕ)
    {E : EventEmitter Name Cb} (done : List (Call Cb Data)) {h p : Option ℕ} {hd : Handles}
    {live : List ℕ} (tidy : Tidy owner E) (handles : E.eventHandles name = some hd)
    (held : Held E.next hd live)
    (bound : ∀ a, h = some a → a < E.heap.length ∧ owner a = name ∧ E.heap.length ≤ fuel + a ∧
      Reach E.next hd.s a)
    (hp : ∀ q, p = some q → Reach E.next hd.s q ∧ ∀ a, h = some a → q < a)
    (before : ∀ b ∈ live, ∀ a, h = some a → b < a → ∃ q, p = some q ∧ b ≤ q) :
    ∃ E' done' hd', EventEmitter.iterator (fun st => st.1.next) (visit name takes id calls) fuel
        (E, done) h p = .ok (E', done') ∧ Left owner name E E' hd hd' ∧
      Held E.next hd' (live.filter fun a => !(E.heap[a]?).any takes) := by
  induction fuel generalizing E done h p hd live with
  | zero =>
      cases h with
      | none =>
          exact ⟨E, done, hd, rfl, ⟨rfl, fun _ _ => rfl, handles, tidy, fun _ reach => reach⟩,
            held.mono (List.filter_subset_self live)⟩
      | some a =>
          obtain ⟨lt, -, le, -⟩ := bound a rfl
          omega
  | succ fuel ih =>
      cases h with
      | none =>
          exact ⟨E, done, hd, rfl, ⟨rfl, fun _ _ => rfl, handles, tidy, fun _ reach => reach⟩,
            held.mono (List.filter_subset_self live)⟩
      | some a =>
          obtain ⟨lt, isOwner, le, reach⟩ := bound a rfl
          have stored := List.getElem?_eq_getElem lt
          have upTo : ∀ b ∈ live, ∀ c, E.next a = some c → b < c → b ≤ a :=
            fun b hb c link before => (held.reach b hb).le_of_link tidy.up reach link before
          have further : ∀ c, E.next a = some c →
              c < E.heap.length ∧ owner c = name ∧ E.heap.length ≤ fuel + c := by
            intro c link
            obtain ⟨up, lt', same⟩ := tidy.link a c link
            exact ⟨lt', same.trans isOwner, by omega⟩
          cases taken : takes E.heap[a] with
          | false =>
              obtain ⟨E', done', hd', run, rest⟩ := ih (done ++ calls E.heap[a]) tidy handles held
                (fun c link => ⟨(further c link).1, (further c link).2.1, (further c link).2.2,
                  reach.link link⟩)
                (fun q hq => Option.some.inj hq ▸ ⟨reach, fun c link => tidy.up a c link⟩)
                fun b hb c link lt => ⟨a, rfl, upTo b hb c link lt⟩
              refine ⟨E', done', hd', ?_, rest⟩
              simp [EventEmitter.iterator, visit_kept stored taken, bind, Except.bind, run]
          | true =>
              let hd₁ : Handles :=
                ⟨if some a = hd.s then E.next a else hd.s, if some a = hd.e then p else hd.e⟩
              have tidy₁ : Tidy owner (E.adjust name hd₁ 1) :=
                tidy.take handles a fun q hq => (hp q hq).1
              have held₁ : Held E.next hd₁ (live.filter (· != a)) :=
                held.take (fun q hq => (hp q hq).imp_right fun lt => lt a rfl)
                  fun b hb lt => before b hb a rfl lt
              obtain ⟨E', done', hd', run, left, held'⟩ := ih
                (done ++ calls E.heap[a]) tidy₁ (adjust_eventHandles ..) held₁
                (fun c link => ⟨(further c link).1, (further c link).2.1, (further c link).2.2,
                  (reach.link link).skip (Nat.ne_of_gt (tidy.up a c link))⟩)
                (fun q hq => ⟨(hp q hq).1.skip (Nat.ne_of_lt ((hp q hq).2 a rfl)), fun c link =>
                  Nat.lt_trans ((hp q hq).2 a rfl) (tidy.up a c link)⟩)
                fun b hb c link lt => by
                  obtain ⟨mem, ne⟩ := List.mem_filter.mp hb
                  have ne : b ≠ a := by simpa using ne
                  exact before b mem a rfl (Nat.lt_of_le_of_ne (upTo b mem c link lt) ne)
              have same : (live.filter (· != a)).filter (fun x => !(E.heap[x]?).any takes) =
                  live.filter fun x => !(E.heap[x]?).any takes := by
                rw [List.filter_filter]
                refine List.filter_congr fun x _ => ?_
                by_cases e : x = a
                · simp [e, stored, taken]
                · simp [e]
              refine ⟨E', done', hd', ?_, ⟨left.heap, fun m ne => ?_, left.handles, left.tidy,
                fun x toX => (left.first x toX).of_skip⟩, same ▸ held'⟩
              · have visited : visit name takes id calls (E, done) a p =
                    .ok ((E.adjust name hd₁ 1, done ++ calls E.heap[a]), true) :=
                  visit_taken stored taken handles
                simp [EventEmitter.iterator, visited, bind, Except.bind, run]
              · rw [left.others m ne, adjust_eventHandles_of_ne ne]

end Walk

theorem next_congr {E E' : EventEmitter Name Cb} (heap : E'.heap = E.heap) : E'.next = E.next := by
  funext a
  rw [EventEmitter.next, heap]
  rfl

theorem Fixed.congr {owner : ℕ → Name} {E E' : EventEmitter Name Cb} {f : Emission Name}
    {rest : List ℕ} (fixed : Fixed owner E f rest) (heap : E'.heap = E.heap) :
    Fixed owner E' f rest where
  owner := fixed.owner
  node := heap ▸ fixed.node
  chain := next_congr heap ▸ fixed.chain
  sorted := fixed.sorted
  old := fixed.old
  size := heap ▸ fixed.size
  all := fixed.all

theorem Fixed.coming {owner : ℕ → Name} {E : EventEmitter Name Cb} (tidy : Tidy owner E)
    {f : Emission Name} {rest : List ℕ} (fixed : Fixed owner E f rest) :
    Coming owner E f (E.next f.node) rest where
  handle a link := by
    obtain ⟨-, lt, same⟩ := tidy.link f.node a link
    exact ⟨lt, same.trans fixed.owner⟩
  chain := fixed.chain
  sorted := fixed.sorted
  old := fixed.old
  size := fixed.size
  all := fixed.all

/-- The walk is over. -/
theorem Coming.ended {owner : ℕ → Name} {E : EventEmitter Name Cb} {f : Emission Name}
    {rest : List ℕ} (coming : Coming owner E f none rest) : Ended f := by
  have chain := coming.chain
  cases chain
  constructor
  · simpa using coming.sorted
  · simpa using coming.old
  · simpa using coming.all

/-- The walk calls the node. -/
theorem Coming.fixed {owner : ℕ → Name} {E : EventEmitter Name Cb} {f : Emission Name} {a : ℕ}
    {rest : List ℕ} (coming : Coming owner E f (some a) rest) :
    ∃ later, Fixed owner E { f with node := a, called := f.called ++ [a] } later := by
  have chain := coming.chain
  cases chain with
  | @cons _ later chain =>
      have split : f.called ++ a :: later = (f.called ++ [a]) ++ later := by
        rw [List.append_assoc, List.singleton_append]
      exact ⟨later,
        { owner := (coming.handle a rfl).2
          node := (coming.handle a rfl).1
          chain := chain
          sorted := split ▸ coming.sorted
          old := split ▸ coming.old
          size := coming.size
          all := split ▸ coming.all }⟩

end ThreadJs.Events
