import Mathlib.Data.Finset.Card
import Mathlib.Order.Interval.Finset.Nat
import ThreadJs.Rpc.Proxy

/-!
Every reply reaches the callback of its own call.

Each call has an event name of its own, so its listener is alone in its list, and the
slip in `_remove`, which unlinks no node, does not matter: taking out the only node
empties the list. A late reply finds the empty list, and so does a second `unbind`.
-/

namespace ThreadJs.Rpc

open Events Machine EventEmitter

variable {User Value : Type}

/-! ### Names -/

theorem key_injective : Function.Injective key := by
  intro i j same
  have digits : Nat.toDigits 10 i = Nat.toDigits 10 j := by
    have lists := congrArg String.toList same
    rw [key, key, String.toList_append, String.toList_append, List.append_cancel_left_eq,
      Js.toList_toString, Js.toList_toString] at lists
    exact lists
  rw [← Nat.ofDigitChars_ten_toDigits (n := i), digits, Nat.ofDigitChars_ten_toDigits]

theorem isBackCall_key (k : ℕ) : isBackCall (key k) = true := by
  rw [isBackCall, key, String.toList_append]
  exact List.isPrefixOf_iff_prefix.mpr (List.prefix_append _ _)

/-! ### The log -/

section Log

variable {k : ℕ}

theorem given_append (log es : List (Event Value)) :
    given k (log ++ es) = given k log ++ given k es :=
  List.filterMap_append

theorem delivered_append (log es : List (Event Value)) :
    delivered k (log ++ es) = delivered k log ++ delivered k es :=
  List.filterMap_append

theorem invoked_append (log es : List (Event Value)) :
    invoked k (log ++ es) = invoked k log ++ invoked k es :=
  List.filterMap_append

theorem isUnbound_append (log es : List (Event Value)) :
    isUnbound k (log ++ es) = (isUnbound k log || isUnbound k es) :=
  List.any_append

theorem deliveredBefore_append (log es : List (Event Value)) :
    deliveredBefore k (log ++ es) =
      if isUnbound k log then deliveredBefore k log
      else delivered k log ++ deliveredBefore k es := by
  induction log with
  | nil => rfl
  | cons e log ih =>
      unfold deliveredBefore at ih ⊢
      cases unbinds : e.unbinds k with
      | true => simp [isUnbound, unbinds]
      | false =>
          have rest : isUnbound k (e :: log) = isUnbound k log := by simp [isUnbound, unbinds]
          have first : ∀ l : List (Event Value),
              delivered k (e :: l) = delivered k [e] ++ delivered k l :=
            fun l => delivered_append [e] l
          rw [rest, List.cons_append, List.takeWhile_cons_of_pos (by simp [unbinds]), first, ih,
            List.takeWhile_cons_of_pos (by simp [unbinds])]
          split
          · exact (first _).symm
          · rw [first log, List.append_assoc]

/-- Nothing of a call is in the log. -/
theorem delivered_eq_nil {log : List (Event Value)} (h : ∀ r, .delivered k r ∉ log) :
    delivered k log = [] := by
  refine List.filterMap_eq_nil_iff.mpr fun e he => ?_
  cases e with
  | delivered j r =>
      refine if_neg ?_
      rintro rfl
      exact h r he
  | _ => rfl

/-- Before a call is unbound every reply counts. -/
theorem deliveredBefore_of_not_unbound {log : List (Event Value)}
    (bound : isUnbound k log = false) :
    deliveredBefore k log = delivered k log := by
  have all := deliveredBefore_append (k := k) log []
  rw [bound, List.append_nil] at all
  simpa [deliveredBefore, delivered] using all

theorem deliveredBefore_sublist (log : List (Event Value)) :
    (deliveredBefore k log).Sublist (delivered k log) :=
  List.Sublist.filterMap _ (List.takeWhile_sublist _)

end Log

/-! ### The listener of a call -/

/-- The node of a call, and what stands under its name while it is open and afterwards. -/
def Slot (E : EventEmitter String (Listener User)) (k : ℕ) (multiple isOpen : Bool) : Prop :=
  ∃ a, E.heap[a]? = some ⟨.reply k, none, !multiple⟩ ∧
    E.eventHandles (key k) = some (if isOpen then ⟨some a, some a⟩ else ⟨none, none⟩)

section Slot

variable {E E' : EventEmitter String (Listener User)} {k : ℕ} {multiple isOpen : Bool}

theorem Slot.same (h : Slot E k multiple isOpen) (same : SameOwn isBackCall Listener.isReply E E') :
    Slot E' k multiple isOpen := by
  obtain ⟨a, node, handles⟩ := h
  exact ⟨a, same.heap a _ node rfl, (same.handles _ (isBackCall_key k)).trans handles⟩

/-- Handles under another name are changed. -/
theorem Slot.adjust {j : ℕ} (ne : k ≠ j) (h : Slot E k multiple isOpen) (hd : Handles) (n : ℕ) :
    Slot (E.adjust (key j) hd n) k multiple isOpen := by
  obtain ⟨a, node, handles⟩ := h
  exact ⟨a, node, (adjust_eventHandles_of_ne (key_injective.ne ne) hd n).trans handles⟩

theorem Slot.on {j : ℕ} (ne : k ≠ j) (h : Slot E k multiple isOpen)
    (fresh : E.eventHandles (key j) = none) (cb : Listener User) (remove : Bool) :
    Slot (E.on (key j) cb remove) k multiple isOpen := by
  obtain ⟨a, node, handles⟩ := h
  refine ⟨a, ?_, (on_handles_of_ne (key_injective.ne ne)).trans handles⟩
  rw [on_heap_of_none fresh, List.getElem?_append_left (List.getElem?_eq_some_iff.mp node).1, node]

theorem Slot.new (fresh : E.eventHandles (key k) = none) :
    Slot (E.on (key k) (.reply k) (!multiple)) k multiple true := by
  refine ⟨E.heap.length, ?_, on_handles_of_none fresh _ _⟩
  rw [on_heap_of_none fresh, List.getElem?_concat_length]

/-- The only listener of a call is taken out; `n` is how often the counters go down. -/
theorem Slot.closed (h : Slot E k multiple isOpen) (n : ℕ) :
    Slot (E.adjust (key k) ⟨none, none⟩ n) k multiple false := by
  obtain ⟨a, node, -⟩ := h
  exact ⟨a, node, adjust_eventHandles ..⟩

theorem Slot.first (h : Slot E k multiple false) : E.first (key k) = none := by
  obtain ⟨a, -, handles⟩ := h
  rw [EventEmitter.first, handles]
  rfl

/-- `off` of the name of a call. -/
theorem Slot.removeListener [DecidableEq User] {Data : Type} (h : Slot E k multiple isOpen) :
    (E.removeListener (key k) none : Except Fault (_ × List (Call _ Data))) =
      .ok (if isOpen then E.adjust (key k) ⟨none, none⟩ 1 else E, []) := by
  obtain ⟨a, node, handles⟩ := h
  cases isOpen with
  | false =>
      unfold EventEmitter.removeListener EventEmitter.walk
      rw [handles]
      simp only [Bool.false_eq_true, if_false]
      cases E.heap.length <;> rfl
  | true =>
      have some : 0 < E.heap.length :=
        Nat.lt_of_le_of_lt (Nat.zero_le a) (List.getElem?_eq_some_iff.mp node).1
      obtain ⟨fuel, hfuel⟩ := Nat.exists_eq_succ_of_ne_zero (Nat.ne_of_gt some)
      have alone : E.next a = none := by rw [EventEmitter.next, node]; rfl
      unfold EventEmitter.removeListener EventEmitter.walk
      rw [handles, hfuel]
      simp only [if_true, Nat.succ_eq_add_one, EventEmitter.iterator]
      rw [visit_taken node rfl handles]
      simp only [bind, Except.bind, adjust_next, alone, id_eq]
      cases fuel <;> simp [EventEmitter.iterator]

/-- The node of an open call is called; a listener for one reply is taken out first. -/
theorem Slot.visitNode (h : Slot E k multiple true) :
    ∃ a, E.first (key k) = some a ∧ E.heap[a]? = some ⟨.reply k, none, !multiple⟩ ∧
      visitNode E (key k) a =
        .ok (if multiple then E else E.adjust (key k) ⟨none, none⟩ 1, .reply k) := by
  obtain ⟨a, node, handles⟩ := h
  refine ⟨a, by rw [EventEmitter.first, handles]; rfl, node, ?_⟩
  cases multiple with
  | true => simp [Rpc.visitNode, node]
  | false =>
      have alone : E.next a = none := by rw [EventEmitter.next, node]; rfl
      simp only [if_true] at handles
      simp [Rpc.visitNode, node, remove_eq handles, alone, Except.map]

end Slot

/-! ### The rest of the code -/

/-- A walk in progress will find no node of a call any more. -/
def FrameOk (E : EventEmitter String (Listener User)) (f : Frame Value) : Prop :=
  (∃ k remove, E.heap[f.h]? = some ⟨.reply k, none, remove⟩) ∨
    isBackCall f.name = false ∧ Foreign Listener.isReply E.heap f.h

theorem FrameOk.same {E E' : EventEmitter String (Listener User)} {f : Frame Value}
    (h : FrameOk E f) (same : SameOwn isBackCall Listener.isReply E E') : FrameOk E' f := by
  rcases h with ⟨k, remove, node⟩ | ⟨name, node⟩
  · exact .inl ⟨k, remove, same.heap _ _ node rfl⟩
  · exact .inr ⟨name, same.foreign _ node⟩

/-- A node of the rest of the code is called. -/
theorem visitNode_foreign {E E' : EventEmitter String (Listener User)} {name : String} {a : ℕ}
    {cb : Listener User} (apart : Apart isBackCall Listener.isReply E)
    (foreign : isBackCall name = false) (node : Foreign Listener.isReply E.heap a)
    (visit : visitNode E name a = .ok (E', cb)) :
    cb.isReply = false ∧ Apart isBackCall Listener.isReply E' ∧
      SameOwn isBackCall Listener.isReply E E' := by
  obtain ⟨d, stored, user⟩ := id node
  cases remove : d.remove with
  | false =>
      obtain ⟨rfl, rfl⟩ : E = E' ∧ d.cb = cb := by simpa [visitNode, stored, remove] using visit
      exact ⟨user, apart, .refl E⟩
  | true =>
      cases handles : E.eventHandles name with
      | none => simp [visitNode, stored, remove, EventEmitter.remove, handles, Except.map] at visit
      | some hd =>
          obtain ⟨hd', removed, apart', same⟩ :=
            apart.remove (p := none) foreign node (fun b hb => by cases hb) handles
          obtain ⟨rfl, rfl⟩ : E.adjust name hd' 1 = E' ∧ d.cb = cb := by
            simpa [visitNode, stored, remove, removed, Except.map] using visit
          exact ⟨user, apart', same⟩

/-! ### The invariant -/

/-- The calls that wait for a reply. -/
def State.openCalls (s : State User Value) : Finset ℕ :=
  (Finset.Icc 1 s.id).filter fun k => s.isOpen k = true

def Event.call : Event Value → ℕ
  | .given k _ | .delivered k _ | .invoked k _ | .unbound k => k

/-- The emitter: the calls that are open, and no other, have a listener. -/
structure Listening (s : State User Value) : Prop where
  apart : Apart isBackCall Listener.isReply s.emitter
  slot : ∀ k, 1 ≤ k → k ≤ s.id → Slot s.emitter k (s.multiple k) (s.isOpen k)
  fresh : ∀ k, s.id < k → s.emitter.eventHandles (key k) = none
  frames : ∀ f ∈ s.frames, FrameOk s.emitter f
  counted : s.emitter.allCount = s.others + s.openCalls.card

/-- The messages and the history. -/
structure Logged (s : State User Value) : Prop where
  /-- Only calls that were made are on their way or in the log. -/
  made : ∀ k, k ∈ s.toMain ∨ k ∈ s.started ∨ k ∈ s.toThread.map Prod.fst ∨
    k ∈ s.log.map Event.call →
    1 ≤ k ∧ k ≤ s.id
  channel : ∀ k, given k s.log = delivered k s.log ++ inFlight k s.toThread
  single : ∀ k, s.multiple k = false → invoked k s.log = (delivered k s.log).take 1
  multiple : ∀ k, s.multiple k = true → invoked k s.log = deliveredBefore k s.log

structure Inv (s : State User Value) : Prop extends Listening s, Logged s

theorem inv_init : Inv (init : State User Value) where
  apart := apart_new
  slot := fun k one le => absurd (Nat.le_trans one le) nofun
  fresh := fun _ _ => rfl
  frames := nofun
  counted := rfl
  made := by rintro k (h | h | h | h) <;> cases h
  channel := fun _ => rfl
  single := fun _ _ => rfl
  multiple := fun _ _ => rfl

variable {s t : State User Value}

/-- The rest of the code changes the emitter. -/
theorem Inv.other (h : Inv s) {E : EventEmitter String (Listener User)}
    (apart : Apart isBackCall Listener.isReply E)
    (same : SameOwn isBackCall Listener.isReply s.emitter E) {frames : List (Frame Value)}
    (ok : ∀ f ∈ frames, FrameOk E f) :
    Inv { s with
      emitter := E
      frames := frames
      others := s.others + (E.allCount - s.emitter.allCount) } where
  apart := apart
  slot k one le := (h.slot k one le).same same
  fresh k lt := (same.handles _ (isBackCall_key k)).trans (h.fresh k lt)
  frames := ok
  counted := by
    have counted := h.counted
    change E.allCount = s.others + (E.allCount - s.emitter.allCount) + s.openCalls.card
    omega
  made := h.made
  channel := h.channel
  single := h.single
  multiple := h.multiple

/-- A walk of the rest of the code goes on. -/
theorem Inv.walk (h : Inv s) {name : String} (foreign : isBackCall name = false)
    (data : Reply Value)
    {p : Option ℕ} (start : ForeignOrNone Listener.isReply s.emitter.heap p) :
    Inv (s.walk name data p) := by
  cases p with
  | none => exact h
  | some a =>
      have node := start a rfl
      simp only [State.walk]
      split
      · exact h
      · next E cb visit =>
          obtain ⟨user, apart, same⟩ := visitNode_foreign h.apart foreign node visit
          obtain ⟨u, rfl⟩ : ∃ u, cb = .user u := by
            cases cb with
            | reply k => cases user
            | user u => exact ⟨u, rfl⟩
          simp only [foreign, Bool.false_eq_true, if_false, List.append_nil]
          refine h.other apart same fun f hf => ?_
          rcases List.mem_cons.mp hf with rfl | hf
          · exact .inr ⟨foreign, same.foreign a node⟩
          · exact (h.frames f hf).same same

/-- What is in the log of a call that was not made. -/
theorem Inv.unmade (h : Inv s) {k : ℕ} (lt : s.id < k) :
    delivered k s.log = [] ∧ invoked k s.log = [] ∧ isUnbound k s.log = false := by
  have absent : ∀ e ∈ s.log, e.call ≠ k := by
    rintro e he rfl
    have := (h.made _ (.inr (.inr (.inr (List.mem_map_of_mem he))))).2
    omega
  have none : delivered k s.log = [] := delivered_eq_nil fun r hr => absent _ hr rfl
  refine ⟨none, ?_, ?_⟩
  · cases multiple : s.multiple k with
    | false => rw [h.single k multiple, none, List.take_nil]
    | true =>
        rw [h.multiple k multiple]
        exact List.sublist_nil.mp (none ▸ deliveredBefore_sublist s.log)
  · rw [isUnbound, List.any_eq_false]
    intro e he
    cases e with
    | unbound j => simpa [Event.unbinds, Event.call] using absent _ he
    | _ => simp [Event.unbinds]

/-! ### Steps -/

section Call

/-- What a call leaves behind. -/
def State.called (s : State User Value) (multiple : Bool) : State User Value :=
  { s with
    emitter := s.emitter.on (key (s.id + 1)) (.reply (s.id + 1)) (!multiple)
    id := s.id + 1
    multiple := Function.update s.multiple (s.id + 1) multiple
    toMain := s.toMain ++ [s.id + 1] }

variable (multiple : Bool)

theorem called_multiple {k : ℕ} (ne : k ≠ s.id + 1) :
    (s.called multiple).multiple k = s.multiple k := Function.update_of_ne ne _ _

/-- The new call is open, and the others are as before. -/
theorem Inv.called_isOpen (h : Inv s) (k : ℕ) :
    (s.called multiple).isOpen k = if k = s.id + 1 then true else s.isOpen k := by
  obtain ⟨delivered, -, unbound⟩ := h.unmade (Nat.lt_succ_self s.id)
  split
  · next new =>
      subst new
      simp [State.isOpen, State.called, unbound, delivered]
  · next ne =>
      simp only [State.isOpen, called_multiple multiple ne]
      rfl

theorem Inv.called_openCalls (h : Inv s) :
    (s.called multiple).openCalls = insert (s.id + 1) s.openCalls := by
  ext k
  rw [Finset.mem_insert, State.openCalls, Finset.mem_filter, Finset.mem_Icc, State.openCalls,
    Finset.mem_filter, Finset.mem_Icc, h.called_isOpen]
  change (1 ≤ k ∧ k ≤ s.id + 1) ∧ _ ↔ _
  split
  · next new => exact iff_of_true ⟨by omega, rfl⟩ (.inl new)
  · next ne =>
      rw [or_iff_right ne]
      exact and_congr_left fun _ => by omega

theorem FrameOk.called {f : Frame Value} (fresh : s.emitter.eventHandles (key (s.id + 1)) = none)
    (h : FrameOk s.emitter f) : FrameOk (s.called multiple).emitter f := by
  rcases h with ⟨k, remove, node⟩ | ⟨foreign, node⟩
  · refine .inl ⟨k, remove, ?_⟩
    rw [State.called, on_heap_of_none fresh,
      List.getElem?_append_left (List.getElem?_eq_some_iff.mp node).1, node]
  · refine .inr ⟨foreign, ?_⟩
    rw [State.called, on_heap_of_none fresh]
    exact node.append _

/-- A new call listens to its first reply. -/
theorem Inv.call (h : Inv s) : Inv (s.called multiple) where
  apart := h.apart.on_own rfl (h.fresh _ (Nat.lt_succ_self _)) (isBackCall_key _) _
  slot k one le := by
    have fresh := h.fresh (s.id + 1) (Nat.lt_succ_self _)
    rw [h.called_isOpen]
    split
    · next new =>
        subst new
        have flag : (s.called multiple).multiple (s.id + 1) = multiple := Function.update_self ..
        rw [flag]
        exact .new fresh
    · next ne =>
        rw [called_multiple multiple ne]
        exact (h.slot k one (Nat.le_of_lt_succ (Nat.lt_of_le_of_ne le ne))).on ne fresh _ _
  fresh k lt := by
    have ne : k ≠ s.id + 1 := Nat.ne_of_gt lt
    exact (on_handles_of_ne (key_injective.ne ne)).trans (h.fresh k (Nat.lt_of_succ_lt lt))
  frames f hf := (h.frames f hf).called multiple (h.fresh _ (Nat.lt_succ_self _))
  counted := by
    have outside : s.id + 1 ∉ s.openCalls := by
      intro member
      rw [State.openCalls, Finset.mem_filter, Finset.mem_Icc] at member
      omega
    have counted := h.counted
    rw [h.called_openCalls, Finset.card_insert_of_notMem outside]
    change s.emitter.allCount + 1 = s.others + _
    rw [counted]
    push_cast
    ring
  made k hk := by
    have before : k = s.id + 1 ∨ 1 ≤ k ∧ k ≤ s.id := by
      rcases hk with hk | hk
      · rcases List.mem_append.mp hk with hk | hk
        · exact .inr (h.made k (.inl hk))
        · exact .inl (List.mem_singleton.mp hk)
      · exact .inr (h.made k (.inr hk))
    change 1 ≤ k ∧ k ≤ s.id + 1
    omega
  channel := h.channel
  single k single := by
    obtain ⟨delivered, invoked, -⟩ := h.unmade (Nat.lt_succ_self s.id)
    by_cases new : k = s.id + 1
    · subst new
      exact invoked.trans (delivered ▸ List.take_nil.symm)
    · exact h.single k ((called_multiple multiple new).symm.trans single)
  multiple k repeated := by
    obtain ⟨delivered, invoked, -⟩ := h.unmade (Nat.lt_succ_self s.id)
    by_cases new : k = s.id + 1
    · subst new
      exact invoked.trans (List.sublist_nil.mp (delivered ▸ deliveredBefore_sublist s.log)).symm
    · exact h.multiple k ((called_multiple multiple new).symm.trans repeated)

end Call

/-- No call is opened or closed. -/
theorem Listening.keep (h : Listening s) (emitter : t.emitter = s.emitter) (id : t.id = s.id)
    (multiple : t.multiple = s.multiple) (frames : ∀ f ∈ t.frames, FrameOk s.emitter f)
    (others : t.others = s.others) (isOpen : ∀ k, t.isOpen k = s.isOpen k) : Listening t := by
  have same : t.openCalls = s.openCalls := by
    rw [State.openCalls, id]
    exact Finset.filter_congr fun k _ => by rw [isOpen]
  refine ⟨emitter ▸ h.apart, ?_, ?_, emitter ▸ frames, ?_⟩
  · intro k one le
    rw [emitter, multiple, isOpen]
    exact h.slot k one (id ▸ le)
  · rw [emitter, id]
    exact h.fresh
  · rw [emitter, others, same]
    exact h.counted

/-- A call is closed. -/
theorem Listening.close (h : Listening s) {k : ℕ} (one : 1 ≤ k) (le : k ≤ s.id)
    (wasOpen : s.isOpen k = true)
    (emitter : t.emitter = s.emitter.adjust (key k) ⟨none, none⟩ 1) (id : t.id = s.id)
    (multiple : t.multiple = s.multiple) (frames : ∀ f ∈ t.frames, FrameOk s.emitter f)
    (others : t.others = s.others)
    (isOpen : ∀ j, t.isOpen j = if j = k then false else s.isOpen j) : Listening t := by
  have erased : t.openCalls = s.openCalls.erase k := by
    ext j
    rw [Finset.mem_erase, State.openCalls, Finset.mem_filter, State.openCalls, Finset.mem_filter,
      isOpen, id]
    split
    · next same => simp [same]
    · next ne => simp [ne]
  have member : k ∈ s.openCalls :=
    Finset.mem_filter.mpr ⟨Finset.mem_Icc.mpr ⟨one, le⟩, wasOpen⟩
  refine ⟨?_, ?_, ?_, ?_, ?_⟩
  · rw [emitter]
    exact h.apart.adjust_own (isBackCall_key k) _ _
  · intro j one' le'
    rw [emitter, multiple, isOpen]
    have slot := h.slot j one' (id ▸ le')
    split
    · next same =>
        subst same
        exact slot.closed 1
    · next ne => exact slot.adjust ne _ _
  · intro j lt
    rw [id] at lt
    have ne : j ≠ k := by omega
    rw [emitter]
    exact (adjust_eventHandles_of_ne (key_injective.ne ne) _ _).trans (h.fresh j lt)
  · intro f hf
    rw [emitter]
    exact frames f hf
  · have counted := h.counted
    have pos := Finset.card_pos.mpr ⟨k, member⟩
    rw [emitter, others, erased, Finset.card_erase_of_mem member]
    change s.emitter.allCount - 1 = _
    rw [counted, Nat.cast_sub pos]
    push_cast
    ring

theorem made_of_invoked (h : Logged s) {k : ℕ} (called : invoked k s.log ≠ []) :
    1 ≤ k ∧ k ≤ s.id := by
  obtain ⟨r, hr⟩ := List.exists_mem_of_ne_nil _ called
  obtain ⟨e, he, some⟩ := List.mem_filterMap.mp hr
  refine h.made k (.inr (.inr (.inr (List.mem_map.mpr ⟨e, he, ?_⟩))))
  cases e with
  | invoked j r' =>
      by_contra ne
      have : j ≠ k := ne
      simp [this] at some
  | _ => cases some

/-- A callback that was called, for one reply, does not wait any more. -/
theorem Logged.delivered_ne_nil (h : Logged s) {k : ℕ} (single : s.multiple k = false)
    (called : invoked k s.log ≠ []) : delivered k s.log ≠ [] := by
  intro none
  rw [h.single k single, none] at called
  exact called rfl

/-- Events by which a call receives nothing. -/
theorem Logged.silent (h : Logged s) {j : ℕ} (es : List (Event Value)) (none : delivered j es = [])
    (uncalled : invoked j es = []) :
    delivered j (s.log ++ es) = delivered j s.log ∧
    (s.multiple j = false → invoked j (s.log ++ es) = (delivered j (s.log ++ es)).take 1) ∧
    (s.multiple j = true → invoked j (s.log ++ es) = deliveredBefore j (s.log ++ es)) := by
  have same : delivered j (s.log ++ es) = delivered j s.log := by
    rw [delivered_append, none, List.append_nil]
  have called : invoked j (s.log ++ es) = invoked j s.log := by
    rw [invoked_append, uncalled, List.append_nil]
  refine ⟨same, fun single => ?_, fun multiple => ?_⟩
  · rw [called, same, h.single j single]
  · have before : deliveredBefore j es = [] :=
      List.sublist_nil.mp (none ▸ deliveredBefore_sublist es)
    rw [called, deliveredBefore_append, h.multiple j multiple, before, List.append_nil]
    split
    · rfl
    · next bound => exact deliveredBefore_of_not_unbound (Bool.eq_false_iff.mpr bound)

theorem Inv.unbind (h : Inv s) {k : ℕ} (called : invoked k s.log ≠ []) :
    Inv { s with
      emitter := if s.isOpen k then s.emitter.adjust (key k) ⟨none, none⟩ 1 else s.emitter
      log := s.log ++ [.unbound k] } := by
  obtain ⟨one, le⟩ := made_of_invoked h.toLogged called
  have unbound : ∀ j, isUnbound j (s.log ++ [.unbound k]) = (isUnbound j s.log || k == j) := by
    intro j
    rw [isUnbound_append]
    simp [isUnbound, Event.unbinds]
  have silent := fun j => h.silent (j := j) [.unbound k] rfl rfl
  have same := fun j => (silent j).1
  have closes : ∀ j, State.isOpen { s with log := s.log ++ [.unbound k] } j =
      if j = k then false else s.isOpen j := by
    intro j
    simp only [State.isOpen, unbound, same]
    by_cases isK : j = k
    · subst isK
      cases repeated : s.multiple j with
      | true => simp
      | false => simpa using h.delivered_ne_nil repeated called
    · have ne : (k == j) = false := beq_eq_false_iff_ne.mpr (Ne.symm isK)
      simp [isK, ne]
  refine ⟨?_, ?_, ?_, fun j => (silent j).2.1, fun j => (silent j).2.2⟩
  · cases isOpen : s.isOpen k with
    | true => exact h.close one le isOpen rfl rfl rfl h.frames rfl closes
    | false =>
        refine h.keep rfl rfl rfl h.frames rfl fun j => (closes j).trans ?_
        split
        · next isK => rw [isK, isOpen]
        · rfl
  · intro j hj
    simp only [List.map_append, List.mem_append, List.map_cons, List.map_nil,
      List.mem_singleton] at hj
    rcases hj with hj | hj | hj | hj | rfl
    · exact h.made j (.inl hj)
    · exact h.made j (.inr (.inl hj))
    · exact h.made j (.inr (.inr (.inl hj)))
    · exact h.made j (.inr (.inr (.inr hj)))
    · exact ⟨one, le⟩
  · intro j
    rw [given_append, same, ← h.channel j]
    exact List.append_nil _

/-- `next` sends a reply. -/
theorem Inv.next (h : Inv s) {k : ℕ} (started : k ∈ s.started) (r : Reply Value) :
    Inv { s with toThread := s.toThread ++ [(k, r)], log := s.log ++ [.given k r] } := by
  have unbound : ∀ j, isUnbound j (s.log ++ [.given k r]) = isUnbound j s.log := by
    intro j
    rw [isUnbound_append]
    simp [isUnbound, Event.unbinds]
  have silent := fun j => h.silent (j := j) [.given k r] rfl rfl
  have same := fun j => (silent j).1
  refine ⟨h.keep rfl rfl rfl h.frames rfl fun j => ?_, ?_, ?_, fun j => (silent j).2.1,
    fun j => (silent j).2.2⟩
  · simp only [State.isOpen, unbound, same]
  · intro j hj
    simp only [List.map_append, List.mem_append, List.map_cons, List.map_nil,
      List.mem_singleton] at hj
    rcases hj with hj | hj | (hj | rfl) | hj | rfl
    · exact h.made j (.inl hj)
    · exact h.made j (.inr (.inl hj))
    · exact h.made j (.inr (.inr (.inl hj)))
    · exact h.made j (.inr (.inl started))
    · exact h.made j (.inr (.inr (.inr hj)))
    · exact h.made j (.inr (.inl started))
  · intro j
    have sent : inFlight j (s.toThread ++ [(k, r)]) =
        inFlight j s.toThread ++ given j [.given k r] :=
      List.filterMap_append
    rw [given_append, same, sent, ← List.append_assoc, ← h.channel j]

/-! ### A reply is received -/

section Recv

variable {k : ℕ} {r : Reply Value} {rest : List (ℕ × Reply Value)}

/-- What is sent for a call, when one of the replies is taken out of the channel. -/
theorem inFlight_cons (j : ℕ) :
    inFlight j ((k, r) :: rest) =
        delivered j [(.delivered k r : Event Value)] ++ inFlight j rest := by
  by_cases same : k = j <;> simp [inFlight, delivered, same]

section Calls

-- `es` is the call of the callback, if there is one.
variable {es : List (Event Value)} (calls : ∀ e ∈ es, e = .invoked k r)

include calls

theorem given_recv (j : ℕ) : given j (.delivered k r :: es) = [] := by
  refine List.filterMap_eq_nil_iff.mpr fun e he => ?_
  rcases List.mem_cons.mp he with rfl | he
  · rfl
  · rw [calls e he]

theorem delivered_recv (j : ℕ) :
    delivered j (.delivered k r :: es) = delivered j [(.delivered k r : Event Value)] := by
  have none : delivered j es = [] := delivered_eq_nil fun r' he => nomatch calls _ he
  rw [← List.singleton_append, delivered_append, none, List.append_nil]

theorem isUnbound_recv (j : ℕ) : isUnbound j (.delivered k r :: es) = false := by
  refine List.any_eq_false.mpr fun e he => ?_
  rcases List.mem_cons.mp he with rfl | he
  · exact Bool.false_ne_true
  · rw [calls e he]
    exact Bool.false_ne_true

/-- Other calls receive nothing. -/
theorem silent_recv {j : ℕ} (ne : k ≠ j) :
    delivered j (.delivered k r :: es) = [] ∧ invoked j (.delivered k r :: es) = [] := by
  constructor
  · rw [delivered_recv calls]
    simp [delivered, ne]
  · refine List.filterMap_eq_nil_iff.mpr fun e he => ?_
    rcases List.mem_cons.mp he with rfl | he
    · rfl
    · rw [calls e he]
      exact if_neg ne

theorem Logged.recv (h : Logged s) (message : s.toThread = (k, r) :: rest)
    (log : t.log = s.log ++ .delivered k r :: es) (id : t.id = s.id)
    (multiple : t.multiple = s.multiple) (toMain : t.toMain = s.toMain)
    (started : t.started = s.started)
    (toThread : t.toThread = rest)
    (single : s.multiple k = false → invoked k t.log = (delivered k t.log).take 1)
    (repeated : s.multiple k = true → invoked k t.log = deliveredBefore k t.log) : Logged t where
  made := by
    intro j hj
    rw [toMain, started, toThread, log] at hj
    rw [id]
    simp only [List.map_append, List.map_cons, List.mem_append, List.mem_cons, List.mem_map] at hj
    have isK : 1 ≤ k ∧ k ≤ s.id := h.made k (.inr (.inr (.inl (by simp [message]))))
    rcases hj with hj | hj | ⟨m, hm, rfl⟩ | ⟨e, he, rfl⟩ | rfl | ⟨e, he, rfl⟩
    · exact h.made j (.inl hj)
    · exact h.made j (.inr (.inl hj))
    · exact h.made m.1 (.inr (.inr
          (.inl (message ▸ List.mem_map_of_mem (List.mem_cons_of_mem _ hm)))))
    · exact h.made e.call (.inr (.inr (.inr (List.mem_map_of_mem he))))
    · exact isK
    · rw [calls e he]
      exact isK
  channel := by
    intro j
    rw [log, toThread, given_append, given_recv calls, List.append_nil, h.channel j, message,
      inFlight_cons, delivered_append, delivered_recv calls, List.append_assoc]
  single := by
    intro j isSingle
    rw [multiple] at isSingle
    by_cases same : k = j
    · subst same
      exact single isSingle
    · obtain ⟨none, uncalled⟩ := silent_recv calls same
      rw [log]
      exact (h.silent _ none uncalled).2.1 isSingle
  multiple := by
    intro j isMultiple
    rw [multiple] at isMultiple
    by_cases same : k = j
    · subst same
      exact repeated isMultiple
    · obtain ⟨none, uncalled⟩ := silent_recv calls same
      rw [log]
      exact (h.silent _ none uncalled).2.2 isMultiple

/-- Which calls are open when the reply has been received. -/
theorem isOpen_recv (log : t.log = s.log ++ .delivered k r :: es)
    (multiple : t.multiple = s.multiple)
    (j : ℕ) : t.isOpen j = if j = k ∧ s.multiple k = false then false else s.isOpen j := by
  have unbound : isUnbound j t.log = isUnbound j s.log := by
    rw [log, isUnbound_append, isUnbound_recv calls, Bool.or_false]
  have received : delivered j t.log =
      delivered j s.log ++ delivered j [(.delivered k r : Event Value)] := by
    rw [log, delivered_append, delivered_recv calls]
  simp only [State.isOpen, unbound, received, multiple]
  by_cases same : j = k
  · subst same
    cases s.multiple j <;> simp [delivered]
  · have ne : k ≠ j := Ne.symm same
    simp [delivered, same, ne]

end Calls

/-- A late reply finds no listener. -/
theorem Inv.recv_closed (h : Inv s) (message : s.toThread = (k, r) :: rest)
    (closed : s.isOpen k = false) :
    Inv { s with frames := [], toThread := rest, log := s.log ++ [.delivered k r] } := by
  have none : ∀ e ∈ ([] : List (Event Value)), e = .invoked k r := nofun
  refine ⟨?_, h.toLogged.recv none message rfl rfl rfl rfl rfl rfl ?_ ?_⟩
  · refine h.keep rfl rfl rfl nofun rfl fun j =>
      (isOpen_recv (s := s) none (by rfl) (by rfl) j).trans ?_
    split
    · next this => rw [this.1, closed]
    · rfl
  · intro single
    have some : delivered k s.log ≠ [] := by simpa [State.isOpen, single] using closed
    have length : 1 ≤ (delivered k s.log).length := List.length_pos_iff.mpr some
    rw [invoked_append, delivered_append, List.take_append_of_le_length length, h.single k single]
    exact List.append_nil _
  · intro multiple
    have unbound : isUnbound k s.log = true := by simpa [State.isOpen, multiple] using closed
    rw [invoked_append, deliveredBefore_append, if_pos unbound, h.multiple k multiple]
    exact List.append_nil _

/-- The callback is called with the reply. -/
theorem Inv.recv_open (h : Inv s) (message : s.toThread = (k, r) :: rest)
    (wasOpen : s.isOpen k = true) {a : ℕ}
    (node : s.emitter.heap[a]? = some ⟨.reply k, none, !s.multiple k⟩) :
    Inv { s with
      toThread := rest
      emitter := if s.multiple k then s.emitter else s.emitter.adjust (key k) ⟨none, none⟩ 1
      frames := [⟨key k, r, a⟩]
      log := s.log ++ [.delivered k r, .invoked k r] } := by
  have calls : ∀ e ∈ [(.invoked k r : Event Value)], e = .invoked k r :=
    fun e he => List.mem_singleton.mp he
  obtain ⟨one, le⟩ := h.made k (.inr (.inr (.inl (by simp [message]))))
  have frames : ∀ f ∈ [(⟨key k, r, a⟩ : Frame Value)], FrameOk s.emitter f := by
    intro f hf
    rw [List.mem_singleton.mp hf]
    exact .inl ⟨k, _, node⟩
  refine ⟨?_, h.toLogged.recv calls message rfl rfl rfl rfl rfl rfl ?_ ?_⟩
  · cases multiple : s.multiple k with
    | true =>
        refine h.keep rfl rfl rfl frames rfl fun j =>
          (isOpen_recv (s := s) calls (by rfl) (by rfl) j).trans ?_
        simp [multiple]
    | false =>
        refine h.close one le wasOpen rfl rfl rfl frames rfl fun j =>
          (isOpen_recv (s := s) calls (by rfl) (by rfl) j).trans ?_
        simp [multiple]
  · intro single
    have first : delivered k s.log = [] := by simpa [State.isOpen, single] using wasOpen
    rw [invoked_append, delivered_append, h.single k single, first]
    simp [invoked, delivered]
  · intro multiple
    have bound : isUnbound k s.log = false := by simpa [State.isOpen, multiple] using wasOpen
    have last : deliveredBefore k [.delivered k r, (.invoked k r : Event Value)] = [r] := by
      simp [deliveredBefore, delivered, Event.unbinds]
    rw [invoked_append, deliveredBefore_append, if_neg (by simp [bound]), h.multiple k multiple,
      deliveredBefore_of_not_unbound bound, last]
    simp [invoked]

end Recv

/-- The innermost walk is over. -/
theorem Inv.pop (h : Inv s) {f : Frame Value} {rest : List (Frame Value)}
    (frames : s.frames = f :: rest) : Inv { s with frames := rest } := by
  have others : ∀ f ∈ rest, FrameOk s.emitter f :=
    fun f hf => h.frames f (frames ▸ List.mem_cons_of_mem _ hf)
  exact ⟨h.keep rfl rfl rfl others rfl fun _ => rfl, h.made, h.channel, h.single, h.multiple⟩

/-- The main side receives a call. -/
theorem Inv.start (h : Inv s) {k : ℕ} {rest : List ℕ} (toMain : s.toMain = k :: rest) :
    Inv { s with toMain := rest, started := s.started ++ [k] } := by
  refine ⟨h.keep rfl rfl rfl h.frames rfl fun _ => rfl, ?_, h.channel, h.single, h.multiple⟩
  rintro j (hj | hj | hj)
  · exact h.made j (.inl (toMain ▸ List.mem_cons_of_mem _ hj))
  · rcases List.mem_append.mp hj with hj | hj
    · exact h.made j (.inr (.inl hj))
    · rw [List.mem_singleton.mp hj]
      exact h.made k (.inl (toMain ▸ List.mem_cons_self))
  · exact h.made j (.inr (.inr hj))

/-! ### Runs -/

variable [DecidableEq User]

theorem Inv.step {a : Action User Value} (h : Inv s) (respects : Respects a)
    (hs : Rpc.step s a = some t) : Inv t := by
  cases a with
  | call multiple =>
      obtain rfl := Option.some.inj hs
      exact h.call multiple
  | unbind k =>
      simp only [Rpc.step] at hs
      split at hs
      · cases hs
      · next called =>
          have called : invoked k s.log ≠ [] := by simpa using called
          obtain ⟨one, le⟩ := made_of_invoked h.toLogged called
          rw [(h.slot k one le).removeListener] at hs
          obtain rfl := Option.some.inj hs
          exact h.unbind called
  | on name u remove =>
      obtain rfl := Option.some.inj hs
      have user : (Listener.user u).isReply = false := rfl
      have apart := h.apart.on_foreign user respects remove
      have same := h.apart.on_sameOwn user respects remove
      exact h.other apart same fun f hf => (h.frames f hf).same same
  | off name u =>
      obtain ⟨E, done, removed, apart, same⟩ :=
        h.apart.removeListener Unit respects (u.map .user)
      simp only [Rpc.step, removed] at hs
      obtain rfl := Option.some.inj hs
      exact h.other apart same fun f hf => (h.frames f hf).same same
  | emit name data =>
      obtain rfl := Option.some.inj hs
      refine h.walk respects data fun a ha => ?_
      obtain ⟨hd, handles, first⟩ := Option.bind_eq_some_iff.mp ha
      exact h.apart.handles name hd respects handles a (.inl first)
  | ret =>
      simp only [Rpc.step] at hs
      cases frames : s.frames with
      | nil => simp [frames] at hs
      | cons f rest =>
          rw [frames] at hs
          obtain rfl := Option.some.inj hs
          have popped := h.pop frames
          rcases h.frames f (frames ▸ List.mem_cons_self) with ⟨k, remove, node⟩ | ⟨foreign, node⟩
          · -- The listener of a call is the only one of its name.
            have last : s.emitter.next f.h = none := by rw [EventEmitter.next, node]; rfl
            rw [last]
            exact popped
          · exact popped.walk foreign f.data fun b link => (h.apart.next f.h b node link).1
  | throw =>
      simp only [Rpc.step] at hs
      cases frames : s.frames with
      | nil => simp [frames] at hs
      | cons f rest =>
          rw [frames] at hs
          obtain rfl := Option.some.inj hs
          exact h.pop frames
  | start =>
      simp only [Rpc.step] at hs
      cases toMain : s.toMain with
      | nil => simp [toMain] at hs
      | cons k rest =>
          rw [toMain] at hs
          obtain rfl := Option.some.inj hs
          exact h.start toMain
  | next k r =>
      simp only [Rpc.step, Option.ite_none_right_eq_some] at hs
      obtain ⟨started, hs⟩ := hs
      obtain rfl := Option.some.inj hs
      exact h.next started r
  | recv =>
      simp only [Rpc.step] at hs
      cases frames : s.frames with
      | cons f rest => simp [frames] at hs
      | nil =>
          cases message : s.toThread with
          | nil => simp [frames, message] at hs
          | cons m rest =>
              obtain ⟨k, r⟩ := m
              rw [frames, message] at hs
              obtain rfl := Option.some.inj hs
              obtain ⟨one, le⟩ := h.made k (.inr (.inr (.inl (by simp [message]))))
              have slot := h.slot k one le
              cases isOpen : s.isOpen k with
              | false =>
                  rw [isOpen] at slot
                  rw [slot.first]
                  exact h.recv_closed message isOpen
              | true =>
                  rw [isOpen] at slot
                  obtain ⟨a, first, node, visit⟩ := slot.visitNode
                  simp only [first, State.walk, visit, isBackCall_key, if_true, List.append_assoc]
                  exact h.recv_open message isOpen node

theorem Inv.correlated (h : Inv s) : Correlated s where
  channel := h.channel
  own k := by
    have received : (delivered k s.log).Sublist (given k s.log) := by
      rw [h.channel k]
      exact List.sublist_append_left _ _
    cases multiple : s.multiple k with
    | false =>
        rw [h.single k multiple]
        exact (List.take_sublist 1 _).trans received
    | true =>
        rw [h.multiple k multiple]
        exact (deliveredBefore_sublist _).trans received
  single := h.single
  multiple := h.multiple
  count closed := by
    have none : s.openCalls = ∅ := by
      refine Finset.filter_eq_empty_iff.mpr fun k hk => ?_
      obtain ⟨one, le⟩ := Finset.mem_Icc.mp hk
      rw [closed k one le]
      exact Bool.false_ne_true
    have counted := h.counted
    rw [none, Finset.card_empty, Nat.cast_zero, add_zero] at counted
    exact counted
  unbinds k called := by
    obtain ⟨one, le⟩ := made_of_invoked h.toLogged called
    simp [Rpc.step, called, (h.slot k one le).removeListener]

/-- **Every callback gets the replies to its own call**: for all orders of calls, replies,
unbinding and other use of the emitter that leaves the names of the calls alone, the callback of
a call for one reply is called with the first reply as it arrives and not again, the callback of a
call for several with every reply until the call is unbound, each of them with what the `next` of
its own call was given; and calls that are answered or unbound do not count as listeners. -/
theorem replies_correlated {User Value : Type} [DecidableEq User] {as : List (Action User Value)}
    (respects : ∀ a ∈ as, Respects a) : Always step Correlated (init : State User Value) as :=
  (Always.of_invariant (fun _ _ _ h respects hs => h.step respects hs) inv_init
    (Meets.of_forall respects init)).imp fun _ h => h.correlated

/-- A call for several replies is answered, unbinds itself and is answered again, among other
events. -/
theorem replies_correlated_example : Always step Correlated (init : State Unit ℕ)
    [.call true, .on "data" () false, .start, .next 1 ⟨0, 7⟩, .recv, .unbind 1, .ret,
      .emit "data" ⟨0, 1⟩, .ret, .next 1 ⟨0, 8⟩, .recv] :=
  replies_correlated (by decide)

/-- `thread.emit('__function_back_call_1', …)` calls the callback of a call that was not answered
at all, although no listener is added or removed under this name. -/
theorem emit_breaks_correlation :
    ¬ ∀ as : List (Action Unit ℕ), (∀ a ∈ as, KeepsListeners a) →
      Always step Correlated (init : State Unit ℕ) as := by
  intro all
  have keeps : ∀ a ∈ [.call true, .emit (key 1) ⟨0, 7⟩], KeepsListeners (a : Action Unit ℕ) := by
    simp [KeepsListeners]
  have correlated := (all _ keeps).last rfl
  exact absurd (correlated.own 1).length_le (by decide)

end ThreadJs.Rpc
