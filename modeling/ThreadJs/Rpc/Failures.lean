import ThreadJs.Lib.Js.Heap
import ThreadJs.Rpc.Correlation

/-!
What a callback learns when its call fails on the main side (`bind_function_call` of
`main-warp.js`).

The failure is the first argument of `_cb`: a text where no function was found, otherwise
the value that was thrown or that `next` was called with. `JSON.stringify` keeps a text, but
not the message of an error, which is no enumerable property, and it keeps nothing of
`undefined`. `failures_reach_iff` says which failures the callback can tell.
-/

namespace ThreadJs.Rpc

open Js Machine

/-! ### The main side -/

/-- The objects of the main side when a call fails. -/
structure Main where
  heap : Heap
  /-- The text of `message` where this is no enumerable property of the object itself, as
  with an `Error`. -/
  hidden : ℕ → Option String
  apart : ∀ (a : ℕ) (members : List (String × Value)), heap.node a = .object members →
    (hidden a).isSome → "message" ∉ members.map Prod.fst

/-- How a function of a library reports: it throws before it has called `next`, or it calls
`next`. The exception of `next` is caught where it does not come back to the call of the
function, as when `next` is called later. -/
inductive Fn where
  | throws (v : Value)
  | next (caught : Bool) (err ret : Value)

/-- What is found under a namespace, under a name in it and as `fn` there; `none` where the
value found is not truthy. -/
abbrev Libs := String → Option (String → Option (Option Fn))

/-- The three tests of `bind_function_call`. -/
def find (libs : Libs) (ns name : String) : Except String Fn :=
  match libs ns with
  | none => .error ("not hs namespace: " ++ ns)
  | some space =>
      match space name with
      | none => .error ("not has lib config: " ++ name)
      | some none => .error ("config not has function: " ++ ns ++ "::" ++ name)
      | some (some func) => .ok func

/-- What `_cb(err, ret)` sends, where `JSON.stringify` throws no exception. -/
def Main.reply (M : Main) (err ret : Value) : Option (Reply (Option Json)) := do
  let err ← stringify M.heap err
  let ret ← stringify M.heap ret
  return ⟨err, ret⟩

/-- The exception of `JSON.stringify`, sent in its turn: nothing of it is enumerable. -/
def typeError : Reply (Option Json) := ⟨some (.object []), none⟩

/-- The replies to a call with a callback; a `namespace` of `null` is read as 'null'. -/
def bindFunctionCall (M : Main) (libs : Libs) (ns : Option String) (name : String) :
    List (Reply (Option Json)) :=
  match find libs (ns.getD "null") name with
  | .error text => (M.reply (.string text) .undefined).toList
  | .ok (.throws v) => (M.reply v .undefined).toList
  | .ok (.next caught err ret) =>
      match M.reply err ret with
      | some r => [r]
      | none => if caught then [] else [typeError]

/-! ### What is to hold -/

/-- `if (err)` in the callback. -/
def truthy : Option Json → Bool
  | none | some .null => false
  | some (.boolean b) => b
  | some (.number q) => q != 0
  | some (.string s) => s != ""
  | some (.array _) | some (.object _) => true

/-- The value that says why a call failed. -/
def failure (libs : Libs) (ns : Option String) (name : String) : Option Value :=
  match find libs (ns.getD "null") name with
  | .error text => some (.string text)
  | .ok (.throws v) => some v
  | .ok (.next _ err _) => if err.isTruthy then some err else none

/-- The message of an object, if it has one. -/
def Main.message (M : Main) (a : ℕ) : String :=
  match M.hidden a, M.heap.node a with
  | some text, _ => text
  | none, .object members =>
      match members.lookup "message" with
      | some (.string text) => text
      | _ => ""
  | none, .array _ => ""

/-- `err` carries the text of a failure: a primitive value itself, or the message of an
object as the callback finds it. -/
def Carries (M : Main) : Value → Option Json → Prop
  | .string s, err => err = some (.string s)
  | .boolean b, err => err = some (.boolean b)
  | .number n, err => ∃ q, n = .finite q ∧ err = some (.number q)
  | .ref a, err => M.message a ≠ "" → ∃ members, err = some (.object members) ∧
      members.lookup "message" = some (.string (M.message a))
  | .undefined, _ | .null, _ | .function, _ => True

/-- The main side has reported the failure, and nothing else unless the call waits for one
reply only. -/
def Answered (multiple : Bool) (failed given : List (Reply (Option Json))) : Prop :=
  given = failed ∨ multiple = false ∧ failed ≠ [] ∧ failed <+: given

/-- The callback has been called once, with an `err` that is truthy and says why. -/
def Told (M : Main) (v : Value) (calls : List (Reply (Option Json))) : Prop :=
  ∃ r, calls = [r] ∧ truthy r.err = true ∧ Carries M v r.err

/-! ### When it does -/

/-- A value that `JSON.stringify` keeps as a truthy one, with its message. -/
def Speaks (M : Main) : Value → Prop
  | .boolean b => b = true
  | .number (.finite q) => q ≠ 0
  | .string s => s ≠ ""
  | .ref a => (stringify M.heap (.ref a)).isSome ∧ ((M.hidden a).getD "" = "")
  | .undefined | .null | .number _ | .function => False

/-- A value without a text: any exception may stand for it. -/
def Mute (M : Main) : Value → Prop
  | .ref a => M.message a = ""
  | .function => True
  | _ => False

/-- The failure is found in what is sent. -/
def Reaches (M : Main) (libs : Libs) (ns : Option String) (name : String) : Prop :=
  match find libs (ns.getD "null") name with
  | .error _ => True
  | .ok (.throws v) => Speaks M v
  | .ok (.next caught err ret) =>
      if (M.reply err ret).isSome then Speaks M err else caught = false ∧ Mute M err

/-! ### Through `JSON.stringify` -/

section Reply

variable {M : Main} {err ret : Value} {r : Reply (Option Json)}

theorem reply_eq_some : M.reply err ret = some r ↔
    stringify M.heap err = some r.err ∧ stringify M.heap ret = some r.ret := by
  cases first : stringify M.heap err with
  | none => simp [Main.reply, first]
  | some e =>
      cases second : stringify M.heap ret with
      | none => simp [Main.reply, first, second]
      | some e' =>
          obtain ⟨err, ret⟩ := r
          simp [Main.reply, first, second]

theorem message_of_hidden {a : ℕ} {text : String} (hidden : M.hidden a = some text) :
    M.message a = text := by
  rw [Main.message, hidden]

/-- What arrives of an object has its message unless this is hidden. -/
theorem carries_ref_iff {a : ℕ} {e : Option Json} (sent : stringify M.heap (.ref a) = some e) :
    truthy e = true ∧ (Carries M (.ref a) e ↔ (M.hidden a).getD "" = "") := by
  rw [stringify_ref] at sent
  cases node : M.heap.node a with
  | array elems =>
      rw [node] at sent
      obtain ⟨js, -, rfl⟩ := Option.map_eq_some_iff.mp sent
      refine ⟨rfl, ?_⟩
      have text : M.message a = (M.hidden a).getD "" := by
        rw [Main.message, node]
        cases M.hidden a <;> rfl
      simp [Carries, text]
  | object members =>
      rw [node] at sent
      obtain ⟨js, done, rfl⟩ := Option.map_eq_some_iff.mp sent
      refine ⟨rfl, ?_⟩
      cases hidden : M.hidden a with
      | some text =>
          have absent := lookup_serialized_eq_none (M.apart a members node (by simp [hidden])) done
          simp only [Carries, message_of_hidden hidden, Option.getD_some]
          constructor
          · intro carried
            by_contra spoken
            obtain ⟨kept, eq, present⟩ := carried spoken
            obtain rfl := Json.object.inj (Option.some.inj eq)
            rw [absent] at present
            cases present
          · intro silent spoken
            exact absurd silent spoken
      | none =>
          refine iff_of_true ?_ rfl
          intro spoken
          refine ⟨_, rfl, ?_⟩
          rw [Main.message, hidden, node] at spoken ⊢
          simp only at spoken ⊢
          split at spoken
          · next text present => exact lookup_serialized_string present done
          · exact absurd rfl spoken

/-- The value itself has arrived. -/
theorem told_iff_speaks {v : Value} (sent : stringify M.heap v = some r.err) :
    truthy r.err = true ∧ Carries M v r.err ↔ Speaks M v := by
  cases v with
  | ref a =>
      obtain ⟨isTrue, carried⟩ := carries_ref_iff sent
      rw [Speaks, sent, carried]
      simp [isTrue]
  | number n =>
      cases n with
      | finite q =>
          obtain arrived : some (.number q) = r.err := by simpa [stringify, serialize] using sent
          simp [← arrived, truthy, Carries, Speaks]
      | _ =>
          obtain arrived : some .null = r.err := by simpa [stringify, serialize] using sent
          simp [← arrived, truthy, Speaks]
  | _ =>
      simp only [stringify, serialize, Option.some.injEq] at sent
      simp [← sent, truthy, Carries, Speaks]

/-- The exception of `JSON.stringify` has arrived in place of a truthy value. -/
theorem typeError_carries_iff {v : Value} (isTrue : v.isTruthy = true) :
    Carries M v typeError.err ↔ Mute M v := by
  cases v with
  | ref a =>
      simp only [Carries, Mute, typeError]
      constructor
      · intro carried
        by_contra spoken
        obtain ⟨members, eq, present⟩ := carried spoken
        obtain rfl := Json.object.inj (Option.some.inj eq)
        cases present
      · intro silent spoken
        exact absurd silent spoken
  | undefined => cases isTrue
  | null => cases isTrue
  | _ => simp [Carries, Mute, typeError]

end Reply

/-! ### One failure, one call of the callback -/

section Runs

variable {User : Type} {s t : State User (Option Json)}

/-- `unbind` comes from a call of the callback. -/
def CalledFirst (s : State User (Option Json)) : Prop :=
  ∀ k, isUnbound k s.log = true → invoked k s.log ≠ []

theorem CalledFirst.grow (h : CalledFirst s) {es : List (Event (Option Json))}
    (log : t.log = s.log ++ es)
    (new : ∀ k, isUnbound k es = true → invoked k s.log ≠ []) : CalledFirst t := by
  intro k unbound
  rw [log, isUnbound_append, Bool.or_eq_true] at unbound
  have called : invoked k s.log ≠ [] := unbound.elim (h k) (new k)
  rw [log, invoked_append]
  exact List.append_ne_nil_of_left_ne_nil called _

/-- Events that unbind nothing. -/
theorem CalledFirst.silent (h : CalledFirst s) {es : List (Event (Option Json))}
    (log : t.log = s.log ++ es) (none : ∀ k, isUnbound k es = false) : CalledFirst t := by
  apply h.grow log
  intro k unbound
  rw [none k] at unbound
  cases unbound

theorem CalledFirst.walk (h : CalledFirst s) (name : String) (data : Reply (Option Json))
    (p : Option ℕ) : CalledFirst (s.walk name data p) := by
  cases p with
  | none => exact h
  | some a =>
      simp only [State.walk]
      split
      · exact h
      · next E cb _ =>
          apply h.silent rfl
          intro k
          cases cb <;> rfl

/-- When all replies have arrived, the callback has been called with the one that reports the
failure. -/
theorem invoked_of_answered (h : Inv s) (first : CalledFirst s) {k : ℕ}
    (arrived : inFlight k s.toThread = []) {failed : List (Reply (Option Json))}
    (one : failed.length ≤ 1) (answered : Answered (s.multiple k) failed (given k s.log)) :
    invoked k s.log = failed := by
  have all : given k s.log = delivered k s.log := by
    rw [h.channel k, arrived, List.append_nil]
  rw [all] at answered
  cases multiple : s.multiple k with
  | false =>
      rw [h.single k multiple]
      rcases answered with eq | ⟨-, some, rest, eq⟩
      · rw [eq, List.take_of_length_le one]
      · have exactly : failed.length = 1 :=
          Nat.le_antisymm one (List.length_pos_iff.mpr some)
        rw [← eq, ← exactly, List.take_left]
  | true =>
      have eq : delivered k s.log = failed := by simpa [Answered, multiple] using answered
      rw [h.multiple k multiple]
      cases unbound : isUnbound k s.log with
      | false => rw [deliveredBefore_of_not_unbound unbound, eq]
      | true =>
          have called := first k unbound
          rw [h.multiple k multiple] at called
          have part := deliveredBefore_sublist (k := k) s.log
          rw [eq] at part
          have length := List.length_pos_iff.mpr called
          exact part.eq_of_length_le (by omega)

variable [DecidableEq User]

theorem CalledFirst.step {a : Action User (Option Json)} (h : CalledFirst s)
    (hs : Rpc.step s a = some t) : CalledFirst t := by
  cases a with
  | call multiple =>
      obtain rfl := Option.some.inj hs
      exact h
  | unbind k =>
      simp only [Rpc.step, Option.ite_none_left_eq_some] at hs
      obtain ⟨called, hs⟩ := hs
      split at hs
      · cases hs
      · obtain rfl := Option.some.inj hs
        apply h.grow rfl
        intro j unbound
        obtain rfl : k = j := by simpa [isUnbound, Event.unbinds] using unbound
        simpa using called
  | on name u remove =>
      obtain rfl := Option.some.inj hs
      exact h
  | off name u =>
      simp only [Rpc.step] at hs
      split at hs
      · cases hs
      · obtain rfl := Option.some.inj hs
        exact h
  | emit name data =>
      obtain rfl := Option.some.inj hs
      exact h.walk _ _ _
  | ret =>
      simp only [Rpc.step] at hs
      split at hs
      · cases hs
      · next f rest _ =>
          obtain rfl := Option.some.inj hs
          have popped : CalledFirst { s with frames := rest } := h
          exact popped.walk _ _ _
  | throw =>
      simp only [Rpc.step] at hs
      split at hs
      · cases hs
      · obtain rfl := Option.some.inj hs
        exact h
  | start =>
      simp only [Rpc.step] at hs
      split at hs
      · cases hs
      · obtain rfl := Option.some.inj hs
        exact h
  | next k r =>
      simp only [Rpc.step, Option.ite_none_right_eq_some] at hs
      obtain rfl := Option.some.inj hs.2
      exact h.silent rfl fun _ => rfl
  | recv =>
      simp only [Rpc.step] at hs
      split at hs
      · next k r rest _ _ =>
          obtain rfl := Option.some.inj hs
          have received : CalledFirst
              { s with toThread := rest, log := s.log ++ [Event.delivered k r] } :=
            h.silent rfl fun _ => rfl
          exact received.walk _ _ _
      · cases hs

end Runs

/-! ### The failures -/

section Failures

variable {M : Main} {libs : Libs} {ns : Option String} {name : String}

/-- A call is reported at most once. -/
theorem bindFunctionCall_length : (bindFunctionCall M libs ns name).length ≤ 1 := by
  rw [bindFunctionCall]
  split
  · exact Option.length_toList_le
  · exact Option.length_toList_le
  · split
    · exact Nat.le_refl 1
    · split
      · exact Nat.zero_le 1
      · exact Nat.le_refl 1

/-- A function that was not found is reported with a text. -/
theorem ne_empty_of_find {text : String} (missing : find libs (ns.getD "null") name = .error text) :
    text ≠ "" := by
  rw [find] at missing
  split at missing
  · obtain rfl := Except.error.inj missing
    simp
  · split at missing
    · obtain rfl := Except.error.inj missing
      simp
    · obtain rfl := Except.error.inj missing
      simp
    · cases missing

theorem told_nil (v : Value) : ¬ Told M v [] := by
  rintro ⟨r, eq, -⟩
  cases eq

theorem told_singleton {v : Value} {r : Reply (Option Json)} :
    Told M v [r] ↔ truthy r.err = true ∧ Carries M v r.err := by
  constructor
  · rintro ⟨r', eq, told⟩
    obtain rfl := List.singleton_inj.mp eq
    exact told
  · intro told
    exact ⟨r, rfl, told⟩

theorem isSome_of_speaks {v : Value} (speaks : Speaks M v) : (M.reply v .undefined).isSome := by
  cases v with
  | ref a =>
      obtain ⟨e, sent⟩ := Option.isSome_iff_exists.mp speaks.1
      have replied : M.reply (.ref a) .undefined = some ⟨e, none⟩ := reply_eq_some.mpr ⟨sent, rfl⟩
      rw [replied]
      rfl
  | number n => cases n <;> rfl
  | _ => rfl

/-- Whether the callback can tell the failure, for each of the ways to fail. -/
theorem told_iff_reaches {v : Value} (fails : failure libs ns name = some v) :
    Told M v (bindFunctionCall M libs ns name) ↔ Reaches M libs ns name := by
  rw [failure] at fails
  rw [bindFunctionCall, Reaches]
  cases found : find libs (ns.getD "null") name with
  | error text =>
      rw [found] at fails
      obtain rfl := Option.some.inj fails
      have sent : M.reply (.string text) .undefined = some ⟨some (.string text), none⟩ := rfl
      simp only [sent, Option.toList_some, told_singleton, iff_true]
      exact ⟨by simpa [truthy] using ne_empty_of_find found, rfl⟩
  | ok func =>
      cases func with
      | throws w =>
          rw [found] at fails
          obtain rfl := Option.some.inj fails
          simp only
          cases sent : M.reply w .undefined with
          | none =>
              refine iff_of_false (told_nil w) fun speaks => ?_
              have some := isSome_of_speaks speaks
              rw [sent] at some
              cases some
          | some r =>
              rw [Option.toList_some, told_singleton]
              exact told_iff_speaks (reply_eq_some.mp sent).1
      | next caught err ret =>
          rw [found] at fails
          obtain ⟨isTrue, eq⟩ := Option.ite_none_right_eq_some.mp fails
          obtain rfl := Option.some.inj eq
          simp only
          cases sent : M.reply err ret with
          | some r =>
              have isSome : (some r).isSome = true := rfl
              rw [if_pos isSome]
              exact told_singleton.trans (told_iff_speaks (reply_eq_some.mp sent).1)
          | none =>
              simp only [Option.isSome_none, Bool.false_eq_true, if_false]
              cases caught with
              | true => simpa using told_nil err
              | false =>
                  have arrives : truthy typeError.err = true := rfl
                  simp [told_singleton, typeError_carries_iff isTrue, arrives]

end Failures

/-- **Which failures reach the caller**: in every run in which the names of the calls are left
alone, the main side has reported the failure of a call and the reply has arrived, the callback
has been called once with an `err` that is truthy and carries the text of the failure, exactly if
the failure is a text or a truthy value that `JSON.stringify` keeps, with no message that is
hidden from it. Values with a `toJSON` and boxed primitives are left out, as in `stringify`. -/
theorem failures_reach_iff {User : Type} [DecidableEq User] (M : Main) (libs : Libs)
    (ns : Option String) (name : String) {v : Value} (fails : failure libs ns name = some v)
    {as : List (Action User (Option Json))} (respects : ∀ a ∈ as, Respects a)
    {s : State User (Option Json)} (hrun : run step init as = some s) {k : ℕ}
    (answered : Answered (s.multiple k) (bindFunctionCall M libs ns name) (given k s.log))
    (arrived : inFlight k s.toThread = []) :
    Told M v (invoked k s.log) ↔ Reaches M libs ns name := by
  have inv := (Always.of_invariant (fun _ _ _ h respects hs => h.step respects hs) inv_init
    (Meets.of_forall respects init)).last hrun
  have empty : CalledFirst (init : State User (Option Json)) := by
    intro j unbound
    cases unbound
  have first := (Always.of_inductive (fun _ _ _ h hs => h.step hs) empty as).last hrun
  rw [invoked_of_answered inv first arrived bindFunctionCall_length answered]
  exact told_iff_reaches fails

section Examples

/-- A main side without objects. -/
def bare : Main := ⟨[], fun _ => none, by simp [Heap.node]⟩

/-- One call, to a namespace that does not exist. -/
def unknownNamespace : List (Action Unit (Option Json)) :=
  [.call false, .start, .next 1 ⟨some (.string "not hs namespace: math"), none⟩, .recv]

theorem failures_reach_iff_example : ∃ s, run step init unknownNamespace = some s ∧
    (Told bare (.string "not hs namespace: math") (invoked 1 s.log) ↔
      Reaches bare (fun _ => none) (some "math") "add") :=
  ⟨_, rfl, failures_reach_iff bare (fun _ => none) (some "math") "add" rfl
    (by simp [unknownNamespace, Respects]) (rfl : run step init unknownNamespace = some _)
    (.inl rfl) rfl⟩

/-- The main side with one `Error`. -/
def withError : Main where
  heap := [.object []]
  hidden a := if a = 0 then some "no such file" else none
  apart := by
    intro a members node _
    have empty : Heap.node [.object []] a = .object [] := by cases a <;> rfl
    rw [empty] at node
    obtain rfl := Node.object.inj node
    simp

/-- The only function calls `next` with the error. -/
def failing : Libs := fun _ => some fun _ => some (some (.next false (.ref 0) .undefined))

/-- One call, of the function that fails. -/
def errorGiven : List (Action Unit (Option Json)) :=
  [.call false, .start, .next 1 ⟨some (.object []), none⟩, .recv]

/-- The callback is called with `{}`, and nothing of the message. -/
theorem error_arrives_empty : ∃ s, run step init errorGiven = some s ∧
    failure failing none "read" = some (.ref 0) ∧
    given 1 s.log = bindFunctionCall withError failing none "read" ∧
    inFlight 1 s.toThread = [] ∧ invoked 1 s.log = [⟨some (.object []), none⟩] ∧
    ¬ Told withError (.ref 0) (invoked 1 s.log) := by
  refine ⟨_, rfl, rfl, rfl, rfl, rfl, ?_⟩
  rintro ⟨r, eq, -, carried⟩
  have empty : [⟨some (.object []), none⟩] = [r] := eq
  obtain rfl := List.singleton_inj.mp empty
  have text : withError.message 0 = "no such file" := message_of_hidden rfl
  obtain ⟨members, eq, present⟩ := carried (by simp [text])
  obtain rfl := Json.object.inj (Option.some.inj eq)
  cases present

end Examples

end ThreadJs.Rpc
