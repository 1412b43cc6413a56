import ThreadJs.Message.CreateNode

/-!
`send_error` and `_error_constructor` (`context.js`), the two ends of an error report.

The sender copies four fields of the error into a message with the id of 'Error'. The
receiver looks up a constructor under the name of the error in its global object, calls it
with the message and assigns stack and name; the code is not assigned. Whatever throws on
the way, the lookup and the listeners among it, makes `_recv` send a report back. When
an error arrives as it was sent is said by `error_restored_iff`.
-/

namespace ThreadJs.Message

open Js

/-- What is read from an error. -/
structure ErrorData (α : Type) where
  name : α
  code : α
  message : α
  stack : α

/-- The object that `send_error` makes. -/
def ErrorData.members {α : Type} (e : ErrorData α) : List (String × α) :=
  [("name", e.name), ("code", e.code), ("message", e.message), ("stack", e.stack)]

section Sender

variable {Value Err : Type}

/-- `send_error(err)`; the heap is the one of the sender. -/
def sendError (side : Side Json Value Err) (heap : Heap) (err : ErrorData Js.Value) :
    Except Thrown (Wire (Option Json)) :=
  message side (heap ++ [.object err.members]) ⟨"error", .ref heap.length, .name "Error"⟩

end Sender

/-! ### The receiver -/

/-- A thrown value, `none` for `undefined` and `null`, which have no properties. -/
abbrev Exception := Option (ErrorData Value)

/-- A property as it reads, and as it reads after an assignment. Where it is not writable it
stays, and the setter of an accessor can throw. -/
structure Property where
  value : Value
  put : Value → Except Exception Value

/-- An object that a constructor has made. -/
structure Instance where
  name : Property
  code : Value
  message : Value
  stack : Property

/-- A receiver beside its constructors. -/
structure Realm where
  heap : Heap
  /-- What `new this[name](message)` makes, where that is a constructor. -/
  global : Value → Option (Value → Except Exception Instance)
  /-- The stack trace of an exception in `_error_constructor`. -/
  trace : Value

/-- What a property that was sent reads as; objects are new ones. -/
def Realm.parsed (R : Realm) : Option Json → Value
  | none => .undefined
  | some .null => .null
  | some (.boolean b) => .boolean b
  | some (.number q) => .number (.finite q)
  | some (.string s) => .string s
  | some (.array _) | some (.object _) => .ref R.heap.length

/-- `d[key]` for the data of a message. -/
def member (d : Option Json) (key : String) : Option Json :=
  match d with
  | some (.object members) => members.lookup key
  | _ => none

def Realm.read (R : Realm) (d : Option Json) : ErrorData Value where
  name := R.parsed (member d "name")
  code := R.parsed (member d "code")
  message := R.parsed (member d "message")
  stack := R.parsed (member d "stack")

def Realm.typeError {α : Type} (R : Realm) (text : String) : Except Exception α :=
  .error (some ⟨.string "TypeError", .undefined, .string text, R.trace⟩)

/-- `_error_constructor(d)`. -/
def errorConstructor (R : Realm) (d : Option Json) : Except Exception (ErrorData Value) :=
  match d with
  | none => R.typeError "Cannot read property 'name' of undefined"
  | some .null => R.typeError "Cannot read property 'name' of null"
  | some d =>
      let read := R.read (some d)
      match R.global read.name with
      | none => R.typeError "ObjNew is not a constructor"
      | some ObjNew => do
          let r ← ObjNew read.message
          let stack ← r.stack.put read.stack
          let name ← r.name.put read.name
          return ⟨name, r.code, r.message, stack⟩

/-- The catch clause of `_recv`; nothing is sent where it throws itself. -/
def report (heap : Heap) (err : Exception) : Option (Wire (Option Json)) := do
  let e ← err
  let data ← stringify (heap ++ [.object
    [("name", e.name), ("message", e.message), ("stack", e.stack)]]) (.ref heap.length)
  return ⟨"error", data, .undefined⟩

/-- The events that `_recv` emits and the messages that it sends. -/
structure Handled where
  emitted : List (String × (Option Json ⊕ ErrorData Value))
  sent : List (Wire (Option Json))

/-- `_recv`; the call of `event.emit` ends as `ends` says. -/
def receive (R : Realm) (side : Side (Option Json) (ErrorData Value) Exception)
    (ends : Except Exception Unit) (w : Wire (Option Json)) : Handled :=
  match recv side w with
  | .reported err => ⟨[], (report R.heap err).toList⟩
  | .emitted name data =>
      match ends with
      | .ok () => ⟨[(name, data)], []⟩
      | .error err => ⟨[(name, data)], (report R.heap err).toList⟩

/-- What a listener reads from the data of an event. -/
def Realm.fields (R : Realm) : Option Json ⊕ ErrorData Value → ErrorData Value
  | .inl d => R.read d
  | .inr r => r

/-! ### What is to hold -/

/-- `===` for values of two threads, which share no object. -/
def Same : Value → Value → Prop
  | .undefined, .undefined | .null, .null => True
  | .boolean b, .boolean c => b = c
  | .number (.finite p), .number (.finite q) => p = q
  | .number (.infinity negative), .number (.infinity negative') => negative = negative'
  | .string s, .string t => s = t
  | _, _ => False

structure ErrorData.Same (e e' : ErrorData Value) : Prop where
  name : Message.Same e.name e'.name
  code : Message.Same e.code e'.code
  message : Message.Same e.message e'.message
  stack : Message.Same e.stack e'.stack

/-- One 'error' event with the same fields, and no report to the sender. -/
def Restored {Value Err : Type} (R : Realm) (sender : Side Json Value Err)
    (receiver : Side (Option Json) (ErrorData Js.Value) Exception) (heap : Heap)
    (err : ErrorData Js.Value) (ends : Except Exception Unit) : Prop :=
  ∃ w data, sendError sender heap err = .ok w ∧
    receive R receiver ends w = ⟨[("error", data)], []⟩ ∧ err.Same (R.fields data)

/-! ### When it does -/

/-- The fields as JSON carries them. -/
def carried (heap : Heap) (err : ErrorData Value) : Option (ErrorData (Option Json)) :=
  let h := heap ++ [.object err.members]
  do
    let name ← serialize h h.length err.name
    let code ← serialize h h.length err.code
    let message ← serialize h h.length err.message
    let stack ← serialize h h.length err.stack
    return ⟨name, code, message, stack⟩

/-- The object that arrives. -/
def ErrorData.object (c : ErrorData (Option Json)) : Json :=
  .object (c.members.filterMap fun m => m.2.map (m.1, ·))

/-- The global constructor of the name makes an object that has the message, and the code,
and takes stack and name. -/
def Rebuilds (R : Realm) (err : ErrorData Value) (c : ErrorData (Option Json)) : Prop :=
  ∃ ObjNew r stack name, R.global (R.parsed c.name) = some ObjNew ∧
    ObjNew (R.parsed c.message) = .ok r ∧ r.stack.put (R.parsed c.stack) = .ok stack ∧
    r.name.put (R.parsed c.name) = .ok name ∧ err.Same ⟨name, r.code, r.message, stack⟩

/-- What the receiver has under the id that the sender has for 'Error'. Only where the
sender has registered another constructor as 'Error' it is not `_error_constructor`. -/
def Accepts (R : Realm) (receiver : Side (Option Json) (ErrorData Value) Exception)
    (err : ErrorData Value) (c : ErrorData (Option Json)) (k : ℕ) : Prop :=
  if k = 0 then Rebuilds R err c
  else
    match receiver.typeConstructor[k]? with
    | none => err.Same (R.read (some c.object))
    | some cons => ∃ r, cons (some c.object) = .ok r ∧ err.Same r

/-- No listener throws something that can be reported. -/
def Quiet (R : Realm) (ends : Except Exception Unit) : Prop :=
  ∀ err, ends = .error err → report R.heap err = none

/-! ### The way of a report -/

theorem stringify_members (heap : Heap) (err : ErrorData Value) :
    stringify (heap ++ [.object err.members]) (.ref heap.length) =
      (carried heap err).map fun c => some c.object := by
  have node : (heap ++ [Node.object err.members]).node heap.length = .object err.members := by
    simp [Heap.node]
  rw [stringify, serialize, node]
  simp only [carried, ErrorData.members, List.mapM_cons, List.mapM_nil]
  generalize heap ++ [Node.object _] = h
  cases serialize h h.length err.name with
  | none => rfl
  | some name =>
      cases serialize h h.length err.code with
      | none => rfl
      | some code =>
          cases serialize h h.length err.message with
          | none => rfl
          | some message =>
              cases serialize h h.length err.stack with
              | none => rfl
              | some stack =>
                  cases name <;> cases code <;> cases message <;> cases stack <;> rfl

theorem read_object (R : Realm) (c : ErrorData (Option Json)) :
    R.read (some c.object) =
      ⟨R.parsed c.name, R.parsed c.code, R.parsed c.message, R.parsed c.stack⟩ := by
  obtain ⟨name, code, message, stack⟩ := c
  cases name <;> cases code <;> cases message <;> cases stack <;> rfl

section Sender

variable {Value Err : Type} {side : Side Json Value Err}

/-- 'Error' is not a number, and no comparison with it is true. -/
theorem send_named_error {Payload : Type} (data : Payload) :
    send side "error" data (.name "Error") =
    (side.cidOf "Error").elim (.error "bad constructor id Error")
      fun k => .ok ⟨"error", data, .id k⟩ := by
  have nan : Js.toNumber "Error" = .nan := rfl
  cases found : side.cidOf "Error" <;>
    simp [send, TypeRef.falsy, TypeRef.toNumber, nan, Number.lt, Number.ge, TypeRef.toKey, found]

/-- The message names the constructor that the sender has under 'Error'. -/
theorem sendError_eq_ok {heap : Heap} {err : ErrorData Js.Value} {w : Wire (Option Json)} :
    sendError side heap err = .ok w ↔ ∃ c k, carried heap err = some c ∧
      side.cidOf "Error" = some k ∧ w = ⟨"error", some c.object, .id k⟩ := by
  rw [sendError, message, send_named_error]
  cases side.cidOf "Error" with
  | none => simp
  | some k =>
      simp only [Option.elim_some, stringify_members]
      cases carried heap err with
      | none => simp
      | some c => simp [eq_comm]

end Sender

section Receiver

variable {R : Realm} {receiver : Side (Option Json) (ErrorData Value) Exception}

theorem errorConstructor_eq_ok {c : ErrorData (Option Json)} {e : ErrorData Value} :
    errorConstructor R (some c.object) = .ok e ↔ ∃ ObjNew r stack name,
      R.global (R.parsed c.name) = some ObjNew ∧ ObjNew (R.parsed c.message) = .ok r ∧
      r.stack.put (R.parsed c.stack) = .ok stack ∧ r.name.put (R.parsed c.name) = .ok name ∧
      e = ⟨name, r.code, r.message, stack⟩ := by
  have unfolded : errorConstructor R (some c.object) =
      match R.global (R.parsed c.name) with
      | none => R.typeError "ObjNew is not a constructor"
      | some ObjNew => do
          let r ← ObjNew (R.parsed c.message)
          let stack ← r.stack.put (R.parsed c.stack)
          let name ← r.name.put (R.parsed c.name)
          return ⟨name, r.code, r.message, stack⟩ := by
    have read := read_object R c
    unfold ErrorData.object at read ⊢
    simp only [errorConstructor, read]
  rw [unfolded]
  cases R.global (R.parsed c.name) with
  | none => simp [Realm.typeError]
  | some ObjNew =>
      simp only [Option.some.injEq, exists_and_left, exists_eq_left']
      cases ObjNew (R.parsed c.message) with
      | error x => simp [bind, Except.bind]
      | ok r =>
          simp only [bind, Except.bind, pure, Except.pure, Except.ok.injEq, exists_eq_left']
          cases r.stack.put (R.parsed c.stack) with
          | error x => simp
          | ok stack =>
              cases r.name.put (R.parsed c.name) with
              | error x => simp
              | ok name => simp [eq_comm]

theorem rebuilds_iff {err : ErrorData Value} {c : ErrorData (Option Json)} :
    Rebuilds R err c ↔ ∃ r, errorConstructor R (some c.object) = .ok r ∧ err.Same r := by
  constructor
  · rintro ⟨ObjNew, r, stack, name, found, made, hstack, hname, same⟩
    exact ⟨_, errorConstructor_eq_ok.mpr ⟨ObjNew, r, stack, name, found, made, hstack, hname, rfl⟩,
      same⟩
  · rintro ⟨e, rebuilt, same⟩
    obtain ⟨ObjNew, r, stack, name, found, made, hstack, hname, rfl⟩ :=
      errorConstructor_eq_ok.mp rebuilt
    exact ⟨ObjNew, r, stack, name, found, made, hstack, hname, same⟩

/-- Listeners that throw nothing to report are as good as listeners that return. -/
theorem receive_emitted {ends : Except Exception Unit} {w : Wire (Option Json)}
    {name : String} {data : Option Json ⊕ ErrorData Value}
    (emitted : recv receiver w = .emitted name data) :
    receive R receiver ends w = ⟨[("error", data)], []⟩ ↔ name = "error" ∧ Quiet R ends := by
  rw [receive, emitted]
  cases ends with
  | ok u => simp [Quiet]
  | error x =>
      cases quiet : report R.heap x with
      | none => simp [Quiet, quiet]
      | some w => simp [Quiet, quiet]

/-- What becomes of a report with the id `k`. -/
theorem receive_iff {ends : Except Exception Unit} {err : ErrorData Value}
    {c : ErrorData (Option Json)} {k : ℕ}
    (first : receiver.typeConstructor[0]? = some (errorConstructor R)) :
    (∃ data, receive R receiver ends ⟨"error", some c.object, .id k⟩ = ⟨[("error", data)], []⟩ ∧
      err.Same (R.fields data)) ↔ Quiet R ends ∧ Accepts R receiver err c k := by
  have accepts : Accepts R receiver err c k ↔
      match receiver.typeConstructor[k]? with
      | none => err.Same (R.read (some c.object))
      | some cons => ∃ r, cons (some c.object) = .ok r ∧ err.Same r := by
    by_cases zero : k = 0
    · subst zero
      rw [Accepts, if_pos rfl, first, rebuilds_iff]
    · rw [Accepts, if_neg zero]
  rw [accepts]
  cases cons : receiver.typeConstructor[k]? with
  | none =>
      have emitted : recv receiver ⟨"error", some c.object, .id k⟩ =
          .emitted "error" (.inl (some c.object)) := by
        simp [recv, Side.constructorAt, cons]
      constructor
      · rintro ⟨data, handled, same⟩
        have isData : data = .inl (some c.object) := by
          rw [receive, emitted] at handled
          cases ends <;> simpa [eq_comm] using congrArg Handled.emitted handled
        subst isData
        exact ⟨((receive_emitted emitted).mp handled).2, same⟩
      · rintro ⟨quiet, same⟩
        exact ⟨_, (receive_emitted emitted).mpr ⟨rfl, quiet⟩, same⟩
  | some cons' =>
      cases made : cons' (some c.object) with
      | error x =>
          have failed : recv receiver ⟨"error", some c.object, .id k⟩ = .reported x := by
            simp [recv, Side.constructorAt, cons, made]
          constructor
          · rintro ⟨data, handled, -⟩
            rw [receive, failed] at handled
            exact absurd (congrArg Handled.emitted handled) (by simp)
          · rintro ⟨-, r, ok, -⟩
            rw [made] at ok
            cases ok
      | ok r =>
          have emitted : recv receiver ⟨"error", some c.object, .id k⟩ =
              .emitted "error" (.inr r) := by
            simp [recv, Side.constructorAt, cons, made]
          constructor
          · rintro ⟨data, handled, same⟩
            have isData : data = .inr r := by
              rw [receive, emitted] at handled
              cases ends <;> simpa [eq_comm] using congrArg Handled.emitted handled
            subst isData
            exact ⟨((receive_emitted emitted).mp handled).2, r, made, same⟩
          · rintro ⟨quiet, r', ok, same⟩
            rw [made] at ok
            obtain rfl := Except.ok.inj ok
            exact ⟨_, (receive_emitted emitted).mpr ⟨rfl, quiet⟩, same⟩

theorem restored_iff {Value Err : Type} {sender : Side Json Value Err} {heap : Heap}
    {err : ErrorData Js.Value} {ends : Except Exception Unit}
    (first : receiver.typeConstructor[0]? = some (errorConstructor R)) :
    Restored R sender receiver heap err ends ↔
      Quiet R ends ∧ ∃ c k, carried heap err = some c ∧ sender.cidOf "Error" = some k ∧
        Accepts R receiver err c k := by
  constructor
  · rintro ⟨w, data, sent, handled, same⟩
    obtain ⟨c, k, hc, hk, rfl⟩ := sendError_eq_ok.mp sent
    obtain ⟨quiet, accepts⟩ := (receive_iff first).mp ⟨data, handled, same⟩
    exact ⟨quiet, c, k, hc, hk, accepts⟩
  · rintro ⟨quiet, c, k, hc, hk, accepts⟩
    obtain ⟨data, handled, same⟩ := (receive_iff first).mpr ⟨quiet, accepts⟩
    exact ⟨_, data, sendError_eq_ok.mpr ⟨c, k, hc, hk, rfl⟩, handled, same⟩

end Receiver

/-- The constructor of the id 0 stays the one of `wrap_context`. -/
theorem wrapContext_first {Data Value Err : Type} (errorConstructor : Data → Except Err Value)
    (rs : List (Registration Data Value Err)) :
    (wrapContext errorConstructor rs).side.typeConstructor[0]? = some errorConstructor := by
  have steps : ∀ (rs : List (Registration Data Value Err)) (h : History Data Value Err),
      h.side.typeConstructor[0]? = some errorConstructor →
      (rs.foldl History.register h).side.typeConstructor[0]? = some errorConstructor := by
    intro rs
    induction rs with
    | nil => exact fun h first => first
    | cons r rs ih =>
        intro h first
        refine ih _ ?_
        have nonempty : 0 < h.side.typeConstructor.length := (List.getElem?_eq_some_iff.mp first).1
        rcases register_cases h r with e | ⟨fits, e⟩ | ⟨-, fits, e⟩ | ⟨-, -, fits, e⟩
        · rw [e]
          exact first
        all_goals
          rw [e, List.getElem?_append_left nonempty]
          exact first
  exact steps rs _ rfl

/-- **Reports arrive as they were sent** if and only if JSON carries them, what the receiver
has under the id of 'Error' rebuilds them, and its listeners throw nothing to report. -/
theorem error_restored_iff {Value Err : Type} (senderConstructor : Json → Except Err Value)
    (rs : List (Registration Json Value Err)) (R : Realm)
    (rs' : List (Registration (Option Json) (ErrorData Js.Value) Exception)) (heap : Heap)
    (err : ErrorData Js.Value) (ends : Except Exception Unit) :
    Restored R (wrapContext senderConstructor rs).side (wrapContext (errorConstructor R) rs').side
        heap err ends ↔
      Quiet R ends ∧ ∃ c k, carried heap err = some c ∧
        (wrapContext senderConstructor rs).side.cidOf "Error" = some k ∧
        Accepts R (wrapContext (errorConstructor R) rs').side err c k :=
  restored_iff (wrapContext_first (errorConstructor R) rs')

/-! ### The errors of ECMAScript -/

def errorNames : List String :=
  ["Error", "EvalError", "RangeError", "ReferenceError", "SyntaxError", "TypeError", "URIError"]

/-- The text of an argument; `toText` converts values other than strings. -/
def messageText (toText : Value → Except Exception String) : Value → Except Exception String
  | .undefined => .ok ""
  | .string s => .ok s
  | v => toText v

/-- `new Error(message)` and its like. -/
def newError (toText : Value → Except Exception String) (trace : Value) (name : String)
    (message : Value) : Except Exception Instance := do
  let text ← messageText toText message
  return ⟨⟨.string name, .ok⟩, .undefined, .string text, ⟨trace, .ok⟩⟩

/-- A global object with these constructors. -/
def ecmaScript (toText : Value → Except Exception String) (heap : Heap) (trace : Value) :
    Realm where
  heap := heap
  global name :=
    match name with
    | .string s => if s ∈ errorNames then some (newError toText trace s) else none
    | _ => none
  trace := trace

theorem same_string {v : Value} {s : String} : Same v (.string s) ↔ v = .string s := by
  cases v with
  | number n => cases n <;> simp [Same]
  | _ => simp [Same]

theorem same_undefined {v : Value} : Same v .undefined ↔ v = .undefined := by
  cases v with
  | number n => cases n <;> simp [Same]
  | _ => simp [Same]

section ECMAScript

variable {toText : Value → Except Exception String} {heap : Heap} {trace : Value}
  {senderHeap : Heap} {err : ErrorData Value} {c : ErrorData (Option Json)}

theorem carried_string (hc : carried senderHeap err = some c) {s : String} :
    (err.name = .string s → c.name = some (.string s)) ∧
      (err.message = .string s → c.message = some (.string s)) := by
  simp only [carried, Option.bind_eq_bind, Option.bind_eq_some_iff] at hc
  obtain ⟨name, hname, code, -, message, hmessage, stack, -, hc⟩ := hc
  obtain rfl := Option.some.inj hc
  constructor
  · intro isString
    rw [isString, serialize] at hname
    exact (Option.some.inj hname).symm
  · intro isString
    rw [isString, serialize] at hmessage
    exact (Option.some.inj hmessage).symm

theorem newError_eq_ok {name : String} {message : Value} {r : Instance}
    (made : newError toText trace name message = .ok r) :
    ∃ text, r = ⟨⟨.string name, .ok⟩, .undefined, .string text, ⟨trace, .ok⟩⟩ := by
  rw [newError] at made
  cases text : messageText toText message with
  | error x =>
      rw [text] at made
      cases made
  | ok text' =>
      rw [text] at made
      exact ⟨text', (Except.ok.inj made).symm⟩

/-- A standard error is rebuilt if it has no code. -/
theorem rebuilds_ecmaScript (hc : carried senderHeap err = some c) :
    Rebuilds (ecmaScript toText heap trace) err c ↔
      (∃ name ∈ errorNames, err.name = .string name) ∧ err.code = .undefined ∧
      (∃ text, err.message = .string text) ∧
      Same err.stack ((ecmaScript toText heap trace).parsed c.stack) := by
  constructor
  · rintro ⟨ObjNew, r, stack, name, found, made, hstack, hname, same⟩
    generalize (ecmaScript toText heap trace).parsed c.name = sent at found hname
    cases sent with
    | string s =>
        by_cases known : s ∈ errorNames
        · obtain rfl : newError toText trace s = ObjNew := by
            simpa [ecmaScript, known] using found
          obtain ⟨text, rfl⟩ := newError_eq_ok made
          obtain rfl := Except.ok.inj hname
          obtain rfl := Except.ok.inj hstack
          exact ⟨⟨s, known, same_string.mp same.name⟩, same_undefined.mp same.code,
            ⟨text, same_string.mp same.message⟩, same.stack⟩
        · simp [ecmaScript, known] at found
    | _ => cases found
  · rintro ⟨⟨name, known, hname⟩, hcode, ⟨text, htext⟩, hstack⟩
    have sentName := (carried_string hc).1 hname
    have sentText := (carried_string hc).2 htext
    refine ⟨newError toText trace name,
      ⟨⟨.string name, .ok⟩, .undefined, .string text, ⟨trace, .ok⟩⟩,
      (ecmaScript toText heap trace).parsed c.stack, .string name, ?_, ?_, rfl, ?_, ?_⟩
    · rw [sentName]
      exact if_pos known
    · rw [sentText]
      rfl
    · rw [sentName]
      rfl
    · constructor
      · exact same_string.mpr hname
      · exact same_undefined.mpr hcode
      · exact same_string.mpr htext
      · exact hstack

/-- Between sides that have registered nothing as 'Error', the errors that arrive are the
standard ones without a code. -/
theorem restored_standard_iff {Value Err : Type} {senderConstructor : Json → Except Err Value}
    {ends : Except Exception Unit} :
    Restored (ecmaScript toText heap trace) (wrapContext senderConstructor []).side
        (wrapContext (errorConstructor (ecmaScript toText heap trace)) []).side senderHeap err
        ends ↔
      Quiet (ecmaScript toText heap trace) ends ∧ ∃ c, carried senderHeap err = some c ∧
        (∃ name ∈ errorNames, err.name = .string name) ∧ err.code = .undefined ∧
        (∃ text, err.message = .string text) ∧
        Same err.stack ((ecmaScript toText heap trace).parsed c.stack) := by
  have id : (wrapContext senderConstructor []).side.cidOf "Error" = some 0 := rfl
  rw [restored_iff (wrapContext_first _ [])]
  constructor
  · rintro ⟨quiet, c, k, hc, hk, accepts⟩
    obtain rfl : 0 = k := Option.some.inj (id.symm.trans hk)
    rw [Accepts, if_pos rfl, rebuilds_ecmaScript hc] at accepts
    exact ⟨quiet, c, hc, accepts⟩
  · rintro ⟨quiet, c, hc, standard⟩
    refine ⟨quiet, c, 0, hc, id, ?_⟩
    rw [Accepts, if_pos rfl, rebuilds_ecmaScript hc]
    exact standard

end ECMAScript

/-- An error of the file system loses its code, and one that is not a global constructor is
answered by a report of a `TypeError`. -/
theorem code_and_name_lost :
    ¬ Restored (ecmaScript (fun _ => .ok "") [] .undefined)
        (wrapContext (fun _ => (.ok () : Except Unit Unit)) []).side
        (wrapContext (errorConstructor (ecmaScript (fun _ => .ok "") [] .undefined)) []).side []
        ⟨.string "Error", .string "ENOENT", .string "no such file", .string "Error: no such file"⟩
        (.ok ()) ∧
      ¬ Restored (ecmaScript (fun _ => .ok "") [] .undefined)
        (wrapContext (fun _ => (.ok () : Except Unit Unit)) []).side
        (wrapContext (errorConstructor (ecmaScript (fun _ => .ok "") [] .undefined)) []).side []
        ⟨.string "AssertionError", .undefined, .string "false == true", .string "AssertionError"⟩
        (.ok ()) := by
  constructor
  · rw [restored_standard_iff]
    rintro ⟨-, c, -, -, code, -⟩
    cases code
  · rw [restored_standard_iff]
    rintro ⟨-, c, -, ⟨name, known, isName⟩, -⟩
    obtain rfl := Value.string.inj isName
    exact absurd known (by decide)

end ThreadJs.Message
