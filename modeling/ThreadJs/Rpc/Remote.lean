import ThreadJs.Lib.Json.Numeral
import ThreadJs.Message.Boot
import ThreadJs.Rpc.Halves

/-!
Calls of library functions between two threads (`fn-proxy.js`, `bind_function_call` of
`main-warp.js`).

A proxy sends the namespace, the name, the arguments and the number of the call in a message
'__direct_call_obj_func', the main side finds the function and calls it, and each `next` sends
a message under the event name of the call. Here the messages are JSON texts that go through
the mailboxes, among the other messages of both sides; the code on either side is any program
that leaves to `fn-proxy.js` and `bind_function_call` what is theirs: the messages
'__direct_call_obj_func', and the events of the calls. A thread runs as long as its messages take;
that it waits in `thread.wait` (`Wait.Barrier`) or is torn down is not part of this machine.
-/

namespace ThreadJs.Rpc.Remote

open JsonText Machine Mailbox Message Parties
open Message.Boot (isNamed view isNamed_view isNamed_view_of_ne)

/-- A value as it arrives; `none` is `undefined`. -/
abbrev Datum := Option JsonText.Value

/-- A property of `data`. -/
def member (d : Datum) (name : String) : Datum := d.bind (·.get (units name.toList))

/-! ### Messages -/

def directCall : List Char := "__direct_call_obj_func".toList

/-- The call of a proxy; an argument is `none` where `JSON.stringify` leaves it out. -/
structure Invocation where
  ns : Option (List Char)
  name : List Char
  args : List (Option Tree)

/-- The message of a call; `rid` is 0 where there is no callback. -/
structure Request extends Invocation where
  rid : ℕ

/-- The members of `arguments` from an index on. -/
def indexed : ℕ → List (Option Tree) → List (List Char × Tree)
  | _, [] => []
  | i, none :: as => indexed (i + 1) as
  | i, some t :: as => ((natural i).text, t) :: indexed (i + 1) as

def Request.data (q : Request) : Tree :=
  .obj [("ns".toList, q.ns.elim .null .str), ("name".toList, .str q.name),
    ("args".toList, .obj (indexed 0 q.args)), ("len".toList, .num (natural q.args.length)),
    ("rid".toList, .num (natural q.rid))]

def Request.message (q : Request) : Envelope := ⟨directCall, some q.data, none⟩

/-- `{ err : err, ret : ret }`, sent to the call with this number. -/
def replyMessage (rid : ℕ) (err ret : Option Tree) : Envelope where
  name := (key rid).toList
  data := some (.obj ((err.map fun t => ("err".toList, t)).toList ++
    (ret.map fun t => ("ret".toList, t)).toList))
  cid := none

/-- The data of a call, where a message is one. -/
def callOf (r : Option Parsed) : Option Datum :=
  if isNamed r directCall then some (r.bind Parsed.data) else none

/-- `data.rid` -/
def ridOf (d : Datum) : ℕ :=
  match member d "rid" with
  | some (.num w) => toNat w
  | _ => 0

/-- The number of a call with a callback. -/
def numberOf (d : Datum) : Option ℕ := if 0 < ridOf d then some (ridOf d) else none

/-- The number in an event name of a call. -/
def keyNumber (name : List Char) : Option ℕ :=
  let k := Nat.ofDigitChars 10 (name.drop backCall.length) 0
  if name = (key k).toList then some k else none

def eventName (r : Option Parsed) : List Char :=
  match r.bind Parsed.name with
  | some (.str us) => chars us
  | _ => "undefined".toList

/-- `data.err` and `data.ret`. -/
def replyData (r : Option Parsed) : Reply Datum :=
  let d := r.bind Parsed.data
  ⟨member d "err", member d "ret"⟩

/-- The number of the call and the reply, where a message is one. -/
def replyOf (r : Option Parsed) : Option (ℕ × Reply Datum) :=
  (keyNumber (eventName r)).map fun k => (k, replyData r)

/-! ### The thread -/

/-- A message that is not named as a call. -/
abbrev Other := { m : Envelope // m.name ≠ directCall }

/-- A name that is not that of the replies to a call. -/
abbrev Name := { name : String // isBackCall name = false }

/-- What the code of the thread does. It calls the functions through their proxies only, leaves the
names of the calls alone, and does not call `offall`. -/
inductive Op (User : Type) where
  | call (c : Invocation) (multiple : Bool)
  /-- The function takes no callback. -/
  | plain (c : Invocation)
  | send (m : Other)
  | unbind (retid : ℕ)
  | on (name : Name) (u : User) (remove : Bool)
  | off (name : Name) (u : Option User)
  | emit (name : Name) (data : Reply Datum)
  | ret
  | throw

variable {User : Type}

/-- What it does to the emitter. -/
def Op.action : Op User → Option (Rpc.Action User Datum)
  | .plain _ | .send _ => none
  | .call _ multiple => some (.call multiple)
  | .unbind retid => some (.unbind retid)
  | .on name u remove => some (.on name.val u remove)
  | .off name u => some (.off name.val u)
  | .emit name data => some (.emit name.val data)
  | .ret => some .ret
  | .throw => some .throw

/-- The calls that it makes, where `id` have been counted before. -/
def Op.requests (id : ℕ) : Op User → List Request
  | .call c _ => [⟨c, id + 1⟩]
  | .plain c => [⟨c, 0⟩]
  | _ => []

def Op.messages (id : ℕ) : Op User → List Envelope
  | .send m => [m.val]
  | o => (o.requests id).map Request.message

structure Thread (υ User : Type) where
  user : υ
  state : State User Datum
  /-- The calls, from the first on. -/
  made : List Request

variable {υ μ ι κ Φ : Type}

section Execution

variable [DecidableEq User]

/-- What code cannot do has no effect: it cannot return from a callback that does not run, nor call
the `unbind` of one that was not called. Nothing else is refused (`Half.refused_iff`). -/
def Thread.op (T : Thread υ User) (o : Op User) : Thread υ User × List Envelope :=
  ({ T with
    state := (o.action.bind (step T.state)).getD T.state
    made := T.made ++ o.requests T.state.id }, o.messages T.state.id)

def Thread.exec : Thread υ User → List (Op User) → Thread υ User × List Envelope
  | T, [] => (T, [])
  | T, o :: os => ((T.op o).1.exec os).map id ((T.op o).2 ++ ·)

/-- The code of a thread. -/
structure Script (υ κ User : Type) where
  act : υ → State User Datum → κ → Option (υ × List (Op User))
  /-- The listeners, once `emit` has begun, and the report about an exception of `JSON.parse`. -/
  receive : υ → State User Datum → Option Parsed → υ × List (Op User)
  /-- What is sent where an exception is not caught. -/
  report : Other

/-- A turn to its end: callbacks that have not returned then have thrown. -/
def Thread.turn (P : Script υ κ User) (T : Thread υ User) (r : υ × List (Op User)) :
    Thread υ User × List Envelope :=
  let done := { T with user := r.1 }.exec r.2
  ({ done.1 with state := { done.1.state with frames := [] } },
    done.2 ++ if done.1.state.frames.isEmpty then [] else [P.report.val])

/-- The first walk of `emit` for a message. -/
def Thread.deliver (T : Thread υ User) (r : Option Parsed) : State User Datum :=
  match replyOf r with
  | some reply => (step { T.state with toThread := [reply] } .recv).getD T.state
  | none => (step T.state (.emit (String.ofList (eventName r)) (replyData r))).getD T.state

def Thread.receive (P : Script υ κ User) (T : Thread υ User) (r : Option Parsed) :
    Thread υ User × List Envelope :=
  let state := T.deliver r
  { T with state := state }.turn P (P.receive T.user state r)

def Thread.act (P : Script υ κ User) (T : Thread υ User) (k : κ) :
    Option (Thread υ User × List Envelope) :=
  (P.act T.user T.state k).map (T.turn P)

end Execution

/-! ### The main side -/

/-- `libs`: what is found under a namespace, under a name in it and as `fn` there. -/
abbrev Libs (Φ : Type) := String → Option (String → Option (Option Φ))

/-- A function, with `data.args` and its `length`. -/
structure Run (Φ : Type) where
  func : Φ
  args : Datum
  len : ℕ

/-- `args[i]` -/
def Run.arg {Φ : Type} (r : Run Φ) (i : ℕ) : Datum := member r.args (toString i)

/-- The three tests of `bind_function_call`. -/
def find (libs : Libs Φ) (ns name : String) : Except String Φ :=
  match libs ns with
  | none => .error ("not hs namespace: " ++ ns)
  | some space =>
      match space name with
      | none => .error ("not has lib config: " ++ name)
      | some none => .error ("config not has function: " ++ ns ++ "::" ++ name)
      | some (some func) => .ok func

/-- A message that is not named as a reply. -/
abbrev Foreign := { m : Envelope // isBackCall (String.ofList m.name) = false }

inductive Effect where
  /-- `_cb` of a call, with what `JSON.stringify` keeps of its arguments. -/
  | next (rid : ℕ) (err ret : Option Tree)
  | send (m : Foreign)

/-- The functions and the other code of the main side, which emits no calls on the handle itself
and leaves the listener of '__direct_call_obj_func' there. -/
structure Library (Φ μ ι : Type) where
  libs : Libs Φ
  /-- A function runs, with `_cb` of the call of this number; in the end it may throw. -/
  call : μ → Run Φ → ℕ → μ × List Effect × Option (Option Tree)
  act : μ → ι → Option (μ × List Effect)
  receive : μ → Option Parsed → μ × List Effect

structure Main (Φ μ : Type) where
  user : μ
  /-- The calls that have arrived. -/
  handled : List Datum
  ran : List (Run Φ)
  /-- Those that wait for replies. -/
  started : List ℕ
  given : List (ℕ × Reply Datum)

/-- A reply is on its way. -/
def Main.answer (M : Main Φ μ) (rid : ℕ) (err ret : Option Tree) : Main Φ μ :=
  { M with given := M.given ++ [(rid, ⟨err.map Tree.value, ret.map Tree.value⟩)] }

/-- The program goes on. -/
def Main.exec : Main Φ μ → List Effect → Main Φ μ × List Envelope
  | M, [] => (M, [])
  | M, .send m :: es => (M.exec es).map id (m.val :: ·)
  | M, .next rid err ret :: es =>
      if rid ∈ M.started then
        ((M.answer rid err ret).exec es).map id (replyMessage rid err ret :: ·)
      -- `console.log`
      else M.exec es

/-- A name as a key of an object. -/
def nameOf (d : Datum) : String :=
  match d with
  | some (.str us) => String.ofList (chars us)
  | _ => "null"

def lenOf (d : Datum) : ℕ :=
  match d with
  | some (.num w) => toNat w
  | _ => 0

/-- What a call runs. -/
def Library.target (L : Library Φ μ ι) (d : Datum) : Option (Run Φ) :=
  match find L.libs (nameOf (member d "ns")) (nameOf (member d "name")) with
  | .error _ => none
  | .ok func => some ⟨func, member d "args", lenOf (member d "len")⟩

/-- The listener of '__direct_call_obj_func'. -/
def Main.directCall (L : Library Φ μ ι) (M : Main Φ μ) (d : Datum) : Main Φ μ × List Envelope :=
  let M : Main Φ μ := { M with
    handled := M.handled ++ [d]
    started := M.started ++ (numberOf d).toList }
  match find L.libs (nameOf (member d "ns")) (nameOf (member d "name")) with
  | .error text => M.exec [.next (ridOf d) (some (.str text.toList)) none]
  | .ok func =>
      let run : Run Φ := ⟨func, member d "args", lenOf (member d "len")⟩
      let done := L.call M.user run (ridOf d)
      let thrown : List Effect := done.2.2.toList.map fun err => .next (ridOf d) err none
      let M : Main Φ μ := { M with user := done.1, ran := M.ran ++ [run] }
      M.exec (done.2.1 ++ thrown)

def Main.receive (L : Library Φ μ ι) (M : Main Φ μ) (r : Option Parsed) :
    Main Φ μ × List Envelope :=
  match callOf r with
  | some d => M.directCall L d
  | none =>
      let done := L.receive M.user r
      { M with user := done.1 }.exec done.2

def Main.act (L : Library Φ μ ι) (M : Main Φ μ) (i : ι) : Option (Main Φ μ × List Envelope) :=
  (L.act M.user i).map fun done => { M with user := done.1 }.exec done.2

/-! ### Both -/

abbrev Part (Φ μ υ User : Type) : Steady.Side → Type
  | .main => Main Φ μ
  | .sub => Thread υ User

abbrev Input (ι κ : Type) : Steady.Side → Type
  | .main => ι
  | .sub => κ

variable [DecidableEq User]

def party (L : Library Φ μ ι) (P : Script υ κ User) :
    ∀ side, Party (Part Φ μ υ User side) (Input ι κ side) Envelope (Option Parsed)
  | .main => ⟨Main.act L, Main.receive L⟩
  | .sub => ⟨Thread.act P, Thread.receive P⟩

/-- Both sides before the first call. -/
def begun (m : μ) (u : υ) : ∀ side, Part Φ μ υ User side
  | .main => ⟨m, [], [], [], []⟩
  | .sub => ⟨u, init, []⟩

/-- What the main side has sent before. -/
def before (ms : List Foreign) : Steady.Side → List Envelope
  | .main => []
  | .sub => ms.map Subtype.val

end ThreadJs.Rpc.Remote
