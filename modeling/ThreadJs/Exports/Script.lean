import ThreadJs.Lib.Js.Heap
import ThreadJs.Lib.Js.Object
import ThreadJs.Lib.Js.Strings
import ThreadJs.Lib.Json.Numeral
import ThreadJs.Rpc.Proxy

/-!
The functions that the main side exports to a thread (`exports_libs_code` and
`bind_function_call` of `main-warp.js`, `fn-proxy.js`).

The table of the functions becomes a script of calls of `__createFunctionProxy`, which
put a proxy for each function on `thread` or on an object for its namespace. A proxy
sends its arguments as a message, and the main side looks the function up again. The
objects that the script meets, `thread` and the namespaces, are ordinary objects: they
have the properties of `Object.prototype`, and `thread` those of `context.js`.

Namespaces are any texts. One that breaks out of its quotes makes another script of the
table, which is followed as far as it consists of calls of `__createFunctionProxy`. What a
script does that assigns to `Object.prototype` is left to the engine.
-/

namespace ThreadJs.Exports

open Js
open Js.Source (Call isIdentifierUnit program)
open JsonText (chars integerOf integerText units)

/-! ### The main side -/

/-- The configuration of a function; the function is known by its place in the table. -/
structure Lib where
  argc : ℤ
  ret : Bool
  mult : Bool
  deriving DecidableEq

/-- `libs` in the order of `for (… in …)`. The names of the functions are made of
identifier characters, those of the namespaces are any. -/
structure Libs where
  table : List (String × List (String × Lib))
  namespaces : (table.map Prod.fst).Nodup
  names : ∀ e ∈ table, (e.2.map Prod.fst).Nodup
  identifiers : ∀ e ∈ table, ∀ f ∈ e.2, (units f.1.toList).all isIdentifierUnit = true

/-- `libs[namespace][fname]` -/
def Libs.get (libs : Libs) (ns fname : String) : Option Lib :=
  (libs.table.lookup ns).bind (·.lookup fname)

def booleanText (b : Bool) : List Char := (if b then "true" else "false").toList

/-- What the body of the inner loop pushes. -/
def exportCode (ns fname : String) (lib : Lib) : List Char :=
  "__createFunctionProxy(".toList ++
    (if ns = "" then "null".toList else ['"'] ++ ns.toList ++ ['"']) ++
    [',', '"'] ++ fname.toList ++ ['"', ','] ++
    integerText lib.argc ++ [','] ++
    booleanText lib.ret ++ [','] ++
    booleanText lib.mult ++ [')', ';', '\n']

def exportsLibsCode (libs : Libs) : List Char :=
  "\n\n".toList ++
    (libs.table.flatMap fun e => e.2.flatMap fun f => exportCode e.1 f.1 f.2) ++
    "\n\n".toList

/-! ### The thread -/

/-- The arguments of `__createFunctionProxy`. -/
structure Proxy where
  ns : Option String
  name : String
  argc : ℤ
  hasRet : Bool
  multiple : Bool

/-- A text as a name; half a pair of units is none. -/
def nameOf (us : List UInt16) : Option String :=
  if units (chars us) = us then some (String.ofList (chars us)) else none

/-- The first argument, `null` or a name. -/
def namespaceOf : Source.Literal → Option (Option String)
  | .null => some none
  | .string ns => (nameOf ns).map some
  | _ => none

/-- A statement of the library script. -/
def proxyOf (c : Call) : Option Proxy :=
  if c.callee = units "__createFunctionProxy".toList then
    match c.args with
    | [ns, .string name, .number argc, .boolean ret, .boolean mult] =>
        (namespaceOf ns).bind fun ns => (nameOf name).bind fun name =>
          (integerOf argc).map fun argc => ⟨ns, name, argc, ret, mult⟩
    | _ => none
  else none

/-- The calls that the library script makes. `String::NewFromUtf8` ends the text at U+0000,
which leaves the function around it open. -/
def libScript (code : List Char) : Option (List Proxy) :=
  if '\u0000' ∈ code then none
  else (program (units code)).bind (List.mapM proxyOf)

/-- `if (argc >= 0 && has_ret) argc += 1` -/
def Proxy.closure (p : Proxy) : Proxy :=
  { p with argc := if 0 ≤ p.argc ∧ p.hasRet = true then p.argc + 1 else p.argc }

inductive Arg where
  | undefined
  | json (j : Json)
  | function

/-- The message '__direct_call_obj_func'. -/
structure Request where
  ns : Option String
  name : String
  /-- The properties of `arguments` that JSON can denote, by their index. -/
  args : List (ℕ × Json)
  len : ℕ
  rid : ℕ

/-- What a call has sent before it has returned or thrown. -/
structure Outcome where
  sent : List Request
  thrown : Bool

def Outcome.throw : Outcome := ⟨[], true⟩

/-- What a script leaves: whether it has thrown, and the calls `thread[ns][fname](…)`, which
are known by the last number of a reply. -/
structure Loaded where
  thrown : Bool
  call : ℕ → String → String → List Arg → Outcome

/-- What there is under a name before the script: whether the value is truthy, and whether
an assignment would change it. -/
structure Slot where
  truthy : Bool
  writable : Bool
  deriving DecidableEq

def Slot.free : Slot := ⟨false, true⟩

/-- The functions and objects among the properties of `thread` (`wrap_context`). -/
def contextProperties : List String :=
  ["CONSTRUCTORS", "on", "off", "offall", "once", "send", "send_error", "emit", "wait", "eval",
    "create_context", "runMicrotasks", "reg_constructor"]

/-- What the engine knows of its functions and objects. -/
structure Engine where
  threadId : ℕ
  /-- The properties of `thread[name]`, where this is a function or an object. -/
  slots : String → String → Slot
  /-- The properties of a function that a script has made. -/
  functionSlots : String → Slot
  noSend : ∀ name, slots name "send" = .free
  noFunctionSend : functionSlots "send" = .free
  /-- How deep calls can be nested, less one. -/
  stack : ℕ
  /-- What a script leaves that sets the prototype of an object, or a property of
  `Object.prototype`, which all objects inherit. -/
  inherited : List Proxy → Loaded
  /-- Calls are for the namespaces that the script has passed. -/
  inheritedNs : ∀ ps id ns fname args, ∀ r ∈ ((inherited ps).call id ns fname args).sent,
    ∃ p ∈ ps, r.ns = p.ns

/-- A value under a name of `thread` before the script, where it is truthy. -/
inductive Host where
  | number
  | object (slots : String → Slot)

def Engine.host (E : Engine) (name : String) : Option Host :=
  if name = "threadId" then if E.threadId = 0 then none else some .number
  else if name ∈ contextProperties ∨ name ∈ objectPrototype then some (.object (E.slots name))
  else none

/-- The objects that the script takes for namespaces. -/
inductive Target where
  /-- A new object. -/
  | table (ns : String)
  /-- What `thread` has under this name before the script. -/
  | host (name : String)
  /-- A proxy that is a property of `thread`. -/
  | proxy (name : String)
  deriving DecidableEq

/-- An own property that the script gives `thread`. -/
inductive Assigned where
  | table
  | proxy (p : Proxy)

/-- What the script has done, the last assignment first. -/
structure Scope where
  assigned : List (String × Assigned)
  members : List ((Target × String) × Proxy)

def Scope.start : Scope := ⟨[], []⟩

/-- The value of `thread[name]`. -/
inductive ThreadValue where
  | undefined
  | number
  | object (t : Target)
  | function (p : Proxy)

def Scope.thread (E : Engine) (s : Scope) (name : String) : ThreadValue :=
  match s.assigned.lookup name with
  | some .table => .object (.table name)
  | some (.proxy p) => .function p
  | none =>
      match E.host name with
      | none => .undefined
      | some .number => .number
      | some (.object _) => .object (.host name)

/-- A property of a namespace object. -/
inductive Member where
  | function (p : Proxy)
  | slot (s : Slot)

def Scope.member (E : Engine) (s : Scope) (t : Target) (name : String) : Member :=
  match s.members.lookup (t, name) with
  | some p => .function p
  | none => .slot <|
      match t with
      | .table _ => ⟨name ∈ objectPrototype, true⟩
      | .host host => E.slots host name
      | .proxy _ => E.functionSlots name

/-! ### Calls -/

/-- The arguments as an object of their indices, without those that JSON leaves out. -/
def indexed (args : List Arg) : List (ℕ × Json) :=
  (args.zipIdx).filterMap fun a =>
    match a.1 with
    | .json j => some (a.2, j)
    | _ => none

/-- `thread.send('__direct_call_obj_func', …)`. A proxy under the name `send` would call
itself until the stack is exhausted, or throw at once. -/
def Scope.send (E : Engine) (s : Scope) (r : Request) : Outcome :=
  match s.thread E "send" with
  | .object _ => ⟨[r], false⟩
  | _ => .throw

/-- The function that `__createFunctionProxy` makes. -/
def Proxy.call (E : Engine) (s : Scope) : ℕ → ℕ → Proxy → List Arg → Outcome
  -- The stack is exhausted.
  | 0, _, _, _ => .throw
  | stack + 1, id, p, args =>
      if 0 ≤ p.argc ∧ p.argc ≠ args.length then .throw
      else if p.hasRet then
        match args.getLast? with
        | some .function =>
            let listened :=
              match s.thread E (if p.multiple then "on" else "once") with
              | .object _ => ⟨[], false⟩
              | .function q =>
                  call E s stack (id + 1) q [.json (.string (Rpc.key (id + 1))), .function]
              | _ => .throw
            if listened.thrown then listened
            else
              let sent := s.send E ⟨p.ns, p.name, indexed args.dropLast, args.length - 1, id + 1⟩
              ⟨listened.sent ++ sent.sent, sent.thrown⟩
        | _ => .throw
      else s.send E ⟨p.ns, p.name, indexed args, args.length, 0⟩

/-- `bind.send('warn', …)` where `bind` is a namespace object. -/
def Scope.warn (E : Engine) (s : Scope) (t : Target) (name : String) : Outcome :=
  match s.member E t "send" with
  | .function q =>
      q.call E s (E.stack + 1) 0
        [.json (.string "warn"), .json (.string ("function replased:" ++ name))]
  -- `send` is no function.
  | .slot _ => .throw

/-- `bind[name] = …` after the test of `bind[name]`. -/
def Scope.bind (E : Engine) (s : Scope) (t : Target) (p : Proxy) : Outcome × Scope :=
  let warned : Outcome :=
    match s.member E t p.name with
    | .function _ => s.warn E t p.name
    | .slot slot => if slot.truthy then s.warn E t p.name else ⟨[], false⟩
  let writable :=
    match s.member E t p.name with
    | .function _ => true
    | .slot slot => slot.writable
  if writable then (warned, { s with members := ((t, p.name), p.closure) :: s.members })
  else (warned, s)

/-- The properties that numbers have. -/
def numberPrototype : List String :=
  objectPrototype ++ ["toFixed", "toExponential", "toPrecision"]

def createFunctionProxy (E : Engine) (s : Scope) (p : Proxy) : Outcome × Scope :=
  -- `if (namespace)`
  match p.ns.filter (· ≠ "") with
  | none =>
      let warned : Outcome :=
        match s.thread E p.name with
        | .undefined => ⟨[], false⟩
        | _ =>
            match s.thread E "send" with
            | .object _ => ⟨[], false⟩
            | _ => .throw
      (warned, { s with assigned := (p.name, .proxy p.closure) :: s.assigned })
  | some ns =>
      match s.thread E ns with
      | .undefined =>
          let s := { s with assigned := (ns, .table) :: s.assigned }
          s.bind E (.table ns) p
      -- Properties of a number cannot be set.
      | .number => (if p.name ∈ numberPrototype then .throw else ⟨[], false⟩, s)
      | .object t => s.bind E t p
      | .function _ => s.bind E (.proxy ns) p

/-- The library script. -/
def runScript (E : Engine) : Scope → List Proxy → Outcome × Scope
  | s, [] => (⟨[], false⟩, s)
  | s, p :: ps =>
      let (first, s) := createFunctionProxy E s p
      if first.thrown then (first, s)
      else
        let (rest, s) := runScript E s ps
        (⟨first.sent ++ rest.sent, rest.thrown⟩, s)

/-- `thread[ns][fname](…)`, or `thread[fname](…)` for the empty namespace. -/
def callFunction (E : Engine) (s : Scope) (id : ℕ) (ns fname : String)
    (args : List Arg) : Outcome :=
  let property (t : Target) : Outcome :=
    match s.member E t fname with
    | .function p => p.call E s (E.stack + 1) id args
    | .slot slot => ⟨[], !slot.truthy⟩
  if ns = "" then
    match s.thread E fname with
    | .function p => p.call E s (E.stack + 1) id args
    | .object (.host _) => ⟨[], false⟩
    | _ => .throw
  else
    match s.thread E ns with
    | .undefined => .throw
    | .number => ⟨[], fname ∉ numberPrototype⟩
    | .object t => property t
    | .function _ => property (.proxy ns)

/-- The call assigns to `Object.prototype`, or to the prototype of an object. -/
def Proxy.inherited (p : Proxy) : Bool := p.ns = some "__proto__" || p.name = "__proto__"

/-- The library script, and the calls after it. -/
def load (E : Engine) (ps : List Proxy) : Loaded :=
  if ps.any Proxy.inherited then E.inherited ps
  else ⟨(runScript E .start ps).1.thrown, callFunction E (runScript E .start ps).2⟩

/-! ### The call on the main side -/

/-- `data.args`, with `data.len` for its length. -/
structure Arguments where
  members : List (ℕ × Json)
  length : ℕ

def Arguments.get (a : Arguments) (i : ℕ) : Option Json := a.members.lookup i

/-- The listener of '__direct_call_obj_func': the function that is called, by its place in
`libs`, and its arguments. `libs[null]` is the entry of the name "null". -/
def Libs.handle (libs : Libs) (r : Request) : Option (String × String × Arguments) :=
  (libs.get (r.ns.getD "null") r.name).map fun _ =>
    (r.ns.getD "null", r.name, ⟨r.args, r.len⟩)

/-! ### What the functions are for -/

/-- An argument list that the function takes, callback included. -/
def Lib.takes (lib : Lib) (args : List Arg) : Prop :=
  if 0 ≤ lib.argc then (args.length : ℤ) = lib.argc + if lib.ret then 1 else 0
  else lib.ret = true → args ≠ []

/-- The arguments of a call: JSON values and `undefined`, and the callback. -/
def Lib.arguments (lib : Lib) (as : List (Option Json)) : List Arg :=
  as.map (·.elim .undefined .json) ++ if lib.ret then [.function] else []

/-- A call with as many arguments as the function takes calls it once, on these arguments;
any other call throws and sends nothing. -/
structure Reaches (libs : Libs) (L : Loaded) (ns fname : String) (lib : Lib) : Prop where
  accepted : ∀ id (as : List (Option Json)), lib.takes (lib.arguments as) →
    (L.call id ns fname (lib.arguments as)).thrown = false ∧
    ∃ args : Arguments,
      (L.call id ns fname (lib.arguments as)).sent.filterMap libs.handle = [(ns, fname, args)] ∧
      args.length = as.length ∧ ∀ i, args.get i = (as[i]?).join
  rejected : ∀ id args, ¬ lib.takes args → L.call id ns fname args = .throw

/-- The library script is read and runs to its end, and every function is reachable. -/
def Exported (E : Engine) (libs : Libs) : Prop :=
  ∃ calls, libScript (exportsLibsCode libs) = some calls ∧ (load E calls).thrown = false ∧
    ∀ ns fname lib, libs.get ns fname = some lib → Reaches libs (load E calls) ns fname lib

/-! ### When they do it -/

/-- What the object of a namespace has under a name at first. -/
def Engine.slot (E : Engine) (ns fname : String) : Slot :=
  match E.host ns with
  | none => ⟨fname ∈ objectPrototype, true⟩
  | some .number => ⟨false, false⟩
  | some (.object slots) => slots fname

/-- A function under its namespace and its name. -/
structure Entry where
  ns : String
  name : String
  lib : Lib

/-- The functions in the order of the two loops. -/
def Libs.entries (libs : Libs) : List Entry :=
  libs.table.flatMap fun e => e.2.map fun f => ⟨e.1, f.1, f.2⟩

/-- No function is put on a prototype. -/
def Libs.Ordinary (libs : Libs) : Prop :=
  ∀ ns fname lib, libs.get ns fname = some lib → ns ≠ "__proto__" ∧ fname ≠ "__proto__"

/-- A namespace that is written as it is: it is not empty, and has no quote, no backslash, no
line terminator and no U+0000. -/
structure Quotable (ns : String) : Prop where
  named : ns ≠ ""
  plain : Source.Plain (units ns.toList)
  noNul : '\u0000' ∉ ns.toList

/-- A function that can be called with the two arguments of the warning. -/
def Lib.TakesWarning (lib : Lib) : Prop := lib.ret = false ∧ (lib.argc < 0 ∨ lib.argc = 2)

/-- The namespace has a function `send` for the warning about a name, and it comes before. -/
def Libs.Warned (libs : Libs) (ns fname : String) : Prop :=
  ∃ before lib after send, libs.entries = before ++ ⟨ns, fname, lib⟩ :: after ∧
    ⟨ns, "send", send⟩ ∈ before ∧ send.TakesWarning

/-- The function is put on the object of its namespace, without an exception. -/
structure Engine.Puts (E : Engine) (libs : Libs) (ns fname : String) : Prop where
  writable : (E.slot ns fname).writable = true
  warned : (E.slot ns fname).truthy = true → libs.Warned ns fname

end ThreadJs.Exports
