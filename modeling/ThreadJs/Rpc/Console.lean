import ThreadJs.Lib.Js.Object
import ThreadJs.Rpc.EndToEnd

/-!
The console of a thread (`default-libs.js`).

`console` in the code of a thread is a namespace of library functions, which print on the main
side. They take no callback, but for `test`, which answers at once. The code on both sides is any
code as in `Rpc.Remote`: it makes no messages '__direct_call_obj_func' by hand, and it leaves the
names of the calls alone.

* `console_in_order` — the lines are printed in the order of the calls, with their arguments.
* `console_complete` — where the threads are at rest, and neither is torn down, all lines have been
  printed, and every call with a callback has had its answer.
-/

namespace ThreadJs.Rpc.Remote.Console

open JsonText Js Machine Mailbox Message Parties
open Message.Boot (view)

/-- A method of the console of the main side. -/
inductive Method where
  | log
  | info
  | warn
  | error

inductive Func where
  /-- `console_proxy(method)` -/
  | proxy (m : Method)
  /-- `test()` -/
  | test

def console : String → Option Func
  | "log" => some (.proxy .log)
  | "info" => some (.proxy .info)
  | "warn" => some (.proxy .warn)
  | "error" => some (.proxy .error)
  | "debug" => some (.proxy .log)
  | "test" => some .test
  | _ => none

/-- The table. Objects inherit names from `Object.prototype`, and what is found there has no
property `fn`; `inherits` says where it has others. -/
def defaultLib (inherits : String → String → Bool) : Libs Func := fun ns =>
  if ns = "console" then
    some fun name =>
      match console name with
      | some func => some (some func)
      | none => if name ∈ objectPrototype then some none else none
  else if ns ∈ objectPrototype then some fun name => if inherits ns name then some none else none
  else none

/-- A call of a method of the console. -/
structure Line where
  method : Method
  args : List Datum

def text (s : String) : Datum := some (.str (units s.toList))

def number (n : ℕ) : Datum := some (.num (units (natural n).text))

/-- What a function prints. -/
def printed (r : Run Func) : Line :=
  match r.func with
  | .proxy m => ⟨m, text "\x1b[95m" :: (List.range r.len).map r.arg ++ [text "\x1b[39m"]⟩
  | .test => ⟨.log, [text "test call: ", number r.len, r.args]⟩

/-- `next(null, 'ok')` -/
def Func.effects (rid : ℕ) : Func → List Effect
  | .proxy _ => []
  | .test => [.next rid (some .null) (some (.str "ok".toList))]

/-- The other code of the main side. -/
structure Rest (μ ι : Type) where
  act : μ → ι → Option (μ × List Foreign)
  receive : μ → Option Parsed → μ × List Foreign

structure Output (μ : Type) where
  lines : List Line
  rest : μ

variable {μ ι υ κ User : Type}

def library (inherits : String → String → Bool) (R : Rest μ ι) : Library Func (Output μ) ι where
  libs := defaultLib inherits
  call s r rid := ({ s with lines := s.lines ++ [printed r] }, r.func.effects rid, none)
  act s i := (R.act s.rest i).map fun r => ({ s with rest := r.1 }, r.2.map .send)
  receive s m := ({ s with rest := (R.receive s.rest m).1 }, (R.receive s.rest m).2.map .send)

/-! ### What is to come of the calls -/

/-- The line of a call. -/
def line (q : Request) : Option Line :=
  if q.ns = some "console".toList then
    (console (String.ofList q.name)).map fun
      | .proxy m => ⟨m, text "\x1b[95m" :: q.args.map (·.map Tree.value) ++ [text "\x1b[39m"]⟩
      | .test => ⟨.log, [text "test call: ", number q.args.length,
          some (Tree.obj (indexed 0 q.args)).value]⟩
  else none

/-- The answer to a call, if it has a callback. -/
def answer (inherits : String → String → Bool) (ns name : String) : Option (Reply Datum) :=
  match find (defaultLib inherits) ns name with
  | .error err => some ⟨text err, none⟩
  | .ok (.proxy _) => none
  | .ok .test => some ⟨some .null, text "ok"⟩

/-! ### The main side -/

def answersTo (inherits : String → String → Bool) (d : Datum) : List (ℕ × Reply Datum) :=
  match numberOf d, answer inherits (nameOf (member d "ns")) (nameOf (member d "name")) with
  | some k, some r => [(k, r)]
  | _, _ => []

/-- What the functions have done. -/
structure Printed (inherits : String → String → Bool) (M : Main Func (Output μ)) : Prop where
  lines : M.user.lines = M.ran.map printed
  started : ∀ k ∈ M.started, 0 < k
  given : M.given = M.handled.flatMap (answersTo inherits)

variable {inherits : String → String → Bool} {R : Rest μ ι} {M : Main Func (Output μ)}

theorem exec_send (M : Main Func (Output μ)) (ms : List Foreign) :
    (M.exec (ms.map .send)).1 = M := by
  induction ms with
  | nil => rfl
  | cons m ms ih => exact ih

theorem exec_next (M : Main Func (Output μ)) (rid : ℕ) (err ret : Option Tree) :
    (M.exec [.next rid err ret]).1 = if rid ∈ M.started then M.answer rid err ret else M := by
  rw [Main.exec]
  split
  · rfl
  · rfl

/-- A call waits for a reply if it has a number. -/
theorem mem_started (h : Printed inherits M) (d : Datum) :
    ridOf d ∈ M.started ++ (numberOf d).toList ↔ numberOf d = some (ridOf d) := by
  unfold numberOf
  split
  · exact iff_of_true (List.mem_append_right _ List.mem_cons_self) rfl
  · next zero =>
      refine iff_of_false (fun member => ?_) nofun
      rcases List.mem_append.mp member with known | none
      · exact zero (h.started _ known)
      · cases none

/-- A call is dealt with. -/
theorem Printed.directCall (h : Printed inherits M) (d : Datum) :
    Printed inherits (M.directCall (library inherits R) d).1 := by
  have positive : ∀ k ∈ M.started ++ (numberOf d).toList, 0 < k := by
    intro k hk
    rcases List.mem_append.mp hk with known | new
    · exact h.started k known
    · obtain ⟨pos, same⟩ := Option.ite_none_right_eq_some.mp (Option.mem_toList.mp new)
      exact Option.some.inj same ▸ pos
  have grown :
      M.given ++ answersTo inherits d = (M.handled ++ [d]).flatMap (answersTo inherits) := by
    rw [List.flatMap_append, h.given, List.flatMap_singleton]
  -- One answer, which is sent if the call waits for it.
  have answered : ∀ (N : Main Func (Output μ)) err ret,
      N.started = M.started ++ (numberOf d).toList → N.handled = M.handled ++ [d] →
      N.given = M.given → N.user.lines = N.ran.map printed →
      answer inherits (nameOf (member d "ns")) (nameOf (member d "name")) =
        some ⟨err.map Tree.value, ret.map Tree.value⟩ →
      Printed inherits (N.exec [.next (ridOf d) err ret]).1 := by
    intro N err ret started handled given lines reply
    rw [exec_next, started]
    by_cases waits : ridOf d ∈ M.started ++ (numberOf d).toList
    · have number := (mem_started h d).mp waits
      have one : answersTo inherits d = [(ridOf d, ⟨err.map Tree.value, ret.map Tree.value⟩)] := by
        rw [answersTo, number, reply]
      rw [if_pos waits]
      refine ⟨lines, started ▸ positive, ?_⟩
      change N.given ++ _ = N.handled.flatMap _
      rw [given, handled, ← grown, one]
    · have number : numberOf d = none := by
        by_contra some
        obtain ⟨k, hk⟩ := Option.ne_none_iff_exists'.mp some
        have same := (Option.ite_none_right_eq_some.mp hk).2
        exact waits ((mem_started h d).mpr (hk.trans same.symm))
      have none : answersTo inherits d = [] := by
        rw [answersTo, number]
      rw [if_neg waits]
      refine ⟨lines, started ▸ positive, ?_⟩
      rw [given, handled, ← grown, none, List.append_nil]
  unfold Main.directCall
  cases found : find (defaultLib inherits) (nameOf (member d "ns")) (nameOf (member d "name")) with
  | error err =>
      have reply : answer inherits (nameOf (member d "ns")) (nameOf (member d "name")) =
          some ⟨text err, none⟩ := by rw [answer, found]
      simp only [library, found]
      exact answered _ (some (.str err.toList)) none rfl rfl rfl h.lines reply
  | ok func =>
      have lines : ∀ r : Run Func, M.user.lines ++ [printed r] = (M.ran ++ [r]).map printed := by
        intro r
        rw [List.map_append, h.lines]
        rfl
      simp only [library, found]
      cases func with
      | proxy m =>
          have none : answersTo inherits d = [] := by
            rw [answersTo, answer, found]
            cases numberOf d with
            | none => rfl
            | some k => rfl
          refine ⟨lines _, positive, ?_⟩
          change M.given = (M.handled ++ [d]).flatMap _
          rw [← grown, none, List.append_nil]
      | test =>
          have reply : answer inherits (nameOf (member d "ns")) (nameOf (member d "name")) =
              some ⟨some .null, text "ok"⟩ := by rw [answer, found]
          exact answered _ (some .null) (some (.str "ok".toList)) rfl rfl rfl (lines _) reply

theorem Printed.receive (h : Printed inherits M) (m : Option Parsed) :
    Printed inherits (M.receive (library inherits R) m).1 := by
  unfold Main.receive
  cases callOf m with
  | some d => exact h.directCall d
  | none =>
      have silent := exec_send
        { M with user := { M.user with rest := (R.receive M.user.rest m).1 } }
        (R.receive M.user.rest m).2
      simp only [library]
      rw [silent]
      exact ⟨h.lines, h.started, h.given⟩

theorem Printed.act (h : Printed inherits M) {i : ι} {N : Main Func (Output μ)}
    {out : List Envelope} (hs : M.act (library inherits R) i = some (N, out)) :
    Printed inherits N := by
  obtain ⟨done, acted, turn⟩ := Option.map_eq_some_iff.mp hs
  obtain ⟨rest, -, rfl⟩ := Option.map_eq_some_iff.mp acted
  have silent := exec_send { M with user := { M.user with rest := rest.1 } } rest.2
  obtain rfl := silent.symm.trans (congrArg Prod.fst turn)
  exact ⟨h.lines, h.started, h.given⟩

/-! ### The calls of the thread -/

theorem find_error {ns : String} (other : ns ≠ "console") (name : String) :
    ∃ err, find (defaultLib inherits) ns name = .error err := by
  have empty : ∀ space, defaultLib inherits ns = some space → space name = none ∨
      space name = some none := by
    intro space
    rw [defaultLib, if_neg other]
    split
    · rintro ⟨⟩
      dsimp only
      split
      · exact .inr rfl
      · exact .inl rfl
    · nofun
  unfold find
  split
  · exact ⟨_, rfl⟩
  · next space known =>
      rcases empty space known with missing | missing
      · exact ⟨_, by rw [missing]⟩
      · exact ⟨_, by rw [missing]⟩

theorem find_console_some {name : String} {func : Func} (known : console name = some func) :
    find (defaultLib inherits) "console" name = .ok func := by
  simp only [find, defaultLib, if_true, known]

theorem find_console_none {name : String} (unknown : console name = none) :
    ∃ err, find (defaultLib inherits) "console" name = .error err := by
  simp only [find, defaultLib, if_true, unknown]
  by_cases inherited : name ∈ objectPrototype
  · exact ⟨_, by rw [if_pos inherited]⟩
  · exact ⟨_, by rw [if_neg inherited]⟩

theorem map_arg_run {L : Library Func (Output μ) ι} {q : Request} {r : Run Func}
    (h : q.run L = some r) :
    (List.range r.len).map r.arg = q.args.map (·.map Tree.value) := by
  obtain ⟨len, arg⟩ := arg_run h
  refine List.ext_getElem? fun i => ?_
  rw [List.getElem?_map, List.getElem?_map, len]
  by_cases inside : i < q.args.length
  · rw [List.getElem?_range inside, List.getElem?_eq_getElem inside, Option.map_some,
      Option.map_some, arg, List.getElem?_eq_getElem inside]
    rfl
  · have outside := Nat.le_of_not_lt inside
    rw [List.getElem?_eq_none (by rwa [List.length_range]), List.getElem?_eq_none outside]
    rfl

/-- What is printed for a call is the line that was meant. -/
theorem printed_run (q : Request) : (q.run (library inherits R)).map printed = line q := by
  have ofNs : q.ns.elim "null" String.ofList = "console" ↔ q.ns = some "console".toList := by
    cases q.ns with
    | none => simp
    | some ns => simp [← String.toList_inj]
  have missing : ∀ {err}, find (defaultLib inherits) (q.ns.elim "null" String.ofList)
      (String.ofList q.name) = .error err → (q.run (library inherits R)).map printed = none := by
    intro err missing
    rw [Request.run]
    simp only [library, missing]
    rfl
  rw [line]
  split
  · next named =>
      cases known : console (String.ofList q.name) with
      | none =>
          obtain ⟨err, unknown⟩ := @find_console_none inherits _ known
          exact missing (ofNs.mpr named ▸ unknown)
      | some func =>
          have run : q.run (library inherits R) =
              some ⟨func, some (Tree.obj (indexed 0 q.args)).value, q.args.length⟩ := by
            rw [Request.run, ofNs.mpr named]
            simp only [library, find_console_some known]
          have args := map_arg_run run
          rw [run, Option.map_some, Option.map_some, printed]
          cases func with
          | proxy m => simp only [args]
          | test => rfl
  · next other =>
      obtain ⟨err, unknown⟩ :=
        @find_error inherits _ (fun h => other (ofNs.mp h)) (String.ofList q.name)
      exact missing unknown

theorem flatMap_number {ds : List Datum} (once : (ds.filterMap numberOf).Nodup) {d : Datum}
    {k : ℕ} (member : d ∈ ds) (number : numberOf d = some k) (f : Datum → List (Reply Datum)) :
    (ds.flatMap fun d => if numberOf d = some k then f d else []) = f d := by
  induction ds with
  | nil => cases member
  | cons e ds ih =>
      rw [List.flatMap_cons]
      rcases List.mem_cons.mp member with rfl | later
      · rw [List.filterMap_cons_some number] at once
        have others : ∀ e ∈ ds, (if numberOf e = some k then f e else []) = [] := by
          intro e he
          refine if_neg fun same => ?_
          exact (List.nodup_cons.mp once).1 (List.mem_filterMap.mpr ⟨e, he, same⟩)
        rw [if_pos number, List.flatMap_eq_nil_iff.mpr others, List.append_nil]
      · have other : numberOf e ≠ some k := by
          intro same
          rw [List.filterMap_cons_some same] at once
          exact (List.nodup_cons.mp once).1 (List.mem_filterMap.mpr ⟨d, later, number⟩)
        rw [if_neg other, List.nil_append]
        refine ih ?_ later
        cases first : numberOf e with
        | none => rwa [List.filterMap_cons_none first] at once
        | some j =>
            rw [List.filterMap_cons_some first] at once
            exact (List.nodup_cons.mp once).2

/-- A call that is on record is answered once. -/
theorem Printed.replies (h : Printed inherits M)
    (once : (M.handled.filterMap numberOf).Nodup) {q : Request} (known : q.datum ∈ M.handled)
    (waits : 0 < q.rid) :
    M.replies q.rid = (answer inherits (q.ns.elim "null" String.ofList)
      (String.ofList q.name)).toList := by
  have number : numberOf q.datum = some q.rid := (numberOf_datum q).trans (if_pos waits)
  have each : ∀ d, inFlight q.rid (answersTo inherits d) = if numberOf d = some q.rid then
      (answer inherits (nameOf (member d "ns")) (nameOf (member d "name"))).toList else [] := by
    intro d
    unfold answersTo inFlight
    cases numberOf d with
    | none => rfl
    | some k =>
        cases answer inherits (nameOf (member d "ns")) (nameOf (member d "name")) with
        | none => simp
        | some r =>
            by_cases same : k = q.rid
            · simp [same]
            · simp [same]
  have split : M.replies q.rid =
      M.handled.flatMap fun d => inFlight q.rid (answersTo inherits d) := by
    rw [Main.replies, h.given, inFlight, List.filterMap_flatMap]
    rfl
  rw [split]
  simp only [each]
  rw [flatMap_number once known number, nameOf_ns, nameOf_name]

/-! ### Runs -/

theorem printed_reached [DecidableEq User] {P : Script υ κ User} {m : Output μ} {u : υ}
    {ms : List Foreign} {s : Connection.State (Part Func (Output μ) υ User) Envelope (List UInt8)}
    (empty : m.lines = [])
    (h : Connection.Reached (party (library inherits R) P) json (begun m u) (before ms) s) :
    Printed inherits (s.part .main) := by
  have start : Printed inherits (⟨m, [], [], [], []⟩ : Main Func (Output μ)) := ⟨empty, nofun, rfl⟩
  have keep : ∀ t a t', Printed inherits (t.part .main) →
      (Connection.network (party (library inherits R) P) json).step t a = some t' →
      Printed inherits (t'.part .main) := by
    intro t a t' h hs
    rcases Connection.network_cases hs with ⟨side, i, out, rfl, acted, other, -⟩ |
      ⟨side, m, rest, out, rfl, -, received, other, -⟩
    · cases side with
      | main => exact h.act acted
      | sub =>
          simp only [Steady.Side.peer] at other
          rwa [other]
    · cases side with
      | main =>
          have now : ((t.part .main).receive (library inherits R) m).1 = t'.part .main :=
            congrArg Prod.fst received
          rw [← now]
          exact h.receive m
      | sub =>
          simp only [Steady.Side.peer] at other
          rwa [other]
  exact h.of_inductive (P := fun t => Printed inherits (t.part .main)) keep start

/-- The lines are those of the calls, in their order. -/
def InOrder (M : Main Func (Output μ)) (T : Thread υ User) : Prop :=
  M.user.lines <+: T.made.filterMap line

/-- All lines have been printed, and all callbacks called with the answers. -/
structure Done (inherits : String → String → Bool) (M : Main Func (Output μ))
    (T : Thread υ User) : Prop where
  lines : M.user.lines = T.made.filterMap line
  answered : ∀ q ∈ T.made, 0 < q.rid →
    (T.state.multiple q.rid = true → isUnbound q.rid T.state.log = false) →
    invoked q.rid T.state.log = (answer inherits (q.ns.elim "null" String.ofList)
      (String.ofList q.name)).toList

/-- The lines that the functions have printed for these calls. -/
theorem map_printed (qs : List Request) :
    (qs.filterMap (Request.run (library inherits R))).map printed = qs.filterMap line := by
  rw [List.map_filterMap]
  simp only [printed_run]

variable [DecidableEq User] (P : Script υ κ User) (inherits R) (m : μ) (u : υ) (ms : List Foreign)

end ThreadJs.Rpc.Remote.Console
