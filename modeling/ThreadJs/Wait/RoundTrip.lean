import ThreadJs.Lib.Json.Print
import ThreadJs.Lib.Utf8
import ThreadJs.Wait.Pairing

/-!
The data of `th.notify` and the result of `thread.wait` (`lib/main-warp.js`, `main.cc`,
`lib/context.js`).

A value passes a test for truth, `JSON.stringify`, a test for a string in C++, the slot
`WaitThread::data`, a second test for a string and `JSON.parse`. `round_trip_iff` says which
values come back over the runs of the two threads.
-/

namespace ThreadJs.Wait

open JsonText Utf8 Machine

/-- A numeral denotes zero: no digit before the exponent is another one. -/
def isZero (n : Numeral) : Bool :=
  (n.text.takeWhile fun c => c != 'e' && c != 'E').all fun c => !('1' ≤ c && c ≤ '9')

/-- `if (msg)`. -/
def truthy : Tree → Bool
  | .null => false
  | .bool b => b
  | .num n => !isZero n
  | .str s => !s.isEmpty
  | .arr _ | .obj _ => true

/-- `ret.notify`: the argument of `_notify` if it is a string; `none` as an argument is
undefined. -/
def notifyArg : Option Tree → Option String
  | none => none
  | some d =>
      if truthy d then some (String.ofList (print d))
      else match d with
        | .str s => some (String.ofList s)
        | _ => none

/-- `j_notify`: what is put into `WaitThread::data`. -/
def jNotify (msg : Option Tree) : Option (List UInt8) :=
  (notifyArg msg).map fun s => encode s ++ [0]

/-- What `_wait` returns: a string, or `none` for `true`. -/
def jWait (data : Option (List UInt8)) : Option String :=
  data.map fun bytes => decode (untilNul bytes)

/-- `wait`; `none` is the exception of `JSON.parse`. -/
def waitResult (data : Option (List UInt8)) : Option Value :=
  match jWait data with
  | some ret => parse (units ret.toList)
  | none => some (.bool true)

/-- What `wait` is to give for a notification. -/
structure Returns (msg : Option Tree) (result : Option Value) : Prop where
  noThrow : result ≠ none
  equal : ∀ d, msg = some d → result = some d.value
  trueExactly : result = some (.bool true) ↔ msg = none ∨ msg = some (.bool true)

/-! ### One notification -/

/-- A string without U+0000 comes through `WaitThread::data`. -/
theorem jWait_encode {s : List Char} (noNul : '\x00' ∉ s) :
    jWait (some (encode (String.ofList s) ++ [0])) = some (String.ofList s) := by
  have plain : '\x00' ∉ (String.ofList s).toList := by rwa [String.toList_ofList]
  rw [jWait, Option.map_some, decode_untilNul, cut_eq_self plain]

theorem waitResult_of_truthy {d : Tree} (h : truthy d = true) :
    waitResult (jNotify (some d)) = some d.value := by
  have given : jNotify (some d) = some (encode (String.ofList (print d)) ++ [0]) := by
    simp [jNotify, notifyArg, h]
  rw [given, waitResult, jWait_encode (nul_notMem_print d)]
  dsimp only
  rw [String.toList_ofList, parse_print]

/-- A value that counts as false comes back as `true`, or `wait` throws. -/
theorem waitResult_of_falsy {d : Tree} (h : truthy d = false) :
    waitResult (jNotify (some d)) ≠ some d.value := by
  cases d with
  | null => simp [jNotify, notifyArg, h, waitResult, jWait, Tree.value]
  | bool b =>
      cases b with
      | true => cases h
      | false => simp [jNotify, notifyArg, h, waitResult, jWait, Tree.value]
  | num n => simp [jNotify, notifyArg, h, waitResult, jWait, Tree.value]
  | str s =>
      have empty : s = [] := by simpa [truthy] using h
      subst empty
      intro back
      cases back
  | arr ts => cases h
  | obj ms => cases h

theorem value_eq_true {d : Tree} : d.value = .bool true ↔ d = .bool true := by
  cases d with
  | bool b => simp [Tree.value]
  | null | num | str | arr | obj => simp [Tree.value]

theorem returns_iff (msg : Option Tree) :
    Returns msg (waitResult (jNotify msg)) ↔ ∀ d, msg = some d → truthy d = true := by
  cases msg with
  | none =>
      refine iff_of_true ⟨?_, by simp, ?_⟩ (by simp)
      · intro none
        cases none
      · exact iff_of_true rfl (.inl rfl)
  | some d =>
      constructor
      · intro returns d' given
        obtain rfl := Option.some.inj given
        by_contra falsy
        exact waitResult_of_falsy (Bool.eq_false_iff.mpr falsy) (returns.equal d rfl)
      · intro true_
        rw [waitResult_of_truthy (true_ d rfl)]
        refine ⟨by simp, fun d' given => ?_, by simp [value_eq_true]⟩
        rw [Option.some.inj given]

/-! ### The runs -/

/-- A wait that has returned has what its notification has put in. -/
theorem Round.notified_of_returned {Data : Type} {s : State Data} (h : Round s) {k : Nat}
    {r : Option Data} (returned : s.returned[k]? = some r) : s.notified[k]? = some r := by
  have inside := (List.getElem?_eq_some_iff.mp returned).1
  cases h with
  | free _ _ _ _ inStep | held _ _ _ _ inStep | releasing _ _ _ _ _ inStep => rwa [inStep]
  | released _ _ _ _ _ inStep => rwa [inStep, List.getElem?_append_left inside]

/-- **A notification's data come back from the wait that it releases exactly if they count as
true**: in every run, if the `k`-th notification to release a wait was made with `msg`, the
`k`-th wait gives `msg` if `msg` is truthy or left out, and otherwise something else. -/
theorem round_trip_iff {as : List (Action (List UInt8))} {s : State (List UInt8)}
    (reached : run (step .exact) init as = some s) {k : Nat} {msg : Option Tree}
    (notified : s.notified[k]? = some (jNotify msg)) {r : Option (List UInt8)}
    (returned : s.returned[k]? = some r) :
    Returns msg (waitResult r) ↔ ∀ d, msg = some d → truthy d = true := by
  have rounds : Always (step .exact) Round init as :=
    Always.of_inductive (fun _ _ _ h hs => h.step hs) round_init as
  have same := (rounds.last reached).notified_of_returned returned
  rw [notified] at same
  obtain rfl := Option.some.inj same
  exact returns_iff msg

/-- A wait and the notification that releases it. -/
def oneRound (arg : Option (List UInt8)) : List (Action (List UInt8)) :=
  [.wait, .sendEvent, .lock, .condWait, .receive, .notify arg] ++
    (if arg.isSome then [.setData] else []) ++ [.unlock, .broadcast, .reacquire, .getData]

theorem round_trip_iff_example :
    Returns (some (.bool true)) (waitResult (some [116, 114, 117, 101, 0])) ↔
      ∀ d, some (.bool true) = some d → truthy d = true :=
  @round_trip_iff (oneRound (some [116, 114, 117, 101, 0]))
    { (init : State (List UInt8)) with
      returned := [some [116, 114, 117, 101, 0]]
      notified := [some [116, 114, 117, 101, 0]] }
    rfl 0 (some (.bool true)) rfl _ rfl

/-- The empty string makes `wait` throw, and `false` comes back as `true`. -/
theorem falsy_not_returned : ∃ s t : State (List UInt8),
    run (step .exact) init (oneRound (jNotify (some (.str [])))) = some s ∧
    s.notified = [jNotify (some (.str []))] ∧ s.returned = s.notified ∧
    ¬ Returns (some (.str [])) (waitResult (jNotify (some (.str [])))) ∧
    run (step .exact) init (oneRound (jNotify (some (.bool false)))) = some t ∧
    t.notified = [jNotify (some (.bool false))] ∧ t.returned = t.notified ∧
    ¬ Returns (some (.bool false)) (waitResult (jNotify (some (.bool false)))) := by
  refine ⟨_, _, rfl, rfl, rfl, fun returns => returns.noThrow rfl, rfl, rfl, rfl, fun returns => ?_⟩
  cases returns.equal _ rfl

end ThreadJs.Wait
