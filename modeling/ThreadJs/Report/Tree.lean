import ThreadJs.Lib.Json.Print
import ThreadJs.Report.ErrorEvent
import ThreadJs.Script.DoScript

/-!
Trees of nested objects, written attribute by attribute with `childen`, `set` and `end`.

What an attribute appends depends on its object only through the number of attributes
before it, and the child that `childen` returns starts again from none.

* `run_emit`, `run_emitAll` — what is appended, and that each level counts its own.
* `emitted_eq_print` — the text is the one that `JSON.stringify` makes of the tree.
* `parse_emitted` — and the peer reads the tree from it.
* `emitsError_failureReport` — the report of the handler of `do_script` is such a text.
-/

namespace ThreadJs.Report

open JsonText

/-! ### Trees -/

/-- A text that needs no escape. -/
structure PlainText where
  chars : Text
  plain : ∀ c ∈ chars, ¬ SpecialChar c

/-- The value of an attribute: a scalar, or an object with attributes of its own. -/
inductive Tree where
  | scalar (v : PlainText)
  | object (attrs : List (PlainText × Tree))

mutual

/-- The value that a reader should find. -/
def Tree.value : Tree → Value
  | .scalar v => .str (units v.chars)
  | .object attrs => .obj (attrValues attrs)

def attrValues : List (PlainText × Tree) → List (Key × Value)
  | [] => []
  | (k, t) :: attrs => (units k.chars, t.value) :: attrValues attrs

end

mutual

/-- One attribute of `j`. A child is written whole before `j` goes on. -/
def Tree.emit (j : Json) (k : PlainText) : Tree → Stream Json
  | .scalar v => j.set k.chars v.chars
  | .object attrs => do
      let (j, child) ← j.childen k.chars
      let child ← emitAll child attrs
      let _ ← child.end'
      return j

/-- The attributes of `j`, in order. -/
def emitAll (j : Json) : List (PlainText × Tree) → Stream Json
  | [] => return j
  | (k, t) :: attrs => do
      let j ← t.emit j k
      emitAll j attrs

end

/-- The text of a root object. -/
def emitted (attrs : List (PlainText × Tree)) : Text :=
  let body : Stream Json := do
    let root ← Json.new
    let root ← emitAll root attrs
    root.end'
  (body.run []).2

/-! ### The tree as a value of JSON -/

mutual

def Tree.toJson : Tree → JsonText.Tree
  | .scalar v => .str v.chars
  | .object attrs => .obj (attrsToJson attrs)

def attrsToJson : List (PlainText × Tree) → List (Text × JsonText.Tree)
  | [] => []
  | (k, t) :: attrs => (k.chars, t.toJson) :: attrsToJson attrs

end

mutual

theorem value_toJson : ∀ t : Tree, t.toJson.value = t.value
  | .scalar _ => rfl
  | .object attrs => congrArg Value.obj (memberValues_attrsToJson attrs)

theorem memberValues_attrsToJson : ∀ attrs : List (PlainText × Tree),
    memberValues (attrsToJson attrs) = attrValues attrs
  | [] => rfl
  | (k, t) :: attrs => by
      rw [attrsToJson, memberValues, attrValues, value_toJson t, memberValues_attrsToJson attrs]

end

/-! ### What is appended -/

/-- What the attributes add to an object that has those of `j` already. -/
def attrsText (j : Json) : List (PlainText × Tree) → Text
  | [] => []
  | (k, t) :: attrs =>
      j.keyText k.chars ++ print t.toJson ++ attrsText ⟨j.attrCount + 1⟩ attrs

/-- Behind an attribute, each one comes with its comma. -/
theorem attrsText_append_close : ∀ (attrs : List (PlainText × Tree)) (j : Json),
    0 < j.attrCount → attrsText j attrs ++ ['\x7d'] = printMembers (attrsToJson attrs)
  | [], j, _ => rfl
  | (k, t) :: attrs, j, some_ => by
      have rest := attrsText_append_close attrs ⟨j.attrCount + 1⟩ (Nat.succ_pos _)
      rw [attrsText, attrsToJson, printMembers, ← rest, quote_of_plain k.plain, Json.keyText,
        if_pos some_]
      simp only [List.append_assoc, List.cons_append, List.nil_append]

/-- In a new object, the first comes without. -/
theorem attrsText_new (attrs : List (PlainText × Tree)) :
    '\x7b' :: attrsText ⟨0⟩ attrs ++ ['\x7d'] = print (Tree.object attrs).toJson := by
  cases attrs with
  | nil => rfl
  | cons attr attrs =>
      obtain ⟨k, t⟩ := attr
      have rest := attrsText_append_close attrs ⟨1⟩ Nat.one_pos
      rw [attrsText, Tree.toJson, attrsToJson, print, ← rest, quote_of_plain k.plain,
        Json.keyText, if_neg (Nat.lt_irrefl 0)]
      simp only [List.append_assoc, List.cons_append, List.nil_append]

mutual

/-- The counter of a child does not come back to its parent. -/
theorem run_emit : ∀ (t : Tree) (j : Json) (k : PlainText) (s : Text),
    (t.emit j k).run s = (⟨j.attrCount + 1⟩, s ++ j.keyText k.chars ++ print t.toJson)
  | .scalar v, j, k, s => by
      rw [Tree.emit, Json.run_set, Tree.toJson, print, quote_of_plain v.plain]
  | .object attrs, j, k, s => by
      rw [Tree.emit, Stream.run_bind, Json.run_childen, Stream.run_bind, run_emitAll attrs,
        Stream.run_bind, Json.run_end', ← attrsText_new attrs]
      have closed : s ++ j.keyText k.chars ++ ['\x7b'] ++ attrsText ⟨0⟩ attrs ++ ['\x7d'] =
          s ++ j.keyText k.chars ++ ('\x7b' :: attrsText ⟨0⟩ attrs ++ ['\x7d']) := by
        simp only [List.append_assoc, List.cons_append, List.nil_append]
      exact congrArg _ closed

theorem run_emitAll : ∀ (attrs : List (PlainText × Tree)) (j : Json) (s : Text),
    (emitAll j attrs).run s = (⟨j.attrCount + attrs.length⟩, s ++ attrsText j attrs)
  | [], j, s => by
      rw [attrsText, List.append_nil]
      rfl
  | (k, t) :: attrs, j, s => by
      rw [emitAll, Stream.run_bind, run_emit t, run_emitAll attrs, attrsText, List.length_cons]
      simp only [List.append_assoc, Nat.add_assoc, Nat.add_comm 1]

end

/-! ### Reading it back -/

theorem emitted_eq_print (attrs : List (PlainText × Tree)) :
    emitted attrs = print (Tree.object attrs).toJson := by
  rw [emitted, Stream.run_bind, Json.run_new, Stream.run_bind, run_emitAll, Json.run_end',
    ← attrsText_new attrs]
  rfl

/-- **A tree that is emitted depth-first is read back as it was**, with its nesting and its
keys in order, wherever the children stand between the scalars. -/
theorem parse_emitted (attrs : List (PlainText × Tree)) :
    parse (units (emitted attrs)) = some (Tree.object attrs).value := by
  rw [emitted_eq_print, parse_print, value_toJson]

/-! ### The report of `do_script` -/

/-- What the handler at the end of `do_script` sends, `code` being the last step. -/
def failureReport (code : Nat) : Text :=
  let body : Stream Json := do
    let root ← Json.new
    let root ← root.set "name".toList "error".toList
    let (root, data) ← root.childen "data".toList
    let data ← data.set "name".toList "Error".toList
    let data ← data.set "code".toList (decimal code)
    let data ← data.set "message".toList (Script.failureMessage code).toList
    let _ ← data.end'
    root.end'
  (body.run []).2

theorem failureMessage_plain (code : Nat) :
    ∀ c ∈ (Script.failureMessage code).toList, ¬ SpecialChar c := by
  have front : Plain (units "Error: cannot create thread".toList) := by decide
  unfold Script.failureMessage
  rw [String.toList_append]
  refine List.forall_mem_append.mpr ⟨plain_units.mp front, plain_units.mp ?_⟩
  split <;> decide

/-- A text of the source that can be seen to need no escape. -/
def PlainText.ofUnits (s : Text) (plain : Plain (units s) := by decide) : PlainText :=
  ⟨s, plain_units.mp plain⟩

/-- The attributes that the handler writes. -/
def failureAttrs (code : Nat) : List (PlainText × Tree) :=
  [(.ofUnits "name".toList, .scalar (.ofUnits "error".toList)),
    (.ofUnits "data".toList, .object [
      (.ofUnits "name".toList, .scalar (.ofUnits "Error".toList)),
      (.ofUnits "code".toList, .scalar ⟨decimal code, fun _ => decimal_plain⟩),
      (.ofUnits "message".toList,
        .scalar ⟨(Script.failureMessage code).toList, failureMessage_plain code⟩)])]

theorem failureReport_eq_emitted (code : Nat) :
    failureReport code = emitted (failureAttrs code) := rfl

theorem parse_failureReport (code : Nat) :
    parse (units (failureReport code)) = some (Tree.object (failureAttrs code)).value := by
  rw [failureReport_eq_emitted, emitted_eq_print, parse_print, value_toJson]

/-- **A thread that cannot be created is reported by the event `error`**, whatever types the
peer knows. -/
theorem emitsError_failureReport (code : Nat)
    (typeConstructor : Option Value → Option (Option Value → Option Value)) :
    EmitsError typeConstructor (units (failureReport code)) := by
  unfold EmitsError recv
  rw [parse_failureReport]
  rfl

end ThreadJs.Report
