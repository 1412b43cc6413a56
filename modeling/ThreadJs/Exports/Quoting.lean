import ThreadJs.Exports.Script

/-!
The text of the library script (`exports_libs_code` of `main-warp.js`), for names that are any
strings and `argc` any number.

The names stand between quotes as they are. The text is the program of the calls that the table
asks for exactly if no name has a quote, a backslash or a line terminator, and no namespace is
empty, as that is written as `null` (`program_iff_plain`).
-/

namespace ThreadJs.Exports.Quoting

open Js.Source
open JsonText (integerText isNumber_integerText units Numeral)

/-- A number. A finite one is known by the numeral that `Number.prototype.toString` gives. -/
inductive Argc where
  | nan
  | infinity (negative : Bool)
  | finite (n : Numeral)

def Argc.isNaN : Argc → Bool
  | .nan => true
  | _ => false

/-- What `join` makes of the number. -/
def Argc.text : Argc → List UInt16
  | .nan => units "NaN".toList
  | .infinity false => units "Infinity".toList
  | .infinity true => units "-Infinity".toList
  | .finite n => units n.text

structure Lib where
  argc : Argc
  ret : Js.Value
  mult : Js.Value

/-- A function under its namespace and its name. -/
structure Entry where
  ns : List UInt16
  name : List UInt16
  lib : Lib

/-- `libs` in the order of `for (… in …)`. -/
abbrev Libs := List (List UInt16 × List (List UInt16 × Lib))

/-- The functions in the order of the two loops. -/
def entries (libs : Libs) : List Entry := libs.flatMap fun e => e.2.map fun f => ⟨e.1, f.1, f.2⟩

/-- `__createFunctionProxy` -/
def callee : List UInt16 := units "__createFunctionProxy".toList

def booleanText (b : Bool) : List UInt16 := units (if b then "true" else "false").toList

/-- What the body of the inner loop pushes. -/
def exportCode (e : Entry) : Except String (List UInt16) :=
  if e.lib.argc.isNaN then .error "argc must number"
  else .ok (callee ++ [0x28] ++
    (if e.ns = [] then units "null".toList else [0x22] ++ e.ns ++ [0x22]) ++
    [0x2C, 0x22] ++ e.name ++ [0x22, 0x2C] ++
    e.lib.argc.text ++ [0x2C] ++
    booleanText e.lib.ret.isTruthy ++ [0x2C] ++
    booleanText e.lib.mult.isTruthy ++ [0x29, 0x3B, 0x0A])

def exportsLibsCode (libs : Libs) : Except String (List UInt16) := do
  let codes ← (entries libs).mapM exportCode
  return [0x0A, 0x0A] ++ codes.flatten ++ [0x0A, 0x0A]

/-! ### What the text is for -/

def Argc.literal : Argc → Literal
  | .nan => .nan
  | .infinity negative => .infinity negative
  | .finite n => .number (units n.text)

/-- The call that the table asks for. -/
def Entry.call (e : Entry) : Call where
  callee := callee
  args := [.string e.ns, .string e.name, e.lib.argc.literal, .boolean e.lib.ret.isTruthy,
    .boolean e.lib.mult.isTruthy]

/-- The call that is written, with `null` for the empty namespace. -/
def Entry.written (e : Entry) : Call where
  callee := callee
  args := [if e.ns = [] then .null else .string e.ns, .string e.name, e.lib.argc.literal,
    .boolean e.lib.ret.isTruthy, .boolean e.lib.mult.isTruthy]

/-- Both names can stand between quotes, and the namespace is named. -/
structure Entry.Plain (e : Entry) : Prop where
  named : e.ns ≠ []
  ns : Js.Source.Plain e.ns
  name : Js.Source.Plain e.name

/-! ### Words -/

theorem isWordUnit_of_isNumberUnit {u : UInt16} (h : JsonText.isNumberUnit u = true) :
    isWordUnit u = true := by
  simp only [JsonText.isNumberUnit, JsonText.isDigit, Bool.or_eq_true, Bool.and_eq_true,
    beq_iff_eq] at h
  simp only [isWordUnit, isNameUnit, Bool.or_eq_true, Bool.and_eq_true, beq_iff_eq]
  rcases h with ((((digit | rfl) | rfl) | rfl) | rfl) | rfl
  · simp [digit]
  all_goals decide

/-- A word is a plain text. -/
theorem plain_of_word {w : List UInt16} (word : w.all isWordUnit = true) : Js.Source.Plain w := by
  intro u hu special
  have isWord := List.all_eq_true.mp word u hu
  rcases special with rfl | rfl | newLine
  · cases isWord
  · cases isWord
  · simp only [isLineTerminator, Bool.or_eq_true, beq_iff_eq] at newLine
    rcases newLine with ((rfl | rfl) | rfl) | rfl <;> cases isWord

theorem argc_word (a : Argc) : a.text ≠ [] ∧ a.text.all isWordUnit = true := by
  cases a with
  | nan => exact ⟨by decide, by decide⟩
  | infinity negative => cases negative <;> exact ⟨by decide, by decide⟩
  | finite n =>
      constructor
      · intro empty
        have valid := n.valid
        rw [Argc.text] at empty
        rw [empty] at valid
        cases valid
      · exact List.all_eq_true.mpr fun u hu =>
          isWordUnit_of_isNumberUnit (JsonText.isNumberUnit_of_isNumber n.valid u hu)

theorem argc_literal (a : Argc) : wordLiteral a.text = some a.literal := by
  cases a with
  | nan => rfl
  | infinity negative => cases negative <;> rfl
  | finite n =>
      have other : ∀ w, JsonText.isNumber w = false → units n.text ≠ w := by
        rintro w notNumber rfl
        rw [n.valid] at notNumber
        cases notNumber
      rw [Argc.text, wordLiteral, if_neg (other _ rfl), if_neg (other _ rfl), if_neg (other _ rfl),
        if_neg (other _ rfl), if_neg (other _ rfl), if_neg (other _ rfl), if_pos n.valid]
      rfl

theorem boolean_word (b : Bool) :
    booleanText b ≠ [] ∧ (booleanText b).all isWordUnit = true ∧
      wordLiteral (booleanText b) = some (.boolean b) := by
  cases b with
  | true => exact ⟨by decide, by decide, rfl⟩
  | false => exact ⟨by decide, by decide, rfl⟩

/-! ### One call -/

/-- What stands behind the name. -/
def Entry.tail (e : Entry) : List UInt16 :=
  [0x2C] ++ e.lib.argc.text ++ [0x2C] ++ booleanText e.lib.ret.isTruthy ++ [0x2C] ++
    booleanText e.lib.mult.isTruthy ++ [0x29, 0x3B]

section Entry

variable {e : Entry} {done calls : List Call} {us : List UInt16}

/-- The text of a call as far as the first argument, and from the name on. -/
theorem exportCode_eq {code : List UInt16} (written : exportCode e = .ok code) (us : List UInt16) :
    code ++ us = callee ++ 0x28 :: ((if e.ns = [] then units "null".toList
      else 0x22 :: (e.ns ++ [0x22])) ++ 0x2C :: 0x22 :: (e.name ++ 0x22 ::
      (e.tail ++ 0x0A :: us))) := by
  rw [exportCode] at written
  split at written
  · cases written
  · obtain rfl := Except.ok.inj written
    simp [Entry.tail]

theorem tail_plain (e : Entry) : Js.Source.Plain e.tail := by
  have argc := plain_of_word (argc_word e.lib.argc).2
  have ret := plain_of_word (boolean_word e.lib.ret.isTruthy).2.1
  have mult := plain_of_word (boolean_word e.lib.mult.isTruthy).2.1
  have comma : ¬ Special 0x2C := by decide
  have close : ¬ Special 0x29 ∧ ¬ Special 0x3B := by decide
  intro u hu
  simp only [Entry.tail, List.mem_append, List.mem_cons, List.not_mem_nil, or_false] at hu
  rcases hu with ((((((rfl | hu) | rfl) | hu) | rfl) | hu) | rfl | rfl)
  · exact comma
  · exact argc u hu
  · exact comma
  · exact ret u hu
  · exact comma
  · exact mult u hu
  · exact close.1
  · exact close.2

theorem scan_callee (us : List UInt16) :
    scan (done, .start) (callee ++ 0x28 :: us) = scan (done, .first callee) us := by
  have word : callee.all isWordUnit = true := by decide
  have isCallee : isName callee = true := by decide
  rw [scan_word (by decide) word rfl]
  simp only [Place.step, if_pos isCallee, Option.bind_some]
  rw [scan_punctuator rfl]
  simp only [Place.step, if_true, Option.bind_some]

/-- A word that is an argument, with the comma or the parenthesis behind it. -/
theorem scan_argument {w : List UInt16} {l : Literal} {f : List UInt16} {args : List Literal}
    (nonempty : w ≠ []) (word : w.all isWordUnit = true) (value : wordLiteral w = some l)
    {u : UInt16}
    (ends : isWordUnit u = false) (us : List UInt16) :
    scan (done, .argument f args) (w ++ u :: us) =
      scan (done, .behind f (args ++ [l])) (u :: us) := by
  rw [scan_word nonempty word ends]
  simp only [Place.step, Token.literal, value, Option.map_some, Option.bind_some]

theorem scan_comma {f : List UInt16} {args : List Literal} (us : List UInt16) :
    scan (done, .behind f args) (0x2C :: us) = scan (done, .argument f args) us := by
  rw [scan_punctuator rfl]
  simp only [Place.step, if_true, Option.bind_some]

theorem scan_close {f : List UInt16} {args : List Literal} (us : List UInt16) :
    scan (done, .behind f args) (0x29 :: 0x3B :: us) = scan (done ++ [⟨f, args⟩], .start) us := by
  have notComma : Token.punctuator 0x29 ≠ .punctuator 0x2C := by decide
  rw [scan_punctuator rfl]
  simp only [Place.step, if_neg notComma, if_true, Option.bind_some]
  rw [scan_punctuator rfl]
  simp only [Place.step, if_true, Option.bind_some]

/-- The rest of the call is as the table has it. -/
theorem scan_tail {f : List UInt16} {args : List Literal} (e : Entry) (us : List UInt16) :
    scan (done, .behind f args) (e.tail ++ 0x0A :: us) =
      scan (done ++ [⟨f, args ++ [e.lib.argc.literal, .boolean e.lib.ret.isTruthy,
        .boolean e.lib.mult.isTruthy]⟩], .start) us := by
  obtain ⟨argcSome, argcWord⟩ := argc_word e.lib.argc
  obtain ⟨retSome, retWord, ret⟩ := boolean_word e.lib.ret.isTruthy
  obtain ⟨multSome, multWord, mult⟩ := boolean_word e.lib.mult.isTruthy
  have text : e.tail ++ 0x0A :: us = 0x2C :: (e.lib.argc.text ++ 0x2C ::
      (booleanText e.lib.ret.isTruthy ++ 0x2C :: (booleanText e.lib.mult.isTruthy ++
        0x29 :: 0x3B :: ([0x0A] ++ us)))) := by
    simp [Entry.tail]
  rw [text, scan_comma, scan_argument argcSome argcWord (argc_literal _) rfl, scan_comma,
    scan_argument retSome retWord ret rfl, scan_comma, scan_argument multSome multWord mult rfl,
    scan_close, scan_blank (by decide)]
  simp

theorem scan_first_string {f : List UInt16} (us : List UInt16) :
    scan (done, .first f) (0x22 :: us) =
      (literal us).bind fun l => scan (done, .behind f [.string l.1]) l.2 := by
  rw [scan_string]
  rfl

theorem scan_argument_string {f : List UInt16} {args : List Literal} (us : List UInt16) :
    scan (done, .argument f args) (0x22 :: us) =
      (literal us).bind fun l => scan (done, .behind f (args ++ [.string l.1])) l.2 := by
  rw [scan_string]
  rfl

theorem scan_first_null (us : List UInt16) :
    scan (done, .first callee) (units "null".toList ++ 0x2C :: us) =
      scan (done, .behind callee [.null]) (0x2C :: us) := by
  have null : Place.step (done, .first callee) (.word (units "null".toList)) =
      some (done, .behind callee [.null]) := rfl
  rw [scan_word (by decide) (by decide) rfl, null, Option.bind_some]

/-- Names that can stand between quotes are read as they are. -/
theorem scan_written {code : List UInt16} (written : exportCode e = .ok code)
    (ns : Js.Source.Plain e.ns) (name : Js.Source.Plain e.name) (us : List UInt16) :
    scan (done, .start) (code ++ us) = scan (done ++ [e.written], .start) us := by
  have behind : ∀ l : Literal, scan (done, .behind callee [l])
      (0x2C :: 0x22 :: (e.name ++ 0x22 :: (e.tail ++ 0x0A :: us))) =
        scan (done ++ [⟨callee, [l, .string e.name, e.lib.argc.literal,
          .boolean e.lib.ret.isTruthy, .boolean e.lib.mult.isTruthy]⟩], .start) us := by
    intro l
    rw [scan_comma, scan_argument_string, literal_plain name, Option.bind_some, scan_tail]
    rfl
  rw [exportCode_eq written, scan_callee, Entry.written]
  by_cases empty : e.ns = []
  · rw [if_pos empty, if_pos empty, scan_first_null, behind]
  · rw [if_neg empty, if_neg empty, List.cons_append, List.append_assoc, List.singleton_append,
      scan_first_string, literal_plain ns, Option.bind_some, behind]

theorem written_eq_call (named : e.ns ≠ []) : e.written = e.call := by
  rw [Entry.written, if_neg named]
  rfl

/-- A call that is written as the table asks for it. -/
theorem scan_call {code : List UInt16} (written : exportCode e = .ok code) (plain : e.Plain)
    (us : List UInt16) :
    scan (done, .start) (code ++ us) = scan (done ++ [e.call], .start) us := by
  rw [scan_written written plain.ns plain.name, written_eq_call plain.named]

/-- The arguments of the call that is read next. -/
theorem args_of_scan {f : List UInt16} {args : List Literal}
    (h : scan (done, .behind f args) us = some (calls, .start)) {rest : List Call}
    (eq : calls = done ++ e.call :: rest) : args <+: e.call.args := by
  obtain ⟨more, rest', extended⟩ := scan_extends h
  rw [eq] at extended
  have same := (List.cons.inj (List.append_cancel_left extended)).1
  rw [same]
  exact List.prefix_append _ _

theorem plain_comma : Js.Source.Plain [0x2C] := by decide

/-- What stands between the quotes of two strings. -/
theorem literal_comma (us : List UInt16) : literal (0x2C :: 0x22 :: us) = some ([0x2C], us) :=
  literal_plain plain_comma us

/-- A namespace that is read as itself is plain. -/
theorem ns_plain {more rest : List UInt16} (read : literal (e.ns ++ 0x22 :: 0x2C :: 0x22 :: more) =
    some (e.ns, rest)) : Js.Source.Plain e.ns ∧ rest = 0x2C :: 0x22 :: more := by
  rcases literal_cases read with ⟨plain, -, rfl⟩ | shorter | ⟨⟨front, backslash⟩, v, w, later, eq⟩
  · exact ⟨plain, rfl⟩
  · exact absurd shorter (Nat.lt_irrefl _)
  · -- The literal would go on to the quote in front of the name.
    obtain ⟨rfl, -⟩ := Prod.mk.inj (Option.some.inj ((literal_comma more).symm.trans later))
    rw [backslash] at eq
    have last := congrArg List.getLast? eq
    simp at last

/-- A name that is read as itself is plain. -/
theorem name_plain {more rest : List UInt16}
    (read : literal (e.name ++ 0x22 :: (e.tail ++ 0x0A :: more)) = some (e.name, rest)) :
    Js.Source.Plain e.name ∧ rest = e.tail ++ 0x0A :: more := by
  rcases literal_cases read with ⟨plain, -, rfl⟩ | shorter | ⟨-, v, w, later, -⟩
  · exact ⟨plain, rfl⟩
  · exact absurd shorter (Nat.lt_irrefl _)
  · -- The line would end inside the literal.
    rw [literal_unclosed (tail_plain e) rfl] at later
    cases later

/-- Only such names are read as they are. -/
theorem plain_of_scan {code : List UInt16} (written : exportCode e = .ok code)
    (h : scan (done, .start) (code ++ us) = some (calls, .start)) {rest : List Call}
    (eq : calls = done ++ e.call :: rest) : e.Plain := by
  rw [exportCode_eq written, scan_callee] at h
  by_cases empty : e.ns = []
  · rw [if_pos empty, scan_first_null] at h
    have first := (List.cons_prefix_cons.mp (args_of_scan h eq)).1
    cases first
  · rw [if_neg empty, List.cons_append, List.append_assoc, List.singleton_append,
      scan_first_string] at h
    obtain ⟨⟨v, behind⟩, read, h⟩ := Option.bind_eq_some_iff.mp h
    obtain rfl : v = e.ns := Literal.string.inj (List.cons_prefix_cons.mp (args_of_scan h eq)).1
    obtain ⟨nsPlain, rfl⟩ := ns_plain read
    rw [scan_comma, scan_argument_string] at h
    obtain ⟨⟨v, behind⟩, read, h⟩ := Option.bind_eq_some_iff.mp h
    have second := (List.cons_prefix_cons.mp (args_of_scan h eq)).2
    obtain rfl : v = e.name := Literal.string.inj (List.cons_prefix_cons.mp second).1
    exact ⟨empty, nsPlain, (name_plain read).1⟩

end Entry

/-! ### Tables with integers and plain names -/

def ofEntry (e : Exports.Entry) : Entry where
  ns := units e.ns.toList
  name := units e.name.toList
  lib := ⟨.finite ⟨integerText e.lib.argc, isNumber_integerText e.lib.argc⟩,
    .boolean e.lib.ret, .boolean e.lib.mult⟩

/-- A table of `Exports.Script`. -/
def ofLibs (libs : Exports.Libs) : Libs :=
  libs.table.map fun e => (units e.1.toList,
    e.2.map fun f => (units f.1.toList, (ofEntry ⟨e.1, f.1, f.2⟩).lib))

theorem entries_ofLibs (libs : Exports.Libs) :
    entries (ofLibs libs) = libs.entries.map ofEntry := by
  simp only [entries, ofLibs, Exports.Libs.entries, List.flatMap_map, List.map_flatMap,
    List.map_map]
  rfl

theorem units_eq_nil {cs : List Char} : units cs = [] ↔ cs = [] := by
  cases cs with
  | nil => simp [units]
  | cons c cs =>
      have some : JsonText.charUnits c ≠ [] := by
        rw [JsonText.charUnits]
        split <;> simp
      simp [JsonText.units_cons, some]

theorem exportCode_ofEntry (e : Exports.Entry) :
    exportCode (ofEntry e) = .ok (units (Exports.exportCode e.ns e.name e.lib)) := by
  have empty : (ofEntry e).ns = [] ↔ e.ns = "" := by
    rw [ofEntry, units_eq_nil, String.toList_eq_nil_iff]
  have quote : units ['"'] = [0x22] := rfl
  have nsText : (ofEntry e).ns = units e.ns.toList := rfl
  have ns : (if (ofEntry e).ns = [] then units "null".toList else
      [0x22] ++ (ofEntry e).ns ++ [0x22]) =
      units (if e.ns = "" then "null".toList else ['"'] ++ e.ns.toList ++ ['"']) := by
    by_cases h : e.ns = ""
    · rw [if_pos (empty.mpr h), if_pos h]
    · rw [if_neg (fun h' => h (empty.mp h')), if_neg h,
        JsonText.units_append, JsonText.units_append,
        quote, nsText]
  have boolean : ∀ b, booleanText b = units (Exports.booleanText b) := by
    intro b
    rw [booleanText, Exports.booleanText]
  have notNaN : ¬ (ofEntry e).lib.argc.isNaN = true := by simp [ofEntry, Argc.isNaN]
  have head : units "__createFunctionProxy(".toList = callee ++ [0x28] := by
    have chars : "__createFunctionProxy(".toList = "__createFunctionProxy".toList ++ ['('] := rfl
    rw [chars, JsonText.units_append, callee]
    rfl
  have open_ : units [',', '"'] = [0x2C, 0x22] := rfl
  have close : units ['"', ','] = [0x22, 0x2C] := rfl
  have comma : units [','] = [0x2C] := rfl
  have line : units [')', ';', '\n'] = [0x29, 0x3B, 0x0A] := rfl
  have name : (ofEntry e).name = units e.name.toList := rfl
  have argc : (ofEntry e).lib.argc.text = units (integerText e.lib.argc) := rfl
  have ret : (ofEntry e).lib.ret.isTruthy = e.lib.ret := rfl
  have mult : (ofEntry e).lib.mult.isTruthy = e.lib.mult := rfl
  unfold exportCode Exports.exportCode
  rw [if_neg notNaN, ns]
  simp only [JsonText.units_append, head, boolean, open_, close, comma, line, name, argc, ret, mult]

/-- For such a table the text is that of `Exports.exportsLibsCode`. -/
theorem exportsLibsCode_ofLibs (libs : Exports.Libs) :
    exportsLibsCode (ofLibs libs) = .ok (units (Exports.exportsLibsCode libs)) := by
  have codes : ∀ es : List Exports.Entry, (es.map ofEntry).mapM exportCode =
      .ok (es.map fun e => units (Exports.exportCode e.ns e.name e.lib)) := by
    intro es
    induction es with
    | nil => rfl
    | cons e es ih =>
        simp [List.mapM_cons, exportCode_ofEntry, ih, bind, Except.bind, pure, Except.pure]
  have flat : ∀ es : List Exports.Entry,
      (es.map fun e => units (Exports.exportCode e.ns e.name e.lib)).flatten =
        units (es.flatMap fun e => Exports.exportCode e.ns e.name e.lib) := by
    intro es
    rw [units, List.flatMap_assoc, List.flatMap_def]
    rfl
  have table : (libs.table.flatMap fun e => e.2.flatMap fun f => Exports.exportCode e.1 f.1 f.2) =
      libs.entries.flatMap fun e => Exports.exportCode e.ns e.name e.lib := by
    rw [Exports.Libs.entries, List.flatMap_assoc]
    simp only [List.flatMap_map]
  rw [exportsLibsCode, entries_ofLibs, codes, Exports.exportsLibsCode, table]
  simp only [bind, Except.bind, pure, Except.pure, flat, JsonText.units_append]
  rfl

/-! ### The whole text -/

/-- The text ends with blank lines. -/
theorem scan_end (done : List Call) : scan (done, .start) [0x0A, 0x0A] = some (done, .start) := by
  have blank : ([0x0A, 0x0A] : List UInt16) = [0x0A, 0x0A] ++ [] := rfl
  rw [blank, scan_blank (by decide), scan_nil]

theorem mapM_exportCode_cons {e : Entry} {es : List Entry} {codes : List (List UInt16)}
    (written : (e :: es).mapM exportCode = .ok codes) :
    ∃ code rest, exportCode e = .ok code ∧ es.mapM exportCode = .ok rest ∧
      codes = code :: rest := by
  rw [List.mapM_cons] at written
  cases first : exportCode e with
  | error text => simp [first, bind, Except.bind] at written
  | ok code =>
      cases later : es.mapM exportCode with
      | error text => simp [first, later, bind, Except.bind] at written
      | ok rest =>
          refine ⟨code, rest, rfl, rfl, ?_⟩
          simpa [first, later, bind, Except.bind, pure, Except.pure] using written.symm

/-- The texts of all calls, one after the other. -/
theorem scan_calls {es : List Entry} {codes : List (List UInt16)}
    (written : es.mapM exportCode = .ok codes) (done : List Call) :
    scan (done, .start) (codes.flatten ++ [0x0A, 0x0A]) = some (done ++ es.map Entry.call, .start) ↔
      ∀ e ∈ es, e.Plain := by
  induction es generalizing codes done with
  | nil =>
      rw [List.mapM_nil] at written
      obtain rfl := Except.ok.inj written
      rw [List.flatten_nil, List.nil_append, scan_end]
      simp
  | cons e es ih =>
      obtain ⟨code, rest, first, later, rfl⟩ := mapM_exportCode_cons written
      rw [List.flatten_cons, List.append_assoc, List.forall_mem_cons]
      have goOn : e.Plain → (scan (done, .start) (code ++ (rest.flatten ++ [0x0A, 0x0A])) =
          some (done ++ (e :: es).map Entry.call, .start) ↔ ∀ e ∈ es, e.Plain) := by
        intro plain
        have split : done ++ (e :: es).map Entry.call = done ++ [e.call] ++ es.map Entry.call := by
          simp
        rw [scan_call first plain, split]
        exact ih later _
      constructor
      · intro h
        have plain := plain_of_scan first h rfl
        exact ⟨plain, (goOn plain).mp h⟩
      · rintro ⟨plain, others⟩
        exact (goOn plain).mpr others

/-- The script is the texts of the functions between blank lines. -/
theorem texts_of_exportsLibsCode {libs : Libs} {text : List UInt16}
    (written : exportsLibsCode libs = .ok text) :
    ∃ texts, (entries libs).mapM exportCode = .ok texts ∧
      text = [0x0A, 0x0A] ++ texts.flatten ++ [0x0A, 0x0A] := by
  rw [exportsLibsCode] at written
  cases codes : (entries libs).mapM exportCode with
  | error message => simp [codes, bind, Except.bind] at written
  | ok texts =>
      rw [codes] at written
      exact ⟨texts, rfl, (Except.ok.inj written).symm⟩

/-- **What the library script calls**: a text that `exports_libs_code` has produced is the
program that calls `__createFunctionProxy` for every function of the table, in the order of
the table, with its namespace, name, `argc`, `Boolean(ret)` and `Boolean(mult)`, and nothing
else, exactly if no function has a quote, a backslash or a line terminator in its name or
that of its namespace, and none is in the empty namespace. -/
theorem program_iff_plain {libs : Libs} {text : List UInt16}
    (written : exportsLibsCode libs = .ok text) :
    program text = some ((entries libs).map Entry.call) ↔ ∀ e ∈ entries libs, e.Plain := by
  obtain ⟨texts, codes, rfl⟩ := texts_of_exportsLibsCode written
  rw [program_eq_some, List.append_assoc, scan_blank (by decide)]
  exact scan_calls codes []

section Examples

/-- One function that takes no argument. -/
def oneFunction (ns name : List UInt16) : Libs :=
  [(ns, [(name, ⟨.finite ⟨"0".toList, rfl⟩, .undefined, .undefined⟩)])]

theorem program_iff_plain_example :
    program ([0x0A, 0x0A] ++
        units "__createFunctionProxy(\"math\",\"add\",0,false,false);\n".toList ++ [0x0A, 0x0A]) =
      some ((entries (oneFunction (units "math".toList) (units "add".toList))).map Entry.call) ↔
    ∀ e ∈ entries (oneFunction (units "math".toList) (units "add".toList)), e.Plain :=
  program_iff_plain rfl

/-- The text for a name with a quote is no program. -/
theorem quote_breaks_program :
    exportsLibsCode (oneFunction (units "math".toList) (units "a\"b".toList)) =
        .ok ([0x0A, 0x0A] ++
          units "__createFunctionProxy(\"math\",\"a\"b\",0,false,false);\n".toList ++
          [0x0A, 0x0A]) ∧
      program ([0x0A, 0x0A] ++
        units "__createFunctionProxy(\"math\",\"a\"b\",0,false,false);\n".toList ++ [0x0A, 0x0A]) ≠
        some ((entries (oneFunction (units "math".toList)
          (units "a\"b".toList))).map Entry.call) := by
  refine ⟨rfl, fun read => ?_⟩
  have codes : (entries (oneFunction (units "math".toList) (units "a\"b".toList))).mapM exportCode =
      .ok [units "__createFunctionProxy(\"math\",\"a\"b\",0,false,false);\n".toList] := rfl
  rw [program_eq_some, List.append_assoc, scan_blank (by decide)] at read
  have plain := (scan_calls codes []).mp read _ List.mem_cons_self
  exact absurd plain.name (by decide)

end Examples

end ThreadJs.Exports.Quoting
