import ThreadJs.Lib.Json.Parse
import ThreadJs.Report.Builder

/-!
`SEND_V8_ERR_EVENT`: the report of a compile error or an uncaught exception, and the
peer that reads it.

Message and source line are written by `set`, the stack by `setMultLine`. The report
is read back exactly when message and line need no escape and the stack has no control
character but `\n` and `\r` (`report_readable_iff_plain`).

* `lex_report` — the tokens of a report, whatever its strings are.
* `needsNoEscape_of_readable` — where a member is read back, its string was written in
  its own place or inside the other string, which then is the longer one.
-/

namespace ThreadJs.Report

open JsonText

/-! ### The macro -/

/-- The `error_type` of the two places that use the macro. -/
inductive ErrorType where
  | compilerError
  | uncaught
  deriving DecidableEq, Repr

def ErrorType.text : ErrorType → Text
  | .compilerError => "CompilerError".toList
  | .uncaught => "Uncaught".toList

/-- What the macro reads from the `TryCatch`. -/
structure Caught where
  exception : CString
  line : CString
  stack : CString
  lineNumber : Int
  startColumn : Int

/-- The text that is sent to the peer. -/
def sendV8ErrEvent (errorType : ErrorType) (jtry : Caught) : Text :=
  let body : Stream Json := do
    let jroot ← Json.new
    let jroot ← jroot.set "name".toList "error".toList
    let (jroot, jdata) ← jroot.childen "data".toList
    let jdata ← jdata.set "name".toList errorType.text
    let jdata ← jdata.set "message".toList jtry.exception.chars
    let jdata ← jdata.setMultLine "stack".toList jtry.stack.chars
    let jdata ← jdata.set "linenum".toList (decimal jtry.lineNumber)
    let jdata ← jdata.set "columnnum".toList (decimal jtry.startColumn)
    let jdata ← jdata.set "jscode".toList jtry.line.chars
    let _ ← jdata.end'
    jroot.end'
  (body.run []).2

/-! ### The peer -/

/-- A property name. -/
def key (name : String) : Key := units name.toList

/-- `_recv`: the event that is emitted, its name and its data; `none` where the body
throws and the catch clause sends an error back. -/
def recv (typeConstructor : Option Value → Option (Option Value → Option Value))
    (jsonStr : List UInt16) : Option (Option Value × Option Value) :=
  match parse jsonStr with
  | none | some .null => none
  | some obj =>
      let data := match typeConstructor (obj.get (key "cid")) with
        | some cons => cons (obj.get (key "data"))
        | none => obj.get (key "data")
      some (obj.get (key "name"), data)

/-- The text is an object with name `error`, and its data has the original strings. -/
def Readable (jtry : Caught) (text : List UInt16) : Prop :=
  ∃ root data, parse text = some (.obj root) ∧
    (Value.obj root).get (key "name") = some (.str (key "error")) ∧
    (Value.obj root).get (key "data") = some (.obj data) ∧
    (Value.obj data).get (key "message") = some (.str (units jtry.exception.chars)) ∧
    (Value.obj data).get (key "jscode") = some (.str (units jtry.line.chars)) ∧
    (Value.obj data).get (key "stack") = some (.str (units jtry.stack.chars))

/-- The event that `_recv` emits is `error`. -/
def EmitsError (typeConstructor : Option Value → Option (Option Value → Option Value))
    (text : List UInt16) : Prop :=
  (recv typeConstructor text).map Prod.fst = some (some (.str (key "error")))

theorem Readable.emitsError {jtry : Caught} {text : List UInt16} (h : Readable jtry text)
    (typeConstructor : Option Value → Option (Option Value → Option Value)) :
    EmitsError typeConstructor text := by
  obtain ⟨root, data, hparse, hname, -⟩ := h
  simp only [EmitsError, recv, hparse, Option.map_some, hname]

/-! ### The text and its tokens -/

/-- The end of a string and the key of the next attribute. -/
def nextAttr (k : Text) : Text := '"' :: ',' :: '"' :: (k ++ ['"', ':', '"'])

/-- The text before the message. -/
def opening (errorType : ErrorType) : Text :=
  ['\x7b', '"'] ++ "name".toList ++ ['"', ':', '"'] ++ "error".toList ++
    ['"', ',', '"'] ++ "data".toList ++ ['"', ':', '\x7b', '"'] ++ "name".toList ++
    ['"', ':', '"'] ++ errorType.text ++ nextAttr "message".toList

/-- The text between the stack and the source line. -/
def numbers (jtry : Caught) : Text :=
  nextAttr "linenum".toList ++ (decimal jtry.lineNumber ++
    (nextAttr "columnnum".toList ++ (decimal jtry.startColumn ++ nextAttr "jscode".toList)))

theorem sendV8ErrEvent_eq (errorType : ErrorType) (jtry : Caught) :
    sendV8ErrEvent errorType jtry = opening errorType ++ (jtry.exception.chars ++
      (nextAttr "stack".toList ++ (Json.multLine jtry.stack.chars ++
        (numbers jtry ++ (jtry.line.chars ++ ['"', '\x7d', '\x7d']))))) := by
  unfold sendV8ErrEvent opening numbers nextAttr
  simp only [Stream.run_bind, Json.run_new, Json.run_set, Json.run_setMultLine, Json.run_childen,
    Json.run_end', Json.keyText, Nat.lt_irrefl, Nat.succ_pos, if_true, if_false, List.append_assoc,
    List.cons_append, List.nil_append]

theorem units_nextAttr (k : Text) :
    units (nextAttr k) = 0x22 :: 0x2C :: 0x22 :: (units k ++ 0x22 :: [0x3A, 0x22]) := by
  have h : nextAttr k = ['"', ',', '"'] ++ (k ++ ['"', ':', '"']) := rfl
  rw [h, units_append, units_append]
  rfl

/-- Inside a string literal: it ends, and the next one begins. -/
theorem feed_nextAttr (k : Text) (plain : Plain (units k)) (s : List UInt16) :
    feed (.str s) (units (nextAttr k)) =
      some ([.str s, .comma, .str (units k), .colon], .str []) := by
  rw [units_nextAttr]
  have hquotes : feed (.str s) [0x22, 0x2C, 0x22] = some ([.str s, .comma], .str []) := rfl
  have hend : feed (.str (units k)) (0x22 :: [0x3A, 0x22]) =
      some ([.str (units k), .colon], .str []) := rfl
  exact feed_append hquotes (feed_append (feed_plain plain []) hend)

def openingTokens (errorType : ErrorType) : List Token :=
  [.lbrace, .str (key "name"), .colon, .str (key "error"), .comma, .str (key "data"), .colon,
    .lbrace, .str (key "name"), .colon, .str (units errorType.text), .comma,
    .str (key "message"), .colon]

theorem feed_opening (errorType : ErrorType) :
    feed .out (units (opening errorType)) = some (openingTokens errorType, .str []) := by
  cases errorType <;> decide

/-- The tokens from the key of the stack to the key of the source line. -/
def middleTokens (jtry : Caught) : List Token :=
  [.str (key "stack"), .colon, .str (units jtry.stack.chars), .comma,
    .str (key "linenum"), .colon, .str (units (decimal jtry.lineNumber)), .comma,
    .str (key "columnnum"), .colon, .str (units (decimal jtry.startColumn)), .comma,
    .str (key "jscode"), .colon]

theorem feed_numbers (jtry : Caught) (s : List UInt16) :
    feed (.str s) (units (numbers jtry)) =
      some (.str s :: .comma :: (middleTokens jtry).drop 4, .str []) := by
  have value : ∀ n, feed (.str []) (units (decimal n)) = some ([], .str (units (decimal n))) :=
    fun n => feed_plain (plain_units.mpr fun c hc => decimal_plain hc) []
  unfold numbers
  simp only [units_append]
  have jscode := feed_append (value jtry.startColumn)
    (feed_nextAttr "jscode".toList (by decide) (units (decimal jtry.startColumn)))
  have columnnum := feed_append (value jtry.lineNumber) (feed_append
    (feed_nextAttr "columnnum".toList (by decide) (units (decimal jtry.lineNumber))) jscode)
  exact feed_append (feed_nextAttr "linenum".toList (by decide) s) columnnum

theorem feed_closing (s : List UInt16) :
    feed (.str s) (units ['"', '\x7d', '\x7d']) = some ([.str s, .rbrace, .rbrace], .out) := rfl

/-- **Tokens of a report.** A report is lexed exactly when its message and its source
line end inside the literal they were put into and the stack is carried over. -/
theorem lex_report (errorType : ErrorType) {jtry : Caught} {ts : List Token} :
    lex (units (sendV8ErrEvent errorType jtry)) = some ts ↔
      ∃ X m Y c, feed (.str []) (units jtry.exception.chars) = some (X, .str m) ∧
        (∀ d ∈ jtry.stack.chars, Carried d) ∧
        feed (.str []) (units jtry.line.chars) = some (Y, .str c) ∧
        ts = openingTokens errorType ++ ((X ++ [.str m]) ++ .comma ::
          (middleTokens jtry ++ ((Y ++ [.str c]) ++ [.rbrace, .rbrace]))) := by
  rw [lex_eq_some, sendV8ErrEvent_eq]
  simp only [units_append]
  constructor
  · rintro ⟨_, mode, _, hall, hfinish, rfl⟩
    obtain ⟨_, _, _, hopening, hrest₁, rfl⟩ := feed_append_eq_some.mp hall
    obtain ⟨rfl, rfl⟩ :=
      Prod.mk.inj (Option.some.inj ((feed_opening errorType).symm.trans hopening))
    obtain ⟨X, mX, _, hmessage, hrest₂, rfl⟩ := feed_append_eq_some.mp hrest₁
    obtain ⟨_, _, _, hstackKey, hrest₃, rfl⟩ := feed_append_eq_some.mp hrest₂
    -- after the message the text goes on with the key of the stack
    obtain ⟨m, rfl⟩ : ∃ m, mX = .str m := by
      rw [units_nextAttr] at hstackKey
      exact str_of_feed_key (by decide) (by decide) (by decide) hstackKey
    rw [feed_nextAttr _ (by decide)] at hstackKey
    obtain ⟨rfl, rfl⟩ := Prod.mk.inj (Option.some.inj hstackKey)
    obtain ⟨_, _, _, hstack, hrest₄, rfl⟩ := feed_append_eq_some.mp hrest₃
    rw [feed_multLine jtry.stack.noNul] at hstack
    split at hstack
    · next allCarried =>
        have carried : ∀ d ∈ jtry.stack.chars, Carried d := fun d hd =>
          of_decide_eq_true (List.all_eq_true.mp allCarried d hd)
        obtain ⟨rfl, rfl⟩ := Prod.mk.inj (Option.some.inj hstack)
        obtain ⟨_, _, _, hnumbers, hrest₅, rfl⟩ := feed_append_eq_some.mp hrest₄
        rw [feed_numbers] at hnumbers
        obtain ⟨rfl, rfl⟩ := Prod.mk.inj (Option.some.inj hnumbers)
        obtain ⟨Y, mY, _, hline, hclosing, rfl⟩ := feed_append_eq_some.mp hrest₅
        -- and after the source line it ends
        have bracesPlain : Plain [0x7D, 0x7D] := by decide
        obtain ⟨c, rfl⟩ : ∃ c, mY = .str c :=
          str_of_feed_end bracesPlain hclosing hfinish
        rw [feed_closing] at hclosing
        obtain ⟨rfl, rfl⟩ := Prod.mk.inj (Option.some.inj hclosing)
        obtain rfl := Option.some.inj hfinish
        exact ⟨X, m, Y, c, hmessage, carried, hline, by simp [middleTokens, key]⟩
    · cases hstack
  · rintro ⟨X, m, Y, c, hmessage, carried, hline, rfl⟩
    have hstack := feed_multLine jtry.stack.noNul []
    have allCarried : jtry.stack.chars.all (decide <| Carried ·) = true :=
      List.all_eq_true.mpr fun d hd => decide_eq_true (carried d hd)
    rw [if_pos allCarried, List.nil_append] at hstack
    have rest₅ := feed_append hline (feed_closing c)
    have rest₄ := feed_append (feed_numbers jtry (units jtry.stack.chars)) rest₅
    have rest₂ := feed_append (feed_nextAttr "stack".toList (by decide) m)
      (feed_append hstack rest₄)
    have all := feed_append (feed_opening errorType) (feed_append hmessage rest₂)
    exact ⟨_, .out, [], all, rfl, by simp [middleTokens, key]⟩

/-! ### Reports that are read back -/

/-- What the report means. -/
def reportData (errorType : ErrorType) (jtry : Caught) : List (Key × Value) :=
  [(key "name", .str (units errorType.text)),
    (key "message", .str (units jtry.exception.chars)),
    (key "stack", .str (units jtry.stack.chars)),
    (key "linenum", .str (units (decimal jtry.lineNumber))),
    (key "columnnum", .str (units (decimal jtry.startColumn))),
    (key "jscode", .str (units jtry.line.chars))]

/-- The strings of the report need no escape, those that `setMultLine` writes apart. -/
def NeedsNoEscape (jtry : Caught) : Prop :=
  (∀ c ∈ jtry.exception.chars, ¬ SpecialChar c) ∧ (∀ c ∈ jtry.line.chars, ¬ SpecialChar c) ∧
    ∀ c ∈ jtry.stack.chars, Carried c

theorem parse_report {errorType : ErrorType} {jtry : Caught} (plain : NeedsNoEscape jtry) :
    parse (units (sendV8ErrEvent errorType jtry)) =
      some (.obj [(key "name", .str (key "error")),
        (key "data", .obj (reportData errorType jtry))]) := by
  obtain ⟨message, line, stack⟩ := plain
  have hlex := (lex_report errorType).mpr ⟨[], _, [], _, feed_plain (plain_units.mpr message) [],
    stack, feed_plain (plain_units.mpr line) [], rfl⟩
  rw [parse, hlex]
  rfl

theorem readable_report (errorType : ErrorType) {jtry : Caught} (plain : NeedsNoEscape jtry) :
    Readable jtry (units (sendV8ErrEvent errorType jtry)) :=
  ⟨_, _, parse_report plain, rfl, rfl, rfl, rfl, rfl⟩

/-! ### Nothing else is read back

A report that is read back has the members `message` and `jscode` among its tokens.
The string of such a member was written in its own place, where it fits only if it is
plain, or as part of the other string. -/

section Necessity

variable {errorType : ErrorType} {jtry : Caught} {s : List UInt16}

/-- Where the member `k : s` can stand in the tokens of a report, if `k` is no other
key of the report: in its own place or inside one of the two strings. -/
theorem member_report {k : Key} {X Y : List Token} {m c : List UInt16}
    (other : k ∉ [key "name", key "data", key "stack", key "linenum", key "columnnum"])
    (h : [.str k, .colon, .str s] <:+: openingTokens errorType ++ ((X ++ [.str m]) ++ .comma ::
      (middleTokens jtry ++ ((Y ++ [.str c]) ++ [.rbrace, .rbrace])))) :
    (k = key "message" ∧ Token.str s ∈ X ++ [Token.str m] ∨
        Token.str s ∈ (X ++ [Token.str m]).tail) ∨
      k = key "jscode" ∧ Token.str s ∈ Y ++ [Token.str c] ∨
        Token.str s ∈ (Y ++ [Token.str c]).tail := by
  simp only [List.mem_cons, List.not_mem_nil, or_false, not_or] at other
  obtain ⟨notName, notData, notStack, notLinenum, notColumnnum⟩ := other
  have comma : ∀ k, Token.comma ≠ .str k := nofun
  have brace : ∀ k, Token.rbrace ≠ .str k := nofun
  simp only [openingTokens, List.cons_append, List.nil_append, List.infix_cons_iff,
    List.cons_prefix_cons, Token.str.injEq, reduceCtorEq, false_and, and_false, true_and, false_or,
    notName, notData] at h
  rcases h with ⟨hkey, h⟩ | h
  · exact .inl (.inl ⟨hkey, str_mem_of_prefix comma h⟩)
  rcases member_append comma nofun h with h | h
  · exact .inl (.inr h)
  simp only [middleTokens, List.cons_append, List.nil_append, List.infix_cons_iff,
    List.cons_prefix_cons, Token.str.injEq, reduceCtorEq, false_and, and_false, true_and, false_or,
    notStack, notLinenum, notColumnnum] at h
  rcases h with ⟨hkey, h⟩ | h
  · exact .inr (.inl ⟨hkey, str_mem_of_prefix brace h⟩)
  rcases member_append brace nofun h with h | h
  · exact .inr (.inr h)
  · exact absurd h.length_le (Nat.not_le_of_lt (by simp))

/-- What a report that is read back says about its tokens. -/
theorem Readable.members (h : Readable jtry (units (sendV8ErrEvent errorType jtry))) :
    ∃ ts, lex (units (sendV8ErrEvent errorType jtry)) = some ts ∧
      [.str (key "message"), .colon, .str (units jtry.exception.chars)] <:+: ts ∧
      [.str (key "jscode"), .colon, .str (units jtry.line.chars)] <:+: ts := by
  obtain ⟨root, data, hparse, -, hdata, hmessage, hjscode, -⟩ := h
  have inner := mem_of_get hdata
  obtain ⟨ts, hlex, message⟩ := parse_member hparse (.member inner (.here (mem_of_get hmessage)))
  obtain ⟨ts', hlex', jscode⟩ := parse_member hparse (.member inner (.here (mem_of_get hjscode)))
  obtain rfl := Option.some.inj (hlex.symm.trans hlex')
  exact ⟨ts, hlex, message, jscode⟩

/-- A string that is found in a literal of its own place is plain; found elsewhere in
the other place, it is shorter than the string there, which is not plain. -/
theorem needsNoEscape_of_readable
    (h : Readable jtry (units (sendV8ErrEvent errorType jtry))) : NeedsNoEscape jtry := by
  obtain ⟨ts, hlex, message, jscode⟩ := h.members
  obtain ⟨X, m, Y, c, hX, carried, hY, rfl⟩ := (lex_report errorType).mp hlex
  obtain ⟨roomX, tailX⟩ := feed_str_cost hX
  obtain ⟨roomY, tailY⟩ := feed_str_cost hY
  generalize hM : units jtry.exception.chars = M at *
  generalize hL : units jtry.line.chars = L at *
  have messagePlace : Plain M ∨ cost M < L.length ∧ ¬ Plain L := by
    rcases member_report (by decide) message with (⟨-, hs⟩ | hs) | ⟨hkey, -⟩ | hs
    · exact .inl (plain_of_cost_le (roomX M hs))
    · exact .inl (plain_of_cost_le (Nat.le_of_lt (tailX M hs).1))
    · exact absurd hkey (by decide)
    · exact .inr (tailY M hs)
  have linePlace : Plain L ∨ cost L < M.length ∧ ¬ Plain M := by
    rcases member_report (by decide) jscode with (⟨hkey, -⟩ | hs) | ⟨-, hs⟩ | hs
    · exact absurd hkey (by decide)
    · exact .inr (tailX L hs)
    · exact .inl (plain_of_cost_le (roomY L hs))
    · exact .inl (plain_of_cost_le (Nat.le_of_lt (tailY L hs).1))
  -- each cannot be the longer one of the two
  have both : Plain M ∧ Plain L := by
    have hcostM := length_le_cost M
    have hcostL := length_le_cost L
    rcases messagePlace with hplain | ⟨hlt, notL⟩
    · rcases linePlace with hplain' | ⟨-, notM⟩
      · exact ⟨hplain, hplain'⟩
      · exact absurd hplain notM
    · rcases linePlace with hplain' | ⟨hlt', -⟩
      · exact absurd hplain' notL
      · omega
  subst hM hL
  exact ⟨plain_units.mp both.1, plain_units.mp both.2, carried⟩

end Necessity

/-- **Readable reports.** The peer reads back the strings of a report, and emits it as
an `error` event, exactly when exception and source line hold no quote, no backslash and
no control character and the stack holds no control character but `\n` and `\r`. -/
theorem report_readable_iff_plain
    (typeConstructor : Option Value → Option (Option Value → Option Value))
    (errorType : ErrorType) (jtry : Caught) :
    Readable jtry (units (sendV8ErrEvent errorType jtry)) ∧
        EmitsError typeConstructor (units (sendV8ErrEvent errorType jtry)) ↔
      NeedsNoEscape jtry := by
  constructor
  · rintro ⟨readable, -⟩
    exact needsNoEscape_of_readable readable
  · intro plain
    have readable := readable_report errorType plain
    exact ⟨readable, readable.emitsError typeConstructor⟩

/-- `throw new Error("x");` in a timer callback. -/
def throwInTimer : Caught where
  exception := ⟨"Error: x".toList, by decide⟩
  line := ⟨"throw new Error(\"x\");".toList, by decide⟩
  stack := ⟨"Error: x\n    at t.js:1:7".toList, by decide⟩
  lineNumber := 1
  startColumn := 6

/-- The quotes of the source line end the `jscode` literal too early. -/
theorem quoted_line_not_readable :
    parse (units (sendV8ErrEvent .uncaught throwInTimer)) = none ∧
      ¬ Readable throwInTimer (units (sendV8ErrEvent .uncaught throwInTimer)) ∧
      ∀ typeConstructor, recv typeConstructor (units (sendV8ErrEvent .uncaught throwInTimer)) =
        none := by
  have unparsed : parse (units (sendV8ErrEvent .uncaught throwInTimer)) = none := by
    have unlexed : lex (units (sendV8ErrEvent .uncaught throwInTimer)) = none := by decide +kernel
    rw [parse, unlexed, Option.bind_none]
  refine ⟨unparsed, ?_, ?_⟩
  · rintro ⟨root, data, hparse, -⟩
    rw [unparsed] at hparse
    cases hparse
  · intro typeConstructor
    simp only [recv, unparsed]

end ThreadJs.Report
