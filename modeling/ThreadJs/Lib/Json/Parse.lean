import Mathlib.Data.List.Infix
import ThreadJs.Lib.Machine
import ThreadJs.Lib.Json.Lex

/-!
JSON values and the parser over tokens.

The parser is a pushdown machine: a stack of open containers, each knowing what it
waits for. It takes one token a step, so it needs no fuel, and a parse is a run.

* `parse_member` — where the parsed value has an object with a string member, the
  tokens of the text hold key, colon and string next to each other.
-/

namespace JsonText

abbrev Key := List UInt16

/-- A parsed value. The members of an object stand in the order of the text, a
repeated key included; `get` takes the last one. -/
inductive Value where
  | null
  | bool (b : Bool)
  | num (w : List UInt16)
  | str (s : List UInt16)
  | arr (vs : List Value)
  | obj (ms : List (Key × Value))

/-- Property access; `none` is `undefined`. -/
def Value.get : Value → Key → Option Value
  | .obj ms, k => ms.reverse.lookup k
  | _, _ => none

/-! ### The machine -/

/-- An open container and what it waits for. -/
inductive Frame where
  /-- After `{`: the first key or `}`. -/
  | objOpen
  /-- After a comma: a key. -/
  | objKey (ms : List (Key × Value))
  | objColon (ms : List (Key × Value)) (k : Key)
  | objValue (ms : List (Key × Value)) (k : Key)
  /-- After a member: a comma or `}`. -/
  | objNext (ms : List (Key × Value))
  /-- After `[`: the first element or `]`. -/
  | arrOpen
  | arrValue (vs : List Value)
  /-- After an element: a comma or `]`. -/
  | arrNext (vs : List Value)

inductive Parser where
  | start
  | inside (f : Frame) (parents : List Frame)
  | done (v : Value)

/-- A value is complete: it goes into the container that waits for it. -/
def complete (v : Value) : List Frame → Option Parser
  | [] => some (.done v)
  | .objValue ms k :: parents => some (.inside (.objNext (ms ++ [(k, v)])) parents)
  | .arrOpen :: parents => some (.inside (.arrNext [v]) parents)
  | .arrValue vs :: parents => some (.inside (.arrNext (vs ++ [v])) parents)
  | _ => none

def scalar : Token → Option Value
  | .str s => some (.str s)
  | .num w => some (.num w)
  | .true => some (.bool true)
  | .false => some (.bool false)
  | .null => some .null
  | _ => none

/-- The first token of a value. -/
def begin (parents : List Frame) : Token → Option Parser
  | .lbrace => some (.inside .objOpen parents)
  | .lbracket => some (.inside .arrOpen parents)
  | t => (scalar t).bind fun v => complete v parents

def Parser.step : Parser → Token → Option Parser
  | .start, t => begin [] t
  | .inside .objOpen parents, .rbrace => complete (.obj []) parents
  | .inside .objOpen parents, .str k => some (.inside (.objColon [] k) parents)
  | .inside (.objKey ms) parents, .str k => some (.inside (.objColon ms k) parents)
  | .inside (.objColon ms k) parents, .colon => some (.inside (.objValue ms k) parents)
  | .inside (.objValue ms k) parents, t => begin (.objValue ms k :: parents) t
  | .inside (.objNext ms) parents, .comma => some (.inside (.objKey ms) parents)
  | .inside (.objNext ms) parents, .rbrace => complete (.obj ms) parents
  | .inside .arrOpen parents, .rbracket => complete (.arr []) parents
  | .inside .arrOpen parents, t => begin (.arrOpen :: parents) t
  | .inside (.arrValue vs) parents, t => begin (.arrValue vs :: parents) t
  | .inside (.arrNext vs) parents, .comma => some (.inside (.arrValue vs) parents)
  | .inside (.arrNext vs) parents, .rbracket => complete (.arr vs) parents
  | _, _ => none

def Parser.value : Parser → Option Value
  | .done v => some v
  | _ => none

/-- The value of a sequence of tokens. -/
def parseTokens (ts : List Token) : Option Value :=
  (Machine.run Parser.step .start ts).bind Parser.value

/-- `JSON.parse`; `none` is a `SyntaxError`. -/
def parse (us : List UInt16) : Option Value := (lex us).bind parseTokens

/-! ### Members are adjacent tokens -/

/-- Somewhere in the value an object has the string member `k : s`. -/
inductive HasMember (k s : List UInt16) : Value → Prop where
  | here {ms : List (Key × Value)} (h : (k, .str s) ∈ ms) : HasMember k s (.obj ms)
  | member {ms : List (Key × Value)} {k' : Key} {v : Value} (h : (k', v) ∈ ms)
      (inner : HasMember k s v) : HasMember k s (.obj ms)
  | elem {vs : List Value} {v : Value} (h : v ∈ vs) (inner : HasMember k s v) :
      HasMember k s (.arr vs)

/-- Every string member of the value is to be seen among the tokens `ts`. -/
def Within (ts : List Token) (v : Value) : Prop :=
  ∀ k s, HasMember k s v → [.str k, .colon, .str s] <:+: ts

theorem Within.append {ts : List Token} {v : Value} (h : Within ts v) (ts' : List Token) :
    Within (ts ++ ts') v :=
  fun k s member => (h k s member).trans (List.prefix_append ts ts').isInfix

theorem within_scalar {t : Token} {v : Value} (h : scalar t = some v) (ts : List Token) :
    Within ts v := by
  intro k s member
  cases member <;> cases t <;> cases h

theorem within_empty (ts : List Token) : Within ts (.obj []) ∧ Within ts (.arr []) := by
  constructor
  · intro k s member
    cases member with
    | here h => cases h
    | member h => cases h
  · intro k s member
    cases member with
    | elem h => cases h

theorem within_obj_snoc {ts : List Token} {ms : List (Key × Value)} {k : Key} {v : Value}
    (hms : Within ts (.obj ms)) (hv : Within ts v)
    (adjacent : ∀ s, v = .str s → [.str k, .colon, .str s] <:+: ts) :
    Within ts (.obj (ms ++ [(k, v)])) := by
  intro k' s' member
  cases member with
  | here h =>
      rcases List.mem_append.mp h with h | h
      · exact hms k' s' (.here h)
      · obtain ⟨rfl, hs⟩ := Prod.mk.inj (List.mem_singleton.mp h)
        exact adjacent s' hs.symm
  | member h inner =>
      rcases List.mem_append.mp h with h | h
      · exact hms k' s' (.member h inner)
      · obtain ⟨-, rfl⟩ := Prod.mk.inj (List.mem_singleton.mp h)
        exact hv k' s' inner

theorem within_arr_snoc {ts : List Token} {vs : List Value} {v : Value}
    (hvs : Within ts (.arr vs)) (hv : Within ts v) : Within ts (.arr (vs ++ [v])) := by
  intro k s member
  cases member with
  | elem h inner =>
      rcases List.mem_append.mp h with h | h
      · exact hvs k s (.elem h inner)
      · rw [List.mem_singleton.mp h] at inner
        exact hv k s inner

/-- What a container holds so far. -/
def Frame.value : Frame → Value
  | .objOpen => .obj []
  | .objKey ms | .objColon ms _ | .objValue ms _ | .objNext ms => .obj ms
  | .arrOpen => .arr []
  | .arrValue vs | .arrNext vs => .arr vs

/-- The last tokens read, where a key is pending. -/
def Frame.Ends (ts : List Token) : Frame → Prop
  | .objColon _ k => [.str k] <:+ ts
  | .objValue _ k => [.str k, .colon] <:+ ts
  | _ => True

/-- The invariant of the parser after the tokens `ts`. -/
def Reads (ts : List Token) : Parser → Prop
  | .start => True
  | .inside f parents => f.Ends ts ∧ ∀ g ∈ f :: parents, Within ts g.value
  | .done v => Within ts v

theorem complete_reads {ts : List Token} {v : Value} {parents : List Frame} {p : Parser}
    (h : complete v parents = some p) (hv : Within ts v)
    (hparents : ∀ g ∈ parents, Within ts g.value)
    (adjacent : ∀ ms k rest s, parents = .objValue ms k :: rest → v = .str s →
      [.str k, .colon, .str s] <:+: ts) : Reads ts p := by
  cases parents with
  | nil =>
      obtain rfl := Option.some.inj h
      exact hv
  | cons f rest =>
      obtain ⟨hf, hrest⟩ := List.forall_mem_cons.mp hparents
      cases f with
      | objValue ms k =>
          obtain rfl := Option.some.inj h
          refine ⟨trivial, List.forall_mem_cons.mpr ⟨within_obj_snoc hf hv ?_, hrest⟩⟩
          exact fun s hs => adjacent ms k rest s rfl hs
      | arrOpen =>
          obtain rfl := Option.some.inj h
          exact ⟨trivial, List.forall_mem_cons.mpr ⟨within_arr_snoc hf hv, hrest⟩⟩
      | arrValue vs =>
          obtain rfl := Option.some.inj h
          exact ⟨trivial, List.forall_mem_cons.mpr ⟨within_arr_snoc hf hv, hrest⟩⟩
      | objOpen | objKey | objColon | objNext | arrNext => cases h

/-- A value begins: only a string directly after `key :` becomes a string member. -/
theorem begin_reads {ts : List Token} {t : Token} {parents : List Frame} {p : Parser}
    (h : begin parents t = some p) (hparents : ∀ g ∈ parents, Within ts g.value)
    (key : ∀ ms k rest, parents = .objValue ms k :: rest → [.str k, .colon] <:+ ts) :
    Reads (ts ++ [t]) p := by
  have later : ∀ g ∈ parents, Within (ts ++ [t]) g.value :=
    fun g hg => (hparents g hg).append [t]
  have opened : ∀ f : Frame, f.Ends (ts ++ [t]) → Within (ts ++ [t]) f.value →
      Reads (ts ++ [t]) (.inside f parents) :=
    fun f hends hf => ⟨hends, List.forall_mem_cons.mpr ⟨hf, later⟩⟩
  have scalars : ∀ v, scalar t = some v → complete v parents = some p →
      Reads (ts ++ [t]) p := by
    intro v hscalar hcomplete
    apply complete_reads hcomplete (within_scalar hscalar _) later
    rintro ms k rest s rfl rfl
    obtain ⟨pre, hpre⟩ := key ms k rest rfl
    cases t <;> cases hscalar
    exact ⟨pre, [], by rw [← hpre]; simp⟩
  cases t with
  | lbrace =>
      obtain rfl := Option.some.inj h
      exact opened .objOpen trivial (within_empty _).1
  | lbracket =>
      obtain rfl := Option.some.inj h
      exact opened .arrOpen trivial (within_empty _).2
  | str | num | true | false | null => exact scalars _ rfl h
  | rbrace | rbracket | colon | comma => cases h

/-- One token keeps the invariant. -/
theorem step_reads {ts : List Token} {t : Token} {p p' : Parser} (reads : Reads ts p)
    (h : p.step t = some p') : Reads (ts ++ [t]) p' := by
  cases p with
  | start => exact begin_reads h nofun nofun
  | done v => cases h
  | inside f parents =>
      obtain ⟨hends, hframes⟩ := reads
      obtain ⟨hf, hparents⟩ := List.forall_mem_cons.mp hframes
      have laterParents : ∀ g ∈ parents, Within (ts ++ [t]) g.value :=
        fun g hg => (hparents g hg).append [t]
      -- the container itself goes on to `g`, holding what it held
      have moves : ∀ g : Frame, g.value = f.value → g.Ends (ts ++ [t]) →
          Reads (ts ++ [t]) (.inside g parents) := by
        intro g hvalue hg
        refine ⟨hg, List.forall_mem_cons.mpr ⟨?_, laterParents⟩⟩
        rw [hvalue]
        exact hf.append [t]
      -- the container is closed
      have closes : ∀ ms, f.value = .obj ms → complete (.obj ms) parents = some p' →
          Reads (ts ++ [t]) p' := by
        intro ms hvalue hcomplete
        exact complete_reads hcomplete (hvalue ▸ hf.append [t]) laterParents nofun
      have closesArr : ∀ vs, f.value = .arr vs → complete (.arr vs) parents = some p' →
          Reads (ts ++ [t]) p' := by
        intro vs hvalue hcomplete
        exact complete_reads hcomplete (hvalue ▸ hf.append [t]) laterParents nofun
      cases f with
      | objOpen =>
          cases t with
          | rbrace => exact closes [] rfl h
          | str k =>
              obtain rfl := Option.some.inj h
              exact moves _ rfl (List.suffix_append ..)
          | _ => cases h
      | objKey ms =>
          cases t with
          | str k =>
              obtain rfl := Option.some.inj h
              exact moves _ rfl (List.suffix_append ..)
          | _ => cases h
      | objColon ms k =>
          cases t with
          | colon =>
              obtain rfl := Option.some.inj h
              obtain ⟨pre, rfl⟩ := hends
              exact moves _ rfl ⟨pre, by simp⟩
          | _ => cases h
      | objValue ms k =>
          apply begin_reads h hframes
          rintro ms' k' rest heq
          cases heq
          exact hends
      | objNext ms =>
          cases t with
          | comma =>
              obtain rfl := Option.some.inj h
              exact moves _ rfl trivial
          | rbrace => exact closes ms rfl h
          | _ => cases h
      | arrOpen =>
          by_cases closing : t = .rbracket
          · subst closing
            exact closesArr [] rfl h
          · have value : begin (.arrOpen :: parents) t = some p' := by
              cases t <;> first | exact h | exact absurd rfl closing
            exact begin_reads value hframes nofun
      | arrValue vs => exact begin_reads h hframes nofun
      | arrNext vs =>
          cases t with
          | comma =>
              obtain rfl := Option.some.inj h
              exact moves _ rfl trivial
          | rbracket => exact closesArr vs rfl h
          | _ => cases h

/-- And so do all of them. -/
theorem run_reads {ts ts' : List Token} {p p' : Parser} (reads : Reads ts p)
    (h : Machine.run Parser.step p ts' = some p') : Reads (ts ++ ts') p' := by
  induction ts' generalizing ts p with
  | nil =>
      obtain rfl := Option.some.inj h
      rwa [List.append_nil]
  | cons t ts' ih =>
      obtain ⟨q, hstep, hrest⟩ := Machine.run_cons_eq_some.mp h
      rw [List.append_cons]
      exact ih (step_reads reads hstep) hrest

theorem parseTokens_member {ts : List Token} {v : Value} {k s : List UInt16}
    (h : parseTokens ts = some v) (member : HasMember k s v) :
    [.str k, .colon, .str s] <:+: ts := by
  obtain ⟨p, hrun, hvalue⟩ := Option.bind_eq_some_iff.mp h
  have init : Reads [] .start := trivial
  have reads : Reads ts p := run_reads init hrun
  cases p with
  | start | inside => cases hvalue
  | done w =>
      obtain rfl := Option.some.inj hvalue
      exact reads k s member

/-- **Adjacency.** A string member of a parsed value stands in the text as key, colon
and string. -/
theorem parse_member {us : List UInt16} {v : Value} {k s : List UInt16}
    (h : parse us = some v) (member : HasMember k s v) :
    ∃ ts, lex us = some ts ∧ [.str k, .colon, .str s] <:+: ts := by
  obtain ⟨ts, hlex, hparse⟩ := Option.bind_eq_some_iff.mp h
  exact ⟨ts, hlex, parseTokens_member hparse member⟩

/-- A property read from an object is one of its members. -/
theorem mem_of_get {ms : List (Key × Value)} {k : Key} {v : Value}
    (h : (Value.obj ms).get k = some v) : (k, v) ∈ ms := by
  obtain ⟨l₁, l₂, hsplit, -⟩ := List.lookup_eq_some_iff.mp h
  apply List.mem_reverse.mp
  rw [hsplit]
  exact List.mem_append_right _ List.mem_cons_self

/-! ### Searching the tokens for a member -/

section Search

variable {k s : List UInt16} {t : Token} {ts ts' : List Token}

theorem member_cons (notStr : ∀ k, t ≠ .str k) (h : [.str k, .colon, .str s] <:+: t :: ts) :
    [.str k, .colon, .str s] <:+: ts := by
  rcases List.infix_cons_iff.mp h with h | h
  · exact absurd (List.cons_prefix_cons.mp h).1.symm (notStr k)
  · exact h

theorem str_mem_of_prefix (notStr : ∀ k, t ≠ .str k) (h : [.str s] <+: ts ++ t :: ts') :
    .str s ∈ ts := by
  cases ts with
  | nil => exact absurd (List.cons_prefix_cons.mp h).1.symm (notStr s)
  | cons t₀ ts =>
      rw [(List.cons_prefix_cons.mp h).1]
      exact List.mem_cons_self

/-- A member of two parts that are separated by a comma or a brace lies in one of
them; in the first part its string is not the first token. -/
theorem member_append (notStr : ∀ k, t ≠ .str k) (notColon : t ≠ .colon)
    (h : [.str k, .colon, .str s] <:+: ts ++ t :: ts') :
    .str s ∈ ts.tail ∨ [.str k, .colon, .str s] <:+: ts' := by
  induction ts with
  | nil => exact .inr (member_cons notStr h)
  | cons t₀ ts ih =>
      rcases List.infix_cons_iff.mp h with h | h
      · obtain ⟨-, h⟩ := List.cons_prefix_cons.mp h
        left
        cases ts with
        | nil => exact absurd (List.cons_prefix_cons.mp h).1.symm notColon
        | cons t₁ ts =>
            obtain ⟨-, h⟩ := List.cons_prefix_cons.mp h
            cases ts with
            | nil => exact absurd (List.cons_prefix_cons.mp h).1.symm (notStr s)
            | cons t₂ ts =>
                obtain ⟨rfl, -⟩ := List.cons_prefix_cons.mp h
                exact List.mem_cons_of_mem _ List.mem_cons_self
      · rcases ih h with h | h
        · exact .inl (List.mem_of_mem_tail h)
        · exact .inr h

end Search

end JsonText
