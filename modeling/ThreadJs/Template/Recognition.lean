import Mathlib.Data.List.DropRight
import ThreadJs.Template.Parse

/-!
Which placeholders `parse` recognises (`lib/parse.js`).

`occurrences` lists the placeholders of a template as a reader sees them: the leftmost
`${name}` that do not overlap. `parse` differs in two points. A `$` uses up the character
after it, so that a placeholder after an odd number of `$` is missed; and a name that every
object inherits counts as taken. `recognised_iff` says that these are the only two.
-/

namespace ThreadJs.Template

open Js Piece

/-! ### The placeholders of a template -/

/-- The name of the placeholder with which a text begins; it goes up to the next `}`. -/
def placeholderName : Text → Option Text
  | c :: d :: rest =>
      if c = dollar ∧ d = opening ∧ closing ∈ rest then some (rest.takeWhile (· != closing))
      else none
  | _ => none

/-- The placeholders from here on, each with the text between it and the one before it.
`before` has been read of that text, and `skip` characters belong to a placeholder that has
been found. -/
def occurrencesFrom : (before : Text) → (skip : Nat) → Text → List (Text × Text)
  | _, _, [] => []
  | before, skip + 1, _ :: rest => occurrencesFrom before skip rest
  | before, 0, c :: rest =>
      match placeholderName (c :: rest) with
      | some name => (before, name) :: occurrencesFrom [] (name.length + 2) rest
      | none => occurrencesFrom (before ++ [c]) 0 rest

def occurrences (template : Text) : List (Text × Text) := occurrencesFrom [] 0 template

/-- A text ends in an even number of `$`. -/
def EvenDollars (before : Text) : Prop := (before.rtakeWhile (· == dollar)).length % 2 = 0

instance (before : Text) : Decidable (EvenDollars before) :=
  inferInstanceAs (Decidable (_ = _))

/-- The names that every object inherits. -/
def inherited : List Text := objectPrototype.map units

section Stop

variable (bad : (seen : List Text) → Text → Bool)

/-- The placeholders up to the first with a bad name, which is one of them. -/
def upTo : (seen : List Text) → List (Text × Text) → List (Text × Text)
  | _, [] => []
  | seen, o :: os => o :: if bad seen o.2 then [] else upTo (seen ++ [o.2]) os

def stops : (seen : List Text) → List (Text × Text) → Bool
  | _, [] => false
  | seen, o :: os => bad seen o.2 || stops (seen ++ [o.2]) os

end Stop

theorem upTo_eq_self {bad : (seen : List Text) → Text → Bool} {seen : List Text}
    {os : List (Text × Text)} (h : stops bad seen os = false) : upTo bad seen os = os := by
  induction os generalizing seen with
  | nil => rfl
  | cons o os ih =>
      obtain ⟨good, rest⟩ := Bool.or_eq_false_iff.mp h
      rw [upTo, good, ih rest]
      rfl

def repeated (seen : List Text) (name : Text) : Bool := seen.contains name

theorem stops_repeated {seen : List Text} (os : List (Text × Text)) (distinct : seen.Nodup) :
    stops repeated seen os = true ↔ ¬ (seen ++ os.map Prod.snd).Nodup := by
  induction os generalizing seen with
  | nil => simp [stops, distinct]
  | cons o os ih =>
      by_cases old : o.2 ∈ seen
      · have twice : ¬ (seen ++ (o :: os).map Prod.snd).Nodup := by
          intro h
          rw [List.nodup_append] at h
          exact h.2.2 o.2 old o.2 List.mem_cons_self rfl
        have now : stops repeated seen (o :: os) = true := by simp [stops, repeated, old]
        exact iff_of_true now twice
      · have more : (seen ++ [o.2]).Nodup := by
          rw [List.nodup_append]
          simp [distinct]
          intro a ha same
          exact old (same ▸ ha)
        have next : stops repeated seen (o :: os) = stops repeated (seen ++ [o.2]) os := by
          simp [stops, repeated, old]
        rw [next, ih more, List.append_assoc]
        rfl

/-! ### What the loop comes upon -/

/-- The placeholders that the loop comes upon, up to its end or to the one that it throws
at, each with the literal that has been cut off before it. -/
def Scanner.finds (template : Text) : Scanner → Nat → Text → List (Text × Text)
  | _, _, [] => []
  | p, i, c :: rest =>
      let here :=
        if p.state = .name ∧ c = closing then
          [(p.parsedcode.getLast?.join.getD [], substring template p.be i)]
        else []
      match p.turn template c i with
      | .error _ => here
      | .ok q => here ++ q.finds template (i + 1) rest

def finds (template : Text) : List (Text × Text) :=
  Scanner.finds template ⟨⟨[], []⟩, .text, 0⟩ 0 template

/-- The placeholders of the tables. -/
def Parsed.found (p : Parsed) : List (Text × Text) :=
  p.nameIndex.map fun entry => (p.parsedcode[entry.2 - 1]?.join.getD [], entry.1)

/-- The placeholders of a template are recognised: the loop comes upon them, up to the
first whose name has been there before; if there is none, they are in the tables, and
otherwise the template is refused. -/
structure Recognised (template : Text) : Prop where
  finds : finds template = upTo repeated [] (occurrences template)
  tables : ∀ p, parse template = .ok p → p.found = occurrences template
  conflict : (∃ name, parse template = .error (units "变量冲突 " ++ name)) ↔
    ¬ ((occurrences template).map Prod.snd).Nodup

/-- The placeholders for a reader to whom a `$` uses up the character after it. -/
def reading : Scan → (before name : Text) → Text → List (Text × Text)
  | _, _, _, [] => []
  | .text, before, name, c :: rest =>
      if c = dollar then reading .dollar before name rest
      else reading .text (before ++ [c]) name rest
  | .dollar, before, _, c :: rest =>
      if c = opening then reading .name before [] rest
      else reading .text (before ++ [dollar, c]) [] rest
  | .name, before, name, c :: rest =>
      if c = closing then (before, name) :: reading .text [] [] rest
      else reading .name before (name ++ [c]) rest

/-- A name that `parse` refuses. -/
def refused (seen : List Text) (name : Text) : Bool := seen.contains name || inherited.contains name

def Parsed.names (p : Parsed) : List Text := p.nameIndex.map Prod.fst

theorem Parsed.taken_eq_refused {p : Parsed} (indices : ∀ e ∈ p.nameIndex, e.2 ≠ 0)
    (name : Text) : p.taken name = refused p.names name := by
  rw [Parsed.taken, refused]
  cases found : p.nameIndex.lookup name with
  | some idx =>
      obtain ⟨front, back, split, -⟩ := List.lookup_eq_some_iff.mp found
      have entry : (name, idx) ∈ p.nameIndex := by simp [split]
      have known : p.names.contains name = true :=
        List.contains_iff_mem.mpr (List.mem_map_of_mem entry)
      rw [known, Bool.true_or]
      exact bne_iff_ne.mpr (indices _ entry)
  | none =>
      have unknown : p.names.contains name = false := by
        rw [← Bool.not_eq_true, List.contains_iff_mem]
        intro known
        obtain ⟨entry, mem, rfl⟩ := List.mem_map.mp known
        simpa using List.lookup_eq_none_iff.mp found entry mem
      rw [unknown, Bool.false_or]
      rfl

/-- The pieces that a scanner has cut when it has found these placeholders. -/
def piecesOf (os : List (Text × Text)) : List Piece :=
  os.flatMap fun o => [.literal o.1, .hole o.2]

theorem holes_literals (k : Nat) (ts : List Text) : holes k (ts.map .literal) = [] := by
  induction ts generalizing k with
  | nil => rfl
  | cons t ts ih => exact ih (k + 1)

theorem holes_piecesOf (k : Nat) (o : Text × Text) (os : List (Text × Text)) :
    holes k (piecesOf (o :: os)) = (o.2, k + 1) :: holes (k + 2) (piecesOf os) := rfl

namespace Parsed.Shows

variable {p : Parsed} {os : List (Text × Text)} {ts : List Text}

theorem nameIndex_eq (cut : p.Shows (piecesOf os ++ ts.map .literal)) :
    p.nameIndex = holes 0 (piecesOf os) := by
  rw [cut.names, holes_append, holes_literals, List.append_nil]

theorem names_eq (cut : p.Shows (piecesOf os ++ ts.map .literal)) :
    p.names = os.map Prod.snd := by
  have all (os : List (Text × Text)) (k : Nat) :
      (holes k (piecesOf os)).map Prod.fst = os.map Prod.snd := by
    induction os generalizing k with
    | nil => rfl
    | cons o os ih => rw [holes_piecesOf, List.map_cons, ih, List.map_cons]
  rw [Parsed.names, cut.nameIndex_eq, all]

theorem indices (cut : p.Shows (piecesOf os ++ ts.map .literal)) :
    ∀ e ∈ p.nameIndex, e.2 ≠ 0 := by
  have all (os : List (Text × Text)) (k : Nat) : ∀ e ∈ holes k (piecesOf os), e.2 ≠ 0 := by
    induction os generalizing k with
    | nil => simp [piecesOf, holes]
    | cons o os ih =>
        rw [holes_piecesOf]
        intro e he
        rcases List.mem_cons.mp he with rfl | later
        · exact Nat.succ_ne_zero k
        · exact ih _ e later
  rw [cut.nameIndex_eq]
  exact all os 0

theorem found_eq (cut : p.Shows (piecesOf os ++ ts.map .literal)) : p.found = os := by
  have all (os : List (Text × Text)) (front back : List (Option Text)) :
      (holes front.length (piecesOf os)).map (fun entry =>
        (((front ++ (piecesOf os).map slot ++ back)[entry.2 - 1]?).join.getD [], entry.1)) =
          os := by
    induction os generalizing front with
    | nil => rfl
    | cons o os ih =>
        have rest := ih (front ++ [some o.1, none])
        have here : (front ++ (piecesOf (o :: os)).map slot ++ back)[front.length]? =
            some (some o.1) := by
          simp [piecesOf, slot]
        have split : front ++ (piecesOf (o :: os)).map slot ++ back =
            front ++ [some o.1, none] ++ (piecesOf os).map slot ++ back := by
          simp [piecesOf, slot]
        rw [List.length_append] at rest
        rw [holes_piecesOf, List.map_cons, Nat.add_sub_cancel, here, split]
        exact congrArg _ rest
  rw [Parsed.found, cut.nameIndex_eq, cut.slots, List.map_append]
  exact all os [] _

theorem unique {ps qs : List Piece} (left : p.Shows ps) (right : p.Shows qs) : ps = qs := by
  have all (ps qs : List Piece) (k : Nat) (slots : ps.map slot = qs.map slot)
      (names : holes k ps = holes k qs) : ps = qs := by
    induction ps generalizing qs k with
    | nil => exact (List.map_eq_nil_iff.mp slots.symm).symm
    | cons a ps ih =>
        cases qs with
        | nil => cases slots
        | cons b qs =>
            obtain ⟨here, rest⟩ := List.cons.inj slots
            cases a with
            | literal s =>
                cases b with
                | literal t =>
                    obtain rfl := Option.some.inj here
                    rw [ih qs (k + 1) rest names]
                | hole n => cases here
            | hole m =>
                cases b with
                | literal t => cases here
                | hole n =>
                    obtain ⟨same, later⟩ := List.cons.inj names
                    rw [(Prod.mk.inj same).1, ih qs (k + 1) rest later]
  exact all ps qs 0 (left.slots.symm.trans right.slots) (left.names.symm.trans right.names)

end Parsed.Shows

/-- Where the loop stands when it has read `pre` and found `os`: `before` and `name` are what
a reader has of the literal and of the name. -/
structure Scanner.At (p : Scanner) (os : List (Text × Text)) (pre before name : Text) :
    Prop where
  be : p.be ≤ pre.length
  inText : p.state = .text → pre.drop p.be = before
  afterDollar : p.state = .dollar → pre.drop p.be = before ++ [dollar]
  inName : p.state = .name → pre.drop p.be = name
  tables : p.Shows (piecesOf os ++ (if p.state = .name then [before] else []).map .literal)

namespace Scanner.At

variable {template : Text} {p : Scanner} {os : List (Text × Text)} {pre rest before name : Text}

theorem start : Scanner.At ⟨⟨[], []⟩, .text, 0⟩ [] [] [] [] where
  be := Nat.le_refl _
  inText := fun _ => rfl
  afterDollar := by simp
  inName := by simp
  tables := ⟨rfl, rfl⟩

/-- A turn that closes no placeholder keeps the loop in step with a reader. -/
theorem turn {c : UInt16} (stands : p.At os pre before name) (whole : template = pre ++ c :: rest)
    (within : ¬ (p.state = .name ∧ c = closing)) :
    ∃ q before' name', p.turn template c pre.length = .ok q ∧
      q.At os (pre ++ [c]) before' name' ∧
      reading p.state before name (c :: rest) = reading q.state before' name' rest := by
  have longer : p.be ≤ (pre ++ [c]).length := by
    have := stands.be
    simp
    omega
  have ends : (pre ++ [c]).drop p.be = pre.drop p.be ++ [c] :=
    List.drop_append_of_le_length stands.be
  have tables := stands.tables
  cases state : p.state with
  | text =>
      have text := stands.inText state
      rw [state] at tables
      by_cases isDollar : c = dollar
      · refine ⟨{ p with state := .dollar }, before, name, ?_, ?_, ?_⟩
        · simp [Scanner.turn, state, isDollar]
        · refine ⟨longer, by simp, fun _ => ?_, by simp, tables⟩
          rw [ends, text, isDollar]
        · simp [reading, isDollar]
      · refine ⟨p, before ++ [c], name, ?_, ?_, ?_⟩
        · simp [Scanner.turn, state, isDollar]
        · refine ⟨longer, fun _ => ?_, by simp [state], by simp [state], state ▸ tables⟩
          rw [ends, text]
        · simp [reading, isDollar, state]
  | dollar =>
      have text := stands.afterDollar state
      rw [state] at tables
      by_cases isOpening : c = opening
      · have cut : substring template p.be (pre.length - 1) = before := by
          have length := congrArg List.length text
          simp only [List.length_drop, List.length_append, List.length_singleton] at length
          have le : p.be ≤ pre.length - 1 := by omega
          have short : pre.length - 1 - p.be = before.length := by omega
          rw [substring, Nat.max_eq_right le, Nat.min_eq_left le, whole,
            List.take_append_of_le_length (Nat.sub_le _ 1), List.drop_take, short, text,
            List.take_left]
        refine ⟨{ p with
          parsedcode := p.parsedcode ++ [some before]
          state := .name
          be := pre.length + 1 }, before, [], ?_, ?_, ?_⟩
        · simp [Scanner.turn, state, isOpening, cut]
        · have cut := tables.literal before
          rw [if_neg (by simp), List.map_nil, List.append_nil] at cut
          exact ⟨by simp, by simp, by simp, fun _ => by simp, cut⟩
        · simp [reading, isOpening]
      · refine ⟨{ p with state := .text }, before ++ [dollar, c], [], ?_, ?_, ?_⟩
        · simp [Scanner.turn, state, isOpening]
        · refine ⟨longer, fun _ => ?_, by simp, by simp, tables⟩
          rw [ends, text, List.append_assoc]
          rfl
        · simp [reading, isOpening]
  | name =>
      have text := stands.inName state
      have other : c ≠ closing := fun h => within ⟨state, h⟩
      refine ⟨p, before, name ++ [c], ?_, ?_, ?_⟩
      · simp [Scanner.turn, state, other]
      · refine ⟨longer, by simp [state], by simp [state], fun _ => ?_, tables⟩
        rw [ends, text]
      · simp [reading, other, state]

/-- A turn that closes a placeholder puts it into the tables, unless its name is refused. -/
theorem turn_closing (stands : p.At os pre before name)
    (whole : template = pre ++ closing :: rest) (state : p.state = .name) :
    p.parsedcode.getLast?.join.getD [] = before ∧ substring template p.be pre.length = name ∧
      (refused (os.map Prod.snd) name = true →
        p.turn template closing pre.length = .error (units "变量冲突 " ++ name)) ∧
      (refused (os.map Prod.snd) name = false → ∃ q, p.turn template closing pre.length = .ok q ∧
        q.At (os ++ [(before, name)]) (pre ++ [closing]) [] [] ∧ q.state = .text) := by
  have tables := stands.tables
  have cut : substring template p.be pre.length = name := by
    rw [whole, substring_append stands.be, stands.inName state]
  have taken : p.taken name = refused (os.map Prod.snd) name := by
    rw [Parsed.taken_eq_refused tables.indices, tables.names_eq]
  rw [if_pos state] at tables
  refine ⟨?_, cut, fun no => ?_, fun yes => ?_⟩
  · rw [tables.slots]
    simp [slot]
  · simp [Scanner.turn, state, cut, taken, no]
  · refine ⟨⟨⟨p.parsedcode ++ [none], p.nameIndex ++ [(name, p.parsedcode.length)]⟩, .text,
      pre.length + 1⟩, ?_, ?_, rfl⟩
    · simp [Scanner.turn, state, cut, taken, yes]
    · have pushed := tables.hole name
      have whole : piecesOf os ++ [before].map .literal ++ [.hole name] =
          piecesOf (os ++ [(before, name)]) ++ [].map .literal := by
        simp [piecesOf]
      rw [whole] at pushed
      exact ⟨by simp, fun _ => by simp, by simp, by simp, pushed⟩

/-- The loop to its end or to the placeholder that it throws at. -/
theorem finds (stands : p.At os pre before name) (whole : template = pre ++ rest) :
    p.finds template pre.length rest =
      upTo refused (os.map Prod.snd) (reading p.state before name rest) := by
  induction rest generalizing p os pre before name with
  | nil =>
      have none : reading p.state before name [] = [] := by
        cases p.state <;> rfl
      rw [none]
      rfl
  | cons c rest ih =>
      have next : template = pre ++ [c] ++ rest := by simp [whole]
      rw [Scanner.finds]
      by_cases closes : p.state = .name ∧ c = closing
      · obtain ⟨state, rfl⟩ := closes
        obtain ⟨last, cut, no, yes⟩ := stands.turn_closing whole state
        have read : reading p.state before name (closing :: rest) =
            (before, name) :: reading .text [] [] rest := by
          simp [state, reading]
        rw [read, last, cut, upTo]
        cases known : refused (os.map Prod.snd) name with
        | true => simp [no known, state]
        | false =>
            obtain ⟨q, turn, stands', state'⟩ := yes known
            have rest := ih stands' next
            rw [List.length_append, state', List.map_append] at rest
            simpa [turn, state] using rest
      · obtain ⟨q, before', name', turn, stands', read⟩ := stands.turn whole closes
        have rest := ih stands' next
        rw [List.length_append] at rest
        rw [read]
        simpa [turn, closes] using rest

/-- The loop throws at the first name that is refused, and otherwise cuts the template up as
a reader reads it. -/
theorem scan (stands : p.At os pre before name) (whole : template = pre ++ rest) :
    (stops refused (os.map Prod.snd) (reading p.state before name rest) = true ∧
        ∃ name, p.scan template pre.length rest = .error (units "变量冲突 " ++ name)) ∨
      stops refused (os.map Prod.snd) (reading p.state before name rest) = false ∧
        ∃ q, ∃ ts : List Text, p.scan template pre.length rest = .ok q ∧
          q.Shows (piecesOf (os ++ reading p.state before name rest) ++ ts.map .literal) := by
  induction rest generalizing p os pre before name with
  | nil =>
      have none : reading p.state before name [] = [] := by
        cases p.state <;> rfl
      rw [none, List.append_nil]
      exact .inr ⟨rfl, p, _, rfl, stands.tables⟩
  | cons c rest ih =>
      have next : template = pre ++ [c] ++ rest := by simp [whole]
      rw [Scanner.scan]
      by_cases closes : p.state = .name ∧ c = closing
      · obtain ⟨state, rfl⟩ := closes
        obtain ⟨-, -, no, yes⟩ := stands.turn_closing whole state
        have read : reading p.state before name (closing :: rest) =
            (before, name) :: reading .text [] [] rest := by
          simp [state, reading]
        rw [read, stops]
        cases known : refused (os.map Prod.snd) name with
        | true =>
            rw [no known]
            exact .inl ⟨rfl, name, rfl⟩
        | false =>
            obtain ⟨q, turn, stands', state'⟩ := yes known
            have rest := ih stands' next
            rw [List.length_append, state', List.map_append, List.append_assoc] at rest
            rw [turn]
            exact rest
      · obtain ⟨q, before', name', turn, stands', read⟩ := stands.turn whole closes
        have rest := ih stands' next
        rw [List.length_append] at rest
        rw [read, turn]
        exact rest

end Scanner.At

theorem finds_eq (template : Text) :
    finds template = upTo refused [] (reading .text [] [] template) :=
  Scanner.At.start.finds (List.nil_append template).symm

/-- `parse` refuses a template at the first refused name, and otherwise cuts it up as a reader
reads it, with nothing but text after the last placeholder. -/
theorem parse_shows (template : Text) :
    (stops refused [] (reading .text [] [] template) = true ∧
        ∃ name, parse template = .error (units "变量冲突 " ++ name)) ∨
      stops refused [] (reading .text [] [] template) = false ∧
        ∃ p, ∃ ts : List Text, parse template = .ok p ∧
          p.Shows (piecesOf (reading .text [] [] template) ++ ts.map .literal) := by
  unfold parse
  rcases Scanner.At.start.scan (List.nil_append template).symm with
    ⟨stop, name, scan⟩ | ⟨go, q, ts, scan, cut⟩
  · change Scanner.scan _ _ 0 _ = _ at scan
    rw [scan]
    exact .inl ⟨stop, name, rfl⟩
  · change Scanner.scan _ _ 0 _ = _ at scan
    rw [scan]
    apply Or.inr
    by_cases more : q.be < template.length
    · refine ⟨go, _, ts ++ [substring template q.be template.length], rfl, ?_⟩
      rw [if_pos more, List.map_append, ← List.append_assoc]
      exact cut.literal _
    · refine ⟨go, _, ts, rfl, ?_⟩
      rw [if_neg more]
      exact cut

theorem parse_refuses (template : Text) :
    (∃ name, parse template = .error (units "变量冲突 " ++ name)) ↔
      stops refused [] (reading .text [] [] template) = true := by
  rcases parse_shows template with ⟨stop, refusal⟩ | ⟨go, p, ts, accepted, -⟩
  · exact iff_of_true refusal stop
  · rw [accepted, go]
    simp

/-! ### The two readings -/

theorem evenDollars_append_dollar (before : Text) :
    EvenDollars (before ++ [dollar]) ↔ ¬ EvenDollars before := by
  rw [EvenDollars, EvenDollars, List.rtakeWhile_concat_pos (· == dollar) _ _ (by simp),
    List.length_append, List.length_singleton]
  omega

theorem evenDollars_append_of_ne (before : Text) {c : UInt16} (h : c ≠ dollar) :
    EvenDollars (before ++ [c]) := by
  rw [EvenDollars, List.rtakeWhile_concat_neg _ _ _ (by simpa using h)]
  rfl

/-- What is read contains what there was before. -/
theorem length_le_reading (state : Scan) (before name text : Text) :
    ∀ r ∈ (reading state before name text).head?, before.length ≤ r.1.length := by
  induction text generalizing state before name with
  | nil => cases state <;> simp [reading]
  | cons c text ih =>
      intro r hr
      cases state with
      | text =>
          rw [reading] at hr
          split at hr
          · exact ih _ _ _ r hr
          · have := ih _ _ _ r hr
            rw [List.length_append] at this
            omega
      | dollar =>
          rw [reading] at hr
          split at hr
          · exact ih _ _ _ r hr
          · have := ih _ _ _ r hr
            rw [List.length_append] at this
            omega
      | name =>
          rw [reading] at hr
          split at hr
          · simp at hr
            rw [← hr]
          · exact ih _ _ _ r hr

theorem takeWhile_closing {text : Text} (closes : closing ∈ text) :
    ∃ rest, text = text.takeWhile (· != closing) ++ closing :: rest := by
  induction text with
  | nil => cases closes
  | cons c text ih =>
      by_cases isClosing : c = closing
      · exact ⟨text, by simp [isClosing]⟩
      · have later : closing ∈ text := by simpa [Ne.symm isClosing] using closes
        obtain ⟨rest, split⟩ := ih later
        refine ⟨rest, ?_⟩
        rw [List.takeWhile_cons_of_pos (by simpa using isClosing), List.cons_append, ← split]

theorem placeholderName_eq_some {text name : Text} (found : placeholderName text = some name) :
    closing ∉ name ∧ ∃ rest, text = dollar :: opening :: (name ++ closing :: rest) := by
  unfold placeholderName at found
  split at found
  · next c d rest =>
      split at found
      · next opens =>
          obtain ⟨rfl, rfl, closes⟩ := opens
          obtain rfl := Option.some.inj found
          obtain ⟨after, split⟩ := takeWhile_closing closes
          refine ⟨fun h => ?_, after, ?_⟩
          · simpa using List.mem_takeWhile_imp h
          · rw [← split]
      · cases found
  · cases found

theorem placeholderName_eq_none {text : Text} (h : closing ∉ text) :
    placeholderName text = none := by
  unfold placeholderName
  split
  · next c d rest =>
      apply if_neg
      rintro ⟨-, -, closes⟩
      exact h (List.mem_cons_of_mem _ (List.mem_cons_of_mem _ closes))
  · rfl

/-- Nothing is found without a `}`. -/
theorem occurrencesFrom_eq_nil {text : Text} (h : closing ∉ text) (before : Text) :
    occurrencesFrom before 0 text = [] := by
  induction text generalizing before with
  | nil => rfl
  | cons c text ih =>
      rw [occurrencesFrom, placeholderName_eq_none h]
      exact ih (List.not_mem_of_not_mem_cons h) _

theorem reading_name_eq_nil {text : Text} (h : closing ∉ text) (before name : Text) :
    reading .name before name text = [] := by
  induction text generalizing name with
  | nil => rfl
  | cons c text ih =>
      obtain ⟨other, h⟩ := List.ne_and_not_mem_of_not_mem_cons h
      rw [reading, if_neg (Ne.symm other), ih h]

/-- The placeholder that has been found is passed over. -/
theorem occurrencesFrom_skip (before text rest : Text) :
    occurrencesFrom before text.length (text ++ rest) = occurrencesFrom before 0 rest := by
  induction text with
  | nil => rfl
  | cons c text ih => rw [List.length_cons, List.cons_append, occurrencesFrom, ih]

theorem reading_name {name : Text} (within : closing ∉ name) (before read rest : Text) :
    reading .name before read (name ++ closing :: rest) =
      (before, read ++ name) :: reading .text [] [] rest := by
  induction name generalizing read with
  | nil => simp [reading]
  | cons c name ih =>
      obtain ⟨other, within⟩ := List.ne_and_not_mem_of_not_mem_cons within
      rw [List.cons_append, reading, if_neg (Ne.symm other), ih within, List.append_assoc]
      rfl

/-- A reading goes along with the placeholders of a template until it misses one. -/
inductive Follows : (occurrences reading : List (Text × Text)) → Prop where
  | nil : Follows [] []
  | same {o os rs} (even : EvenDollars o.1) (rest : Follows os rs) : Follows (o :: os) (o :: rs)
  | missed {o os rs} (odd : ¬ EvenDollars o.1) (other : ∀ r ∈ rs.head?, r ≠ o) :
      Follows (o :: os) rs

theorem occurrencesFrom_placeholder {text name rest : Text} (before : Text)
    (found : placeholderName text = some name)
    (split : text = dollar :: opening :: (name ++ closing :: rest)) :
    occurrencesFrom before 0 text = (before, name) :: occurrences rest := by
  have whole : opening :: (name ++ closing :: rest) = (opening :: name ++ [closing]) ++ rest := by
    simp
  have length : name.length + 2 = (opening :: name ++ [closing]).length := by simp
  rw [split] at found ⊢
  rw [occurrencesFrom, found]
  change (before, name) :: occurrencesFrom [] (name.length + 2) _ = _
  rw [length, whole, occurrencesFrom_skip]
  rfl

theorem Follows.eq_of_even {os rs : List (Text × Text)} (follows : Follows os rs)
    (even : ∀ o ∈ os, EvenDollars o.1) : rs = os := by
  induction follows with
  | nil => rfl
  | same _ _ ih => rw [ih fun o ho => even o (List.mem_cons_of_mem _ ho)]
  | missed odd => exact absurd (even _ List.mem_cons_self) odd

/-- Both readers go through the text together. Where a `$` has just been used, the other
has not found a placeholder that begins with it. -/
theorem follows_from (n : Nat) : ∀ text : Text, text.length ≤ n → ∀ before name : Text,
    EvenDollars before →
      Follows (occurrencesFrom before 0 text) (reading .text before name text) ∧
      (placeholderName (dollar :: text) = none →
        Follows (occurrencesFrom (before ++ [dollar]) 0 text)
          (reading .dollar before name text)) := by
  induction n with
  | zero =>
      intro text short before name even
      obtain rfl := List.length_eq_zero_iff.mp (Nat.le_zero.mp short)
      exact ⟨.nil, fun _ => .nil⟩
  | succ n ih =>
      intro text short before name even
      cases text with
      | nil => exact ⟨.nil, fun _ => .nil⟩
      | cons c rest =>
          have shorter : rest.length ≤ n := Nat.le_of_succ_le_succ short
          cases found : placeholderName (c :: rest) with
          | some given =>
              obtain ⟨within, after, split⟩ := placeholderName_eq_some found
              obtain ⟨rfl, rfl⟩ := List.cons.inj split
              constructor
              · have read : reading .text before name
                    (dollar :: opening :: (given ++ closing :: after)) =
                    (before, given) :: reading .text [] [] after := by
                  simp only [reading, if_true]
                  exact reading_name within before [] after
                have less : after.length ≤ n := by
                  simp at short
                  omega
                rw [read, occurrencesFrom_placeholder before found rfl]
                exact .same even (ih after less [] [] rfl).1
              · intro _
                rw [occurrencesFrom_placeholder _ found rfl]
                refine .missed (fun h => (evenDollars_append_dollar before).mp h even) ?_
                intro r hr same
                have used : reading .dollar before name
                    (dollar :: opening :: (given ++ closing :: after)) =
                    reading .text (before ++ [dollar, dollar]) []
                      (opening :: (given ++ closing :: after)) := rfl
                rw [used] at hr
                have long := length_le_reading _ _ _ _ r hr
                rw [same] at long
                simp at long
          | none =>
              have pass : ∀ b, occurrencesFrom b 0 (c :: rest) =
                    occurrencesFrom (b ++ [c]) 0 rest := by
                intro b
                rw [occurrencesFrom, found]
              constructor
              · rw [pass, reading]
                split
                · next isDollar =>
                    subst isDollar
                    exact (ih rest shorter before name even).2 found
                · next other =>
                    exact (ih rest shorter _ name (evenDollars_append_of_ne before other)).1
              · intro before_
                rw [pass, reading]
                split
                · next isOpening =>
                    have unclosed : closing ∉ rest := by
                      intro closes
                      simp [placeholderName, isOpening, closes] at before_
                    rw [occurrencesFrom_eq_nil unclosed, reading_name_eq_nil unclosed]
                    exact .nil
                · have even' : EvenDollars (before ++ [dollar] ++ [c]) := by
                    by_cases isDollar : c = dollar
                    · rw [isDollar, evenDollars_append_dollar, evenDollars_append_dollar]
                      exact not_not.mpr even
                    · exact evenDollars_append_of_ne _ isDollar
                  rw [List.append_assoc] at even' ⊢
                  exact (ih rest shorter _ [] even').1

theorem follows_reading (template : Text) :
    Follows (occurrences template) (reading .text [] [] template) :=
  (follows_from template.length template (Nat.le_refl _) [] [] rfl).1

/-- The list that follows is the same up to the first repeated name exactly if no placeholder
on the way is missed or refused without being a repetition. -/
theorem Follows.upTo_iff {os rs : List (Text × Text)} (follows : Follows os rs)
    {seen : List Text} (own : ∀ name ∈ seen, inherited.contains name = false) :
    (upTo refused seen rs = upTo repeated seen os ∧
        stops refused seen rs = stops repeated seen os) ↔
      ∀ o ∈ upTo repeated seen os, EvenDollars o.1 ∧ inherited.contains o.2 = false := by
  induction follows generalizing seen with
  | nil => simp [upTo, stops]
  | @same o os rs even rest ih =>
      cases common : inherited.contains o.2 with
      | true =>
          have fresh : seen.contains o.2 = false := by
            rw [← Bool.not_eq_true, List.contains_iff_mem]
            intro old
            rw [own _ old] at common
            cases common
          simp only [upTo, stops, repeated, refused, common, fresh, Bool.or_true, if_true,
            Bool.true_or, Bool.false_or, List.cons.injEq, true_and]
          constructor
          · rintro ⟨short, stop⟩
            cases os with
            | nil => cases stop
            | cons o' os => cases short
          · intro all
            have := (all o List.mem_cons_self).2
            rw [common] at this
            cases this
      | false =>
          have agree : refused seen o.2 = repeated seen o.2 := by
            rw [refused, common, Bool.or_false]
            rfl
          simp only [upTo, stops, agree]
          have plain : o.2 ∉ inherited := by
            rw [← List.contains_iff_mem, common]
            simp
          cases old : repeated seen o.2 with
          | true => simp [even, plain]
          | false =>
              have own' : ∀ name ∈ seen ++ [o.2], inherited.contains name = false := by
                intro name mem
                rcases List.mem_append.mp mem with h | h
                · exact own name h
                · rw [List.mem_singleton.mp h, common]
              simpa [even, plain] using ih own'
  | @missed o os rs odd other =>
      constructor
      · rintro ⟨same, -⟩
        cases rs with
        | nil => cases same
        | cons r rs => exact absurd (List.cons.inj same).1 (other r rfl)
      · intro all
        exact absurd (all o List.mem_cons_self).1 odd

/-- **The placeholders of a template are recognised exactly if, up to the first whose name
has been there before, each follows an even number of `$` and has a name of its own**, not
one that every object inherits. -/
theorem recognised_iff (template : Text) :
    Recognised template ↔ ∀ o ∈ upTo repeated [] (occurrences template),
      EvenDollars o.1 ∧ inherited.contains o.2 = false := by
  rw [← (follows_reading template).upTo_iff (by simp), ← finds_eq]
  have distinct := stops_repeated (occurrences template) (List.nodup_nil (α := Text))
  rw [List.nil_append] at distinct
  constructor
  · intro recognised
    have same := recognised.conflict
    rw [parse_refuses, ← distinct] at same
    exact ⟨recognised.finds, Bool.eq_iff_iff.mpr same⟩
  · rintro ⟨finds, stop⟩
    refine ⟨finds, fun p accepted => ?_, by rw [parse_refuses, ← distinct, stop]⟩
    rcases parse_shows template with ⟨-, name, refusal⟩ | ⟨go, q, ts, accepted', cut⟩
    · rw [accepted] at refusal
      cases refusal
    · rw [accepted] at accepted'
      obtain rfl := Except.ok.inj accepted'
      rw [finds_eq, upTo_eq_self go, upTo_eq_self (stop ▸ go)] at finds
      exact cut.found_eq.trans finds

/-- In `$${a}` the second `$` is used up by the first, and `${toString}` is refused for a name
that occurs once. -/
theorem placeholder_missed_and_refused :
    ¬ Recognised (units "$${a}") ∧ ¬ Recognised (units "${toString}") := by
  constructor
  · intro recognised
    have found := recognised.tables _ rfl
    cases found
  · intro recognised
    have once : ((occurrences (units "${toString}")).map Prod.snd).Nodup := by decide
    exact recognised.conflict.mp ⟨units "toString", rfl⟩ once

end ThreadJs.Template
