import ThreadJs.Lib.Js.Object

/-!
Code templates (`lib/parse.js`).

`parse` cuts a template into literals and placeholders `${name}`, and `code` joins them
with the values of the names. A scanner of three states does the cutting. When the
template ends inside a placeholder, the characters `${` have been cut off already and are
lost; otherwise nothing is.
-/

namespace ThreadJs.Template

open Js

/-- A JavaScript string, by its code units. -/
abbrev Text := List UInt16

/-- A string of the source, without surrogates. -/
def units (s : String) : Text := s.toList.map fun c => UInt16.ofNat c.toNat

/-- The characters `$`, `{` and `}`. -/
def dollar : UInt16 := 36

def opening : UInt16 := 123

def closing : UInt16 := 125

/-- `template.substring(a, b)`. -/
def substring (template : Text) (a b : Nat) : Text := (template.take (max a b)).drop (min a b)

/-- `state` in `parse`. -/
inductive Scan where
  | text
  | dollar
  | name
  deriving DecidableEq

structure Parsed where
  /-- `null` stands where a value is to come. -/
  parsedcode : List (Option Text)
  nameIndex : List (Text × Nat)

/-- `name_index[name]` counts as true: an index other than 0, or a property that every
object inherits. -/
def Parsed.taken (p : Parsed) (name : Text) : Bool :=
  match p.nameIndex.lookup name with
  | some idx => idx != 0
  | none => (objectPrototype.map units).contains name

structure Scanner extends Parsed where
  state : Scan
  be : Nat

/-- One turn of the loop in `parse`, at the character `c` of index `i`. -/
def Scanner.turn (template : Text) (p : Scanner) (c : UInt16) (i : Nat) : Except Text Scanner :=
  match p.state with
  | .text => .ok (if c = dollar then { p with state := .dollar } else p)
  | .dollar =>
      if c = opening then
        .ok { p with
          parsedcode := p.parsedcode ++ [some (substring template p.be (i - 1))]
          state := .name
          be := i + 1 }
      else .ok { p with state := .text }
  | .name =>
      if c = closing then
        let name := substring template p.be i
        let idx := p.parsedcode.length
        if p.taken name then .error (units "变量冲突 " ++ name)
        else .ok {
          parsedcode := p.parsedcode ++ [none]
          nameIndex := p.nameIndex ++ [(name, idx)]
          be := i + 1
          state := .text }
      else .ok p

/-- The loop from index `i` on. -/
def Scanner.scan (template : Text) : Scanner → Nat → Text → Except Text Scanner
  | p, _, [] => .ok p
  | p, i, c :: rest => do (← p.turn template c i).scan template (i + 1) rest

def parse (template : Text) : Except Text Parsed := do
  let p ← Scanner.scan template ⟨⟨[], []⟩, .text, 0⟩ 0 template
  return if p.be < template.length then
    { p.toParsed with
      parsedcode := p.parsedcode ++ [some (substring template p.be template.length)] }
  else p.toParsed

/-- The loop in `code`, for one name: a value that is missing or empty is an error. -/
def fill (config : Text → Option Text) (slots : List (Option Text)) (entry : Text × Nat) :
    Except Text (List (Option Text)) :=
  let value := (config entry.1).getD []
  if value = [] then .error (units "模板中的变量未定义: " ++ entry.1)
  else .ok (slots.set entry.2 (some value))

/-- `code`. JavaScript goes through names that are array indices first, which matters only
for the error of a template with several missing values. -/
def Parsed.code (p : Parsed) (config : Text → Option Text) : Except Text Text := do
  return (← p.nameIndex.foldlM (fill config) p.parsedcode).flatMap (Option.getD · [])

/-- The text of a placeholder. -/
def placeholder (name : Text) : Text := units "$\x7b" ++ name ++ units "\x7d"

/-- Every placeholder is closed; `inside` tells whether one is open at the beginning. A
`$` uses up the character after it. -/
def closed : (inside : Bool) → Text → Bool
  | inside, [] => !inside
  | true, c :: rest => closed (c != closing) rest
  | false, [_] => true
  | false, c :: d :: rest =>
      if c = dollar then closed (d == opening) rest
      else closed false (d :: rest)

/-! ### What has been cut -/

/-- A template in pieces. -/
inductive Piece where
  | literal (t : Text)
  | hole (name : Text)

namespace Piece

def slot : Piece → Option Text
  | literal t => some t
  | hole _ => none

def text : Piece → Text
  | literal t => t
  | hole name => placeholder name

/-- The holes with their positions, the first piece being at `k`. -/
def holes : Nat → List Piece → List (Text × Nat)
  | _, [] => []
  | k, literal _ :: ps => holes (k + 1) ps
  | k, hole name :: ps => (name, k) :: holes (k + 1) ps

theorem holes_append (k : Nat) (ps qs : List Piece) :
    holes k (ps ++ qs) = holes k ps ++ holes (k + ps.length) qs := by
  induction ps generalizing k with
  | nil => rfl
  | cons p ps ih =>
      have next : k + (p :: ps).length = k + 1 + ps.length := by
        rw [List.length_cons]
        omega
      cases p with
      | literal t => rw [List.cons_append, holes, holes, ih, next]
      | hole name => rw [List.cons_append, holes, holes, ih, next, List.cons_append]

end Piece

open Piece

structure Parsed.Shows (p : Parsed) (ps : List Piece) : Prop where
  slots : p.parsedcode = ps.map slot
  names : p.nameIndex = holes 0 ps

/-- `code` puts each value into its place. -/
theorem fill_holes {config : Text → Option Text} (ps : List Piece) (done : List (Option Text))
    (bound : ∀ e ∈ holes done.length ps, config e.1 = some (placeholder e.1)) :
    (holes done.length ps).foldlM (fill config) (done ++ ps.map slot) =
      .ok (done ++ ps.map fun p => some p.text) := by
  induction ps generalizing done with
  | nil => rfl
  | cons p ps ih =>
      have step := fun t => ih (done ++ [some t])
      simp only [List.length_append, List.length_singleton, List.append_assoc,
        List.singleton_append] at step
      cases p with
      | literal t => exact step t bound
      | hole name =>
          have value := bound _ List.mem_cons_self
          have put : fill config (done ++ none :: ps.map slot) (name, done.length) =
              .ok (done ++ some (placeholder name) :: ps.map slot) := by
            have full : placeholder name ≠ [] := List.append_ne_nil_of_right_ne_nil _ (by decide)
            simp [fill, value, full]
          have rest := step (placeholder name) fun e he => bound e (List.mem_cons_of_mem _ he)
          rw [holes, List.foldlM_cons, List.map_cons, slot, put]
          exact rest

theorem Parsed.Shows.code {p : Parsed} {ps : List Piece} (cut : p.Shows ps)
    {config : Text → Option Text}
    (bound : ∀ e ∈ p.nameIndex, config e.1 = some (placeholder e.1)) :
    p.code config = .ok (ps.flatMap text) := by
  have all : p.nameIndex.foldlM (fill config) p.parsedcode =
      .ok (ps.map fun p => some p.text) := by
    rw [cut.names, cut.slots]
    exact fill_holes ps [] (cut.names ▸ bound)
  rw [Parsed.code, all]
  simp [List.flatMap_map, bind, Except.bind, pure, Except.pure]

/-- What the scanner has cut of the text `pre` that it has read. -/
structure Scanner.Read (p : Scanner) (pre : Text) (ps : List Piece) : Prop where
  cut : p.toParsed.Shows ps
  be : p.be ≤ pre.length
  atText : p.state = .text → ps.flatMap Piece.text ++ pre.drop p.be = pre
  afterDollar : p.state = .dollar → ps.flatMap Piece.text ++ pre.drop p.be = pre ∧
    p.be < pre.length ∧ ∃ front, pre = front ++ [dollar]
  /-- In a placeholder `${` is missing. -/
  inName : p.state = .name → ps.flatMap Piece.text ++ units "$\x7b" ++ pre.drop p.be = pre

theorem substring_append {pre rest : Text} {be : Nat} (h : be ≤ pre.length) :
    substring (pre ++ rest) be pre.length = pre.drop be := by
  rw [substring, Nat.max_eq_right h, Nat.min_eq_left h, List.take_left]

theorem Parsed.Shows.literal {p : Parsed} {ps : List Piece} (cut : p.Shows ps) (t : Text) :
    Parsed.Shows { p with parsedcode := p.parsedcode ++ [some t] } (ps ++ [.literal t]) where
  slots := by simp [cut.slots, slot]
  names := by rw [holes_append, ← cut.names, holes, holes, List.append_nil]

theorem Parsed.Shows.hole {p : Parsed} {ps : List Piece} (cut : p.Shows ps) (name : Text) :
    Parsed.Shows ⟨p.parsedcode ++ [none], p.nameIndex ++ [(name, p.parsedcode.length)]⟩
      (ps ++ [.hole name]) where
  slots := by simp [cut.slots, slot]
  names := by simp [holes_append, cut.names, cut.slots, holes]

/-- One character more. -/
theorem Scanner.Read.turn {template : Text} {p q : Scanner} {pre rest : Text} {c : UInt16}
    {ps : List Piece} (read : p.Read pre ps) (whole : template = pre ++ c :: rest)
    (next : p.turn template c pre.length = .ok q) : ∃ qs, q.Read (pre ++ [c]) qs := by
  have longer : p.be ≤ (pre ++ [c]).length := by
    have := read.be
    simp
    omega
  have ends : (pre ++ [c]).drop p.be = pre.drop p.be ++ [c] := List.drop_append_of_le_length read.be
  unfold Scanner.turn at next
  split at next
  · next state =>
      have before := read.atText state
      have now : ps.flatMap Piece.text ++ (pre ++ [c]).drop p.be = pre ++ [c] := by
        rw [ends, ← List.append_assoc, before]
      obtain rfl := Except.ok.inj next
      refine ⟨ps, ?_⟩
      split
      · next isDollar =>
          exact ⟨read.cut, longer, nofun,
            fun _ => ⟨now, by simpa using Nat.lt_succ_of_le read.be, pre, by rw [isDollar]⟩, nofun⟩
      · exact ⟨read.cut, longer, fun _ => now, fun h => absurd (state.symm.trans h) nofun,
          fun h => absurd (state.symm.trans h) nofun⟩
  · next state =>
      obtain ⟨before, lt, front, rfl⟩ := read.afterDollar state
      have now : ps.flatMap Piece.text ++ (front ++ [dollar] ++ [c]).drop p.be =
          front ++ [dollar] ++ [c] := by rw [ends, ← List.append_assoc, before]
      split at next
      · next isOpening =>
          obtain rfl := Except.ok.inj next
          have le : p.be ≤ front.length := by simpa [Nat.lt_succ_iff] using lt
          have literal : substring template p.be ((front ++ [dollar]).length - 1) =
              front.drop p.be := by
            rw [whole, List.append_assoc, List.length_append, List.length_singleton,
              Nat.add_sub_cancel, substring_append le]
          rw [List.drop_append_of_le_length le, ← List.append_assoc] at before
          refine ⟨ps ++ [.literal (front.drop p.be)], literal ▸ read.cut.literal _, by simp, nofun,
            nofun, fun _ => ?_⟩
          have all : (front ++ [dollar] ++ [c]).drop ((front ++ [dollar]).length + 1) = [] :=
            List.drop_of_length_le (by simp)
          rw [all, List.flatMap_append, List.flatMap_singleton, List.append_nil, Piece.text,
            List.append_cancel_right before, isOpening, List.append_assoc]
          rfl
      · obtain rfl := Except.ok.inj next
        exact ⟨ps, read.cut, longer, fun _ => now, nofun, nofun⟩
  · next state =>
      have before := read.inName state
      split at next
      · next isClosing =>
          have name : substring template p.be pre.length = pre.drop p.be := by
            rw [whole, substring_append read.be]
          dsimp only at next
          rw [name] at next
          split at next
          · cases next
          · obtain rfl := Except.ok.inj next
            refine ⟨ps ++ [.hole (pre.drop p.be)], read.cut.hole _, by simp, fun _ => ?_, nofun,
              nofun⟩
            have all : (pre ++ [c]).drop (pre.length + 1) = [] := List.drop_of_length_le (by simp)
            rw [all, List.flatMap_append, List.flatMap_singleton, List.append_nil, Piece.text,
              placeholder, ← List.append_assoc, ← List.append_assoc, before, isClosing]
            rfl
      · obtain rfl := Except.ok.inj next
        refine ⟨ps, read.cut, longer, fun h => absurd (state.symm.trans h) nofun,
          fun h => absurd (state.symm.trans h) nofun, fun _ => ?_⟩
        rw [ends, ← List.append_assoc, before]

/-- The rest of the template closes what the scanner has opened. -/
def Scanner.closes (p : Scanner) (rest : Text) : Bool :=
  match p.state with
  | .text => closed false rest
  | .dollar => closed false (dollar :: rest)
  | .name => closed true rest

theorem Scanner.closes_turn {template : Text} {p q : Scanner} {rest : Text} {c : UInt16} {i : Nat}
    (next : p.turn template c i = .ok q) : q.closes rest = p.closes (c :: rest) := by
  unfold Scanner.turn at next
  split at next
  · next state =>
      obtain rfl := Except.ok.inj next
      split
      · next isDollar => simp only [Scanner.closes, state, isDollar]
      · next other =>
          simp only [Scanner.closes, state]
          cases rest with
          | nil => rfl
          | cons d rest => rw [closed, if_neg other]
  · next state =>
      have used : p.closes (c :: rest) = closed (c == opening) rest := by
        simp only [Scanner.closes, state, closed, if_pos]
      split at next
      · next isOpening =>
          obtain rfl := Except.ok.inj next
          rw [used, beq_iff_eq.mpr isOpening]
          rfl
      · next other =>
          obtain rfl := Except.ok.inj next
          rw [used, beq_eq_false_iff_ne.mpr other]
          rfl
  · next state =>
      have used : p.closes (c :: rest) = closed (c != closing) rest := by
        simp only [Scanner.closes, state, closed]
      split at next
      · next isClosing =>
          dsimp only at next
          split at next
          · cases next
          · obtain rfl := Except.ok.inj next
            rw [used]
            simp [Scanner.closes, isClosing]
      · next other =>
          obtain rfl := Except.ok.inj next
          rw [used, bne_iff_ne.mpr other]
          simp only [Scanner.closes, state]

/-- The loop to its end. -/
theorem Scanner.Read.scan {template : Text} {p q : Scanner} {pre rest : Text} {ps : List Piece}
    (read : p.Read pre ps) (whole : template = pre ++ rest)
    (loop : p.scan template pre.length rest = .ok q) :
    (∃ qs, q.Read template qs) ∧ q.closes [] = p.closes rest := by
  induction rest generalizing p pre ps with
  | nil =>
      obtain rfl := Except.ok.inj loop
      rw [List.append_nil] at whole
      exact ⟨⟨ps, whole ▸ read⟩, rfl⟩
  | cons c rest ih =>
      rw [Scanner.scan] at loop
      cases next : p.turn template c pre.length with
      | error e =>
          rw [next] at loop
          cases loop
      | ok p' =>
          rw [next] at loop
          obtain ⟨qs, read'⟩ := read.turn whole next
          have loop : p'.scan template (pre ++ [c]).length rest = .ok q := by
            rw [List.length_append]
            exact loop
          obtain ⟨final, same⟩ := ih read' (by rw [whole]; simp) loop
          exact ⟨final, same.trans (closes_turn next)⟩

/-- What `parse` has cut a template into: the two characters of an open placeholder are
missing. -/
theorem parse_pieces {template : Text} {p : Parsed} (accepted : parse template = .ok p) :
    ∃ ps, p.Shows ps ∧ (closed false template = true → ps.flatMap text = template) ∧
      (closed false template = false → (ps.flatMap text).length + 2 = template.length) := by
  unfold parse at accepted
  cases loop : Scanner.scan template ⟨⟨[], []⟩, .text, 0⟩ 0 template with
  | error e =>
      rw [loop] at accepted
      cases accepted
  | ok q =>
      rw [loop] at accepted
      have start : Scanner.Read ⟨⟨[], []⟩, .text, 0⟩ [] [] :=
        ⟨⟨rfl, rfl⟩, Nat.le_refl _, fun _ => rfl, nofun, nofun⟩
      obtain ⟨⟨ps, read⟩, closes⟩ := start.scan (List.nil_append template).symm loop
      -- With the text after the last placeholder all pieces are there.
      obtain ⟨qs, cut, all⟩ : ∃ qs, p.Shows qs ∧
          qs.flatMap text = ps.flatMap text ++ template.drop q.be := by
        have accepted := Except.ok.inj accepted
        split at accepted
        · next more =>
            have last : substring template q.be template.length = template.drop q.be := by
              rw [substring, Nat.max_eq_right read.be, Nat.min_eq_left read.be, List.take_length]
            rw [last] at accepted
            refine ⟨ps ++ [.literal (template.drop q.be)], accepted ▸ read.cut.literal _, ?_⟩
            rw [List.flatMap_append, List.flatMap_singleton, Piece.text]
        · next full =>
            have none : template.drop q.be = [] := List.drop_of_length_le (Nat.le_of_not_lt full)
            exact ⟨ps, accepted ▸ read.cut, by rw [none, List.append_nil]⟩
      have ending : closed false template = q.closes [] := closes.symm
      refine ⟨qs, cut, fun whole => ?_, fun open_ => ?_⟩
      · rw [all]
        rw [ending] at whole
        cases state : q.state with
        | text => exact read.atText state
        | dollar => exact (read.afterDollar state).1
        | name => simp [Scanner.closes, state, closed] at whole
      · rw [all]
        rw [ending] at open_
        cases state : q.state with
        | text => simp [Scanner.closes, state, closed] at open_
        | dollar => simp [Scanner.closes, state, closed] at open_
        | name =>
            have length := congrArg List.length (read.inName state)
            simp only [List.length_append] at length ⊢
            have two : (units "$\x7b").length = 2 := rfl
            omega

/-- **Parsing loses nothing exactly if the template does not end inside a placeholder**:
`code` gives the template back when each name stands for its own placeholder. -/
theorem code_eq_template_iff {template : Text} {p : Parsed} (accepted : parse template = .ok p)
    {config : Text → Option Text}
    (bound : ∀ e ∈ p.nameIndex, config e.1 = some (placeholder e.1)) :
    p.code config = .ok template ↔ closed false template = true := by
  obtain ⟨ps, cut, whole, short⟩ := parse_pieces accepted
  rw [cut.code bound]
  constructor
  · intro same
    by_contra open_
    have length := short (Bool.eq_false_iff.mpr open_)
    rw [Except.ok.inj same] at length
    omega
  · intro closed
    rw [whole closed]

/-- A placeholder at the end, and a `$` before it that uses up another. -/
theorem code_eq_template_iff_example :
    Parsed.code ⟨[some (units "$$"), none], [(units "x", 1)]⟩
        (fun name => some (placeholder name)) =
      .ok (units "$$$\x7bx\x7d") ↔ closed false (units "$$$\x7bx\x7d") = true :=
  code_eq_template_iff rfl fun _ _ => rfl

/-- `a${b` comes out as `ab`. -/
theorem open_placeholder_lost : ∃ p, parse (units "a$\x7bb") = .ok p ∧
    p.code (fun name => some (placeholder name)) ≠ .ok (units "a$\x7bb") := by
  refine ⟨⟨[some (units "a"), some (units "b")], []⟩, rfl, fun same => ?_⟩
  have length := congrArg List.length (Except.ok.inj same)
  cases length

end ThreadJs.Template
