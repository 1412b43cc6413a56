import ThreadJs.Template.Recognition

/-!
Template objects (`lib/parse.js`, `lib/main-warp.js`).

One template object serves all threads: `set` binds a name, and `code` writes the values of
all names into `parsedcode`, where they stay. It goes through the names one by one and can
throw half-way. `code_meets_iff` says when every `code` of a history gives the template with
its placeholders replaced by the values set last.
-/

namespace ThreadJs.Template

open Piece

/-- What `code` works on. -/
structure Instance where
  slots : List (Option Text)
  config : Text → Option Text

inductive Call where
  | set (name value : Text)
  | code

namespace Instance

def set (inst : Instance) (name value : Text) : Instance :=
  { inst with config := fun n => if n = name then some value else inst.config n }

/-- The loop in `code`. What has been written when it throws is not taken back. -/
def fillAll : (entries : List (Text × Nat)) → Instance → Instance × Except Text Unit
  | [], inst => (inst, .ok ())
  | entry :: entries, inst =>
      match fill inst.config inst.slots entry with
      | .error e => (inst, .error e)
      | .ok slots => fillAll entries { inst with slots }

variable (entries : List (Text × Nat))

/-- `code`; `entries` is `name_index` in the order in which `for in` goes through it. -/
def code (inst : Instance) : Instance × Except Text Text :=
  match inst.fillAll entries with
  | (inst, .error e) => (inst, .error e)
  | (inst, .ok ()) => (inst, .ok (inst.slots.flatMap (Option.getD · [])))

def step (inst : Instance) : Call → Instance
  | .set name value => inst.set name value
  | .code => (inst.code entries).1

def after (inst : Instance) (calls : List Call) : Instance := calls.foldl (step entries) inst

end Instance

/-! ### What is expected -/

/-- The value that a name has been set to last. -/
def bound (config : Text → Option Text) (calls : List Call) : Text → Option Text :=
  calls.foldl (fun config call => match call with
    | .set name value => fun n => if n = name then some value else config n
    | .code => config) config

/-- A template with the placeholders replaced that have been found in it. -/
def replaced (template : Text) (value : Text → Text) : Text :=
  ((occurrences template).flatMap fun o => o.1 ++ value o.2) ++
    template.drop ((occurrences template).flatMap fun o => o.1 ++ placeholder o.2).length

/-- The result of `code` is as it should be: an error if a placeholder has no value, and
otherwise the template with the values in place of the placeholders. -/
structure Instantiated (template : Text) (value : Text → Option Text) (result : Except Text Text) :
    Prop where
  refused : (∃ e, result = .error e) ↔ ∃ o ∈ occurrences template, value o.2 = none
  replaced : ∀ text, result = .ok text → text = replaced template fun n => (value n).getD []

/-- The values that `code` can do with: one is missing, or the template ends outside a
placeholder and none is empty. -/
def Served (template : Text) (value : Text → Option Text) : Prop :=
  (∃ o ∈ occurrences template, value o.2 = none) ∨
    closed false template = true ∧ ∀ o ∈ occurrences template, value o.2 ≠ some []

/-! ### The loop -/

theorem mem_holes {name : Text} {i k : Nat} {ps : List Piece} :
    (name, i) ∈ holes k ps ↔ k ≤ i ∧ ps[i - k]? = some (.hole name) := by
  induction ps generalizing k with
  | nil => simp [holes]
  | cons p ps ih =>
      have next : k + 1 ≤ i → (p :: ps)[i - k]? = ps[i - (k + 1)]? := by
        intro h
        have : i - k = i - (k + 1) + 1 := by omega
        rw [this, List.getElem?_cons_succ]
      by_cases here : i = k
      · subst here
        have past : (name, i) ∉ holes (i + 1) ps := fun h => Nat.not_succ_le_self i (ih.mp h).1
        cases p with
        | literal t => simp [holes, past]
        | hole n => simp [holes, past, eq_comm]
      · have later : k ≤ i ↔ k + 1 ≤ i := by omega
        have rest : (name, i) ∈ holes k (p :: ps) ↔ (name, i) ∈ holes (k + 1) ps := by
          cases p with
          | literal t => rfl
          | hole n => simp [holes, here]
        rw [rest, ih, later]
        apply and_congr_right
        intro h
        rw [next h]

namespace Instance

/-- Slots as `parse` has left them, except that values may have been written. -/
structure Filled (inst : Instance) (ps : List Piece) : Prop where
  length : inst.slots.length = ps.length
  literals : ∀ (k : Nat) (t : Text), ps[k]? = some (.literal t) → inst.slots[k]? = some (some t)

theorem fill_eq (config : Text → Option Text) (slots : List (Option Text)) (entry : Text × Nat) :
    (config entry.1).getD [] = [] ∧ (∃ e, fill config slots entry = .error e) ∨
      (config entry.1).getD [] ≠ [] ∧
        fill config slots entry = .ok (slots.set entry.2 (config entry.1)) := by
  by_cases empty : (config entry.1).getD [] = []
  · exact .inl ⟨empty, _, by rw [fill, if_pos empty]⟩
  · refine .inr ⟨empty, ?_⟩
    have value : some ((config entry.1).getD []) = config entry.1 := by
      cases given : config entry.1 with
      | none => simp [given] at empty
      | some v => rfl
    rw [fill, if_neg empty, value]

variable {entries : List (Text × Nat)} {ps : List Piece}

/-- What the loop does with slots, whether or not it throws. -/
structure FillAll (entries : List (Text × Nat)) (ps : List Piece) (inst : Instance)
    (done : Instance × Except Text Unit) : Prop where
  filled : done.1.Filled ps
  config : done.1.config = inst.config
  frame : ∀ k, (∀ e ∈ entries, e.2 ≠ k) → done.1.slots[k]? = inst.slots[k]?
  throws : (∃ e, done.2 = .error e) ↔ ∃ e ∈ entries, (inst.config e.1).getD [] = []
  written : done.2 = .ok () → ∀ e ∈ entries, done.1.slots[e.2]? = some (inst.config e.1)

theorem fillAll_spec {inst : Instance} (filled : inst.Filled ps)
    (known : ∀ e ∈ entries, ps[e.2]? = some (.hole e.1)) :
    FillAll entries ps inst (inst.fillAll entries) := by
  induction entries generalizing inst with
  | nil => exact ⟨filled, rfl, fun _ _ => rfl, by simp [fillAll], by simp⟩
  | cons entry entries ih =>
      have here := known entry List.mem_cons_self
      have rest : ∀ e ∈ entries, ps[e.2]? = some (.hole e.1) := fun e he =>
        known e (List.mem_cons_of_mem _ he)
      rw [fillAll]
      rcases fill_eq inst.config inst.slots entry with ⟨empty, e, throws⟩ | ⟨value, put⟩
      · rw [throws]
        refine ⟨filled, rfl, fun _ _ => rfl, ?_, by simp⟩
        exact iff_of_true ⟨e, rfl⟩ ⟨entry, List.mem_cons_self, empty⟩
      · rw [put]
        have filled' : Filled { inst with slots := inst.slots.set entry.2 (inst.config entry.1) }
            ps := by
          refine ⟨by simp [filled.length], fun k t literal => ?_⟩
          have other : entry.2 ≠ k := by
            rintro rfl
            rw [here] at literal
            cases literal
          rw [List.getElem?_set_ne other]
          exact filled.literals k t literal
        have spec := ih filled' rest
        refine ⟨spec.filled, spec.config, fun k away => ?_, ?_, fun ok e he => ?_⟩
        · rw [spec.frame k fun e he => away e (List.mem_cons_of_mem _ he),
            List.getElem?_set_ne (away entry List.mem_cons_self)]
        · rw [spec.throws]
          simp [value]
        · by_cases later : ∃ e' ∈ entries, e'.2 = e.2
          · obtain ⟨e', he', same⟩ := later
            have name : e'.1 = e.1 :=
              hole.inj (Option.some.inj ((rest e' he').symm.trans (same ▸ known e he)))
            rw [← same, ← name]
            exact spec.written ok e' he'
          · have away : ∀ e' ∈ entries, e'.2 ≠ e.2 := fun e' he' same => later ⟨e', he', same⟩
            rcases List.mem_cons.mp he with rfl | old
            · have inside : e.2 < inst.slots.length := by
                rw [filled.length]
                exact (List.getElem?_eq_some_iff.mp here).1
              rw [spec.frame e.2 away, List.getElem?_set_self inside]
            · exact absurd rfl (away e old)

/-- A piece with its value. -/
def rendered (config : Text → Option Text) : Piece → Option Text
  | .literal t => some t
  | .hole name => config name

/-- `code` throws if a value is missing or empty, and otherwise joins the pieces with their
values. -/
theorem code_spec {inst : Instance} {p : Parsed} (cut : p.Shows ps)
    (order : entries.Perm p.nameIndex) (filled : inst.Filled ps) :
    (inst.code entries).1.Filled ps ∧ (inst.code entries).1.config = inst.config ∧
      ((∃ name ∈ p.names, (inst.config name).getD [] = []) ∧
          (∃ e, (inst.code entries).2 = .error e) ∨
        (∀ name ∈ p.names, (inst.config name).getD [] ≠ []) ∧
          (inst.code entries).2 = .ok (ps.flatMap fun q => (rendered inst.config q).getD [])) := by
  have hole : ∀ e ∈ entries, ps[e.2]? = some (.hole e.1) := by
    intro e he
    have listed := order.subset he
    rw [cut.names] at listed
    exact (mem_holes.mp listed).2
  have spec := fillAll_spec filled hole
  have missing : (∃ e ∈ entries, (inst.config e.1).getD [] = []) ↔
      ∃ name ∈ p.names, (inst.config name).getD [] = [] := by
    simp [Parsed.names, order.mem_iff]
  rw [code]
  cases done : inst.fillAll entries with
  | mk inst' result =>
      rw [done] at spec
      cases result with
      | error e =>
          exact ⟨spec.filled, spec.config, .inl ⟨missing.mp (spec.throws.mp ⟨e, rfl⟩), e, rfl⟩⟩
      | ok u =>
          have none : ∀ name ∈ p.names, (inst.config name).getD [] ≠ [] := by
            intro name known empty
            obtain ⟨_, no⟩ := spec.throws.mpr (missing.mpr ⟨name, known, empty⟩)
            cases no
          have slots : inst'.slots = ps.map (rendered inst.config) := by
            apply List.ext_getElem?
            intro k
            rw [List.getElem?_map]
            cases at_ : ps[k]? with
            | none =>
                have outside : inst'.slots.length ≤ k :=
                  spec.filled.length.symm ▸ List.getElem?_eq_none_iff.mp at_
                rw [List.getElem?_eq_none outside]
                rfl
            | some q =>
                cases q with
                | literal t => exact spec.filled.literals k t at_
                | hole name =>
                    have listed : (name, k) ∈ entries :=
                      order.mem_iff.mpr (cut.names ▸ mem_holes.mpr ⟨Nat.zero_le k, at_⟩)
                    exact spec.written rfl _ listed
          refine ⟨spec.filled, spec.config, .inr ⟨none, ?_⟩⟩
          simp [slots, List.flatMap_map]

theorem after_spec {inst : Instance} {p : Parsed} (cut : p.Shows ps)
    (order : entries.Perm p.nameIndex) (filled : inst.Filled ps) (calls : List Call) :
    (inst.after entries calls).Filled ps ∧
      (inst.after entries calls).config = bound inst.config calls := by
  induction calls generalizing inst with
  | nil => exact ⟨filled, rfl⟩
  | cons call calls ih =>
      cases call with
      | set name value =>
          have kept : (inst.set name value).Filled ps := ⟨filled.length, filled.literals⟩
          exact ih kept
      | code =>
          obtain ⟨filled', config, -⟩ := code_spec cut order filled
          obtain ⟨later, values⟩ := ih filled'
          exact ⟨later, by rw [after, List.foldl_cons]; exact values.trans (by rw [config]; rfl)⟩

end Instance

/-! ### The template -/

section Accepted

open Instance

variable {template : Text} {p : Parsed}

/-- The pieces of a template whose placeholders are all recognised. -/
theorem occurrences_shown (accepted : parse template = .ok p)
    (even : ∀ o ∈ occurrences template, EvenDollars o.1) :
    ∃ ts : List Text, p.Shows (piecesOf (occurrences template) ++ ts.map .literal) := by
  have read := (follows_reading template).eq_of_even even
  rcases parse_shows template with ⟨-, name, refusal⟩ | ⟨-, q, ts, accepted', cut⟩
  · rw [accepted] at refusal
    cases refusal
  · rw [accepted] at accepted'
    obtain rfl := Except.ok.inj accepted'
    exact ⟨ts, read ▸ cut⟩

theorem flatMap_literals (f : Piece → Text) (literal : ∀ t, f (.literal t) = t) (ts : List Text) :
    (ts.map Piece.literal).flatMap f = ts.flatten := by
  rw [List.flatMap_map]
  simp [literal, List.flatMap_id']

theorem flatMap_piecesOf (f : Piece → Text) (literal : ∀ t, f (.literal t) = t)
    (os : List (Text × Text)) :
    (piecesOf os).flatMap f = os.flatMap fun o => o.1 ++ f (.hole o.2) := by
  simp [piecesOf, List.flatMap_assoc, literal]

/-- What the pieces give with values is the template with the placeholders replaced exactly if
it does not end inside a placeholder. -/
theorem replaced_iff (accepted : parse template = .ok p) {ts : List Text}
    (cut : p.Shows (piecesOf (occurrences template) ++ ts.map .literal)) (f : Piece → Text)
    (literal : ∀ t, f (.literal t) = t) :
    (piecesOf (occurrences template) ++ ts.map Piece.literal).flatMap f =
        replaced template (fun n => f (.hole n)) ↔ closed false template = true := by
  obtain ⟨ps, shown, whole, short⟩ := parse_pieces accepted
  obtain rfl := shown.unique cut
  rw [List.flatMap_append, flatMap_piecesOf _ (fun _ => rfl),
    flatMap_literals _ (fun _ => rfl)] at whole short
  rw [List.flatMap_append, flatMap_piecesOf _ literal, flatMap_literals _ literal, replaced,
    List.append_cancel_left_eq]
  constructor
  · intro same
    by_contra open_
    have length := short (Bool.eq_false_iff.mpr open_)
    have lost := congrArg List.length same
    rw [List.length_drop] at lost
    rw [List.length_append] at length
    simp only [Piece.text] at length
    omega
  · intro closed
    have whole := whole closed
    simp only [Piece.text] at whole
    have rest := congrArg (List.drop
      ((occurrences template).flatMap fun o => o.1 ++ placeholder o.2).length) whole
    rw [List.drop_left] at rest
    exact rest

/-- One `code`, on slots that values may have been written into. -/
theorem instantiated_iff (accepted : parse template = .ok p) {entries : List (Text × Nat)}
    (order : entries.Perm p.nameIndex) {ts : List Text}
    (cut : p.Shows (piecesOf (occurrences template) ++ ts.map .literal)) {inst : Instance}
    (filled : inst.Filled (piecesOf (occurrences template) ++ ts.map .literal)) :
    Instantiated template inst.config (inst.code entries).2 ↔ Served template inst.config := by
  obtain ⟨-, -, result⟩ := code_spec cut order filled
  rw [cut.names_eq] at result
  by_cases unbound : ∃ o ∈ occurrences template, inst.config o.2 = none
  · refine iff_of_true ?_ (.inl unbound)
    rcases result with ⟨-, e, throws⟩ | ⟨none, -⟩
    · rw [throws]
      exact ⟨iff_of_true ⟨e, rfl⟩ unbound, fun text h => by cases h⟩
    · obtain ⟨o, ho, missing⟩ := unbound
      have := none o.2 (List.mem_map_of_mem ho)
      rw [missing] at this
      exact absurd rfl this
  · rcases result with ⟨⟨name, known, empty⟩, e, throws⟩ | ⟨none, value⟩
    · apply iff_of_false
      · intro instantiated
        exact unbound (instantiated.refused.mp ⟨e, throws⟩)
      · rintro (missing | ⟨-, nonempty⟩)
        · exact unbound missing
        · obtain ⟨o, ho, rfl⟩ := List.mem_map.mp known
          cases given : inst.config o.2 with
          | none => exact unbound ⟨o, ho, given⟩
          | some text =>
              rw [given, Option.getD_some] at empty
              exact nonempty o ho (by rw [given, empty])
    · have nonempty : ∀ o ∈ occurrences template, inst.config o.2 ≠ some [] := by
        intro o ho given
        have := none o.2 (List.mem_map_of_mem ho)
        rw [given] at this
        exact absurd rfl this
      have served : Served template inst.config ↔ closed false template = true := by
        simp only [Served, or_iff_right unbound, and_iff_left nonempty]
      rw [served, ← replaced_iff accepted cut (fun q => (rendered inst.config q).getD [])
        (fun _ => rfl), value]
      constructor
      · intro instantiated
        exact instantiated.replaced _ rfl
      · intro same
        refine ⟨iff_of_false (by simp) unbound, fun text h => ?_⟩
        rw [← Except.ok.inj h]
        exact same

/-- **Every `code` of a history is as it should be exactly if each time a value is missing,
or the template ends outside a placeholder and no value is empty.** Nothing else of the
history matters, calls that have thrown included. -/
theorem code_meets_iff (accepted : parse template = .ok p)
    (even : ∀ o ∈ occurrences template, EvenDollars o.1) {entries : List (Text × Nat)}
    (order : entries.Perm p.nameIndex) (config : Text → Option Text) (calls : List Call) :
    (∀ front rest, calls = front ++ .code :: rest → Instantiated template (bound config front)
        ((Instance.after entries ⟨p.parsedcode, config⟩ front).code entries).2) ↔
      ∀ front rest, calls = front ++ .code :: rest → Served template (bound config front) := by
  obtain ⟨ts, cut⟩ := occurrences_shown accepted even
  have fresh : Filled ⟨p.parsedcode, config⟩
      (piecesOf (occurrences template) ++ ts.map .literal) := by
    constructor
    · rw [cut.slots, List.length_map]
    · intro k t literal
      rw [cut.slots, List.getElem?_map, literal]
      rfl
  apply forall_congr'
  intro front
  apply forall_congr'
  intro rest
  apply imp_congr_right
  intro _
  obtain ⟨filled, values⟩ := after_spec cut order fresh front
  rw [← values]
  exact instantiated_iff accepted order cut filled

/-- A first `code` throws, and the second one gives the value that has been set since. -/
theorem code_meets_iff_example :
    let calls := [.code, .set (units "x") (units "${y}"), .code]
    (∀ front rest, calls = front ++ .code :: rest →
      Instantiated (units "a${x}") (bound (fun _ => none) front)
        ((Instance.after [(units "x", 1)] ⟨[some (units "a"), none], fun _ => none⟩ front).code
          [(units "x", 1)]).2) ↔
      ∀ front rest, calls = front ++ .code :: rest →
        Served (units "a${x}") (bound (fun _ => none) front) :=
  code_meets_iff (p := ⟨[some (units "a"), none], [(units "x", 1)]⟩) rfl (by decide)
    (List.Perm.refl _) _ _

/-- A value that is the empty string counts as missing. -/
theorem empty_value_refused : parse (units "${x}") = .ok ⟨[some [], none], [(units "x", 1)]⟩ ∧
    ¬ Instantiated (units "${x}") (bound (fun _ => none) [.set (units "x") []])
      ((Instance.after [(units "x", 1)] ⟨[some [], none], fun _ => none⟩
        [.set (units "x") []]).code [(units "x", 1)]).2 := by
  refine ⟨rfl, fun instantiated => ?_⟩
  obtain ⟨o, ho, missing⟩ := instantiated.refused.mp ⟨_, rfl⟩
  have only : occurrences (units "${x}") = [([], units "x")] := by decide
  rw [only] at ho
  rw [List.mem_singleton.mp ho] at missing
  cases missing

end Accepted

end ThreadJs.Template
