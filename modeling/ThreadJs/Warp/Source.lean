import ThreadJs.Exports.Quoting
import ThreadJs.Template.Instance
import ThreadJs.Warp.Files

/-!
The source text of a thread (`_create` of `main-warp.js`): the template `thread-warp.js` with
the script of the libraries and the script of the user. All threads are made from one template
object, which keeps what has been set and filled in before.

* `createdSource_eq` — the parts of the text, after any number of threads.
-/

namespace ThreadJs.Warp

open Template Template.Piece
open Exports.Quoting (Libs exportsLibsCode)

/-! ### The code -/

/-- `${USE_SCRIPT}` is indented. -/
def markerLine : Text := units "    // ! USER_SCRIPT_BEGIN !\n    "

/-- `thread-warp.js` -/
def threadWarp : Text :=
  fileText Files.head ++ placeholder (units "fnProxy") ++
    ([0x0A] ++ placeholder (units "context") ++
      ([0x0A] ++ placeholder (units "events") ++
        ([0x0A] ++ fileText Files.middle ++ placeholder (units "LIB_SCRIPT") ++
          (fileText Files.beforeMarker ++ markerLine ++ placeholder (units "USE_SCRIPT") ++
            fileText Files.foot))))

/-- The second argument of `parsecode`. The scripts are `null`. -/
def config : Text → Option Text := fun name =>
  if name = units "context" then some (fileText Files.context)
  else if name = units "fnProxy" then some (fileText Files.fnProxy)
  else if name = units "events" then some (fileText Files.events)
  else none

/-- `thread_code_warp`, and its `name_index` in the order of `for in`: no name in it is an
array index. -/
def threadCodeWarp : Except Text (Instance × List (Text × Nat)) :=
  (parse threadWarp).map fun p => (⟨p.parsedcode, config⟩, p.nameIndex)

/-- The lines of `_create` that make the source text. -/
def create (entries : List (Text × Nat)) (inst : Instance) (libs : Libs) (code : Text) :
    Instance × Except Text Text :=
  match exportsLibsCode libs with
  | .error e => (inst, .error (units e))
  | .ok libScript =>
      ((inst.set (units "LIB_SCRIPT") libScript).set (units "USE_SCRIPT") code).code entries

/-- The source text of a thread; `history` are the threads before it. -/
def createdSource (history : List (Libs × Text)) (libs : Libs) (code : Text) :
    Except Text Text := do
  let (inst, entries) ← threadCodeWarp
  let inst := history.foldl (fun inst thread => (create entries inst thread.1 thread.2).1) inst
  (create entries inst libs code).2

/-! ### The parts of a template -/

section Template

variable {t name rest : Text}

theorem reading_plain (plain : dollar ∉ t) (before name : Text) :
    reading .text before name t = [] := by
  induction t generalizing before with
  | nil => rfl
  | cons c t ih =>
      obtain ⟨other, plain⟩ := List.ne_and_not_mem_of_not_mem_cons plain
      rw [reading, if_neg (Ne.symm other), ih plain]

theorem reading_placeholder (plain : dollar ∉ t) (within : closing ∉ name) (before : Text) :
    reading .text before [] (t ++ placeholder name ++ rest) =
      (before ++ t, name) :: reading .text [] [] rest := by
  induction t generalizing before with
  | nil =>
      have text : [] ++ placeholder name ++ rest =
          dollar :: opening :: (name ++ closing :: rest) := by
        simp [placeholder, units, dollar, opening, closing]
      rw [text, reading, if_pos rfl, reading, if_pos rfl, reading_name within, List.nil_append,
        List.append_nil]
  | cons c t ih =>
      obtain ⟨other, plain⟩ := List.ne_and_not_mem_of_not_mem_cons plain
      rw [List.cons_append, List.cons_append, reading, if_neg (Ne.symm other), ih plain,
        List.append_assoc, List.singleton_append]

theorem reading_placeholder_nil (plain : dollar ∉ t) (within : closing ∉ name) :
    reading .text [] [] (t ++ placeholder name ++ rest) =
      (t, name) :: reading .text [] [] rest := by
  rw [reading_placeholder plain within, List.nil_append]

theorem closed_plain (plain : dollar ∉ t) : closed false t = true := by
  induction t with
  | nil => rfl
  | cons c t ih =>
      obtain ⟨other, plain⟩ := List.ne_and_not_mem_of_not_mem_cons plain
      cases t with
      | nil => rfl
      | cons d t => rw [closed, if_neg (Ne.symm other), ih plain]

theorem closed_name (within : closing ∉ name) :
    closed true (name ++ closing :: rest) = closed false rest := by
  induction name with
  | nil => rw [List.nil_append, closed, bne_self_eq_false]
  | cons c name ih =>
      obtain ⟨other, within⟩ := List.ne_and_not_mem_of_not_mem_cons within
      rw [List.cons_append, closed, bne_iff_ne.mpr (Ne.symm other), ih within]

theorem closed_placeholder (plain : dollar ∉ t) (within : closing ∉ name) :
    closed false (t ++ placeholder name ++ rest) = closed false rest := by
  have text : placeholder name ++ rest = dollar :: opening :: (name ++ closing :: rest) := by
    simp [placeholder, units, dollar, opening, closing]
  rw [List.append_assoc, text]
  induction t with
  | nil => rw [List.nil_append, closed, if_pos rfl, beq_self_eq_true, closed_name within]
  | cons c t ih =>
      obtain ⟨other, plain⟩ := List.ne_and_not_mem_of_not_mem_cons plain
      rw [← ih plain]
      cases t with
      | nil => rw [List.cons_append, List.nil_append, closed, if_neg (Ne.symm other)]
      | cons d t => rw [List.cons_append, List.cons_append, closed, if_neg (Ne.symm other)]

end Template

/-! ### `thread-warp.js` -/

theorem mem_fileText {lines : List String} (plain : PlainLines lines) {u : UInt16}
    (hu : u ∈ fileText lines) :
    u = 0x0A ∨ Js.Source.isLineTerminator u = false ∧ u ≠ 0 ∧ u ≠ dollar := by
  obtain ⟨l, hl, hu⟩ := List.mem_flatMap.mp hu
  rcases List.mem_append.mp hu with inside | last
  · have units := (Bool.and_eq_true_iff.mp (plain l hl)).1
    have unit := List.all_eq_true.mp units u inside
    simp only [Bool.and_eq_true, bne_iff_ne, Bool.not_eq_true'] at unit
    exact .inr ⟨unit.1.1, unit.1.2, unit.2⟩
  · exact .inl (List.mem_singleton.mp last)

theorem plain_parts : PlainLines Files.fnProxy ∧ PlainLines Files.context ∧
    PlainLines Files.events ∧ PlainLines Files.head ∧ PlainLines Files.middle ∧
      PlainLines Files.beforeMarker ∧ PlainLines Files.foot := by
  have all := plain_files
  simp only [PlainLines, List.forall_mem_append] at all
  exact all

/-- The placeholders, each with the text in front of it. -/
def holes : List (Text × Text) :=
  [(fileText Files.head, units "fnProxy"), ([0x0A], units "context"), ([0x0A], units "events"),
    ([0x0A] ++ fileText Files.middle, units "LIB_SCRIPT"),
    (fileText Files.beforeMarker ++ markerLine, units "USE_SCRIPT")]

theorem noDollar : dollar ∉ fileText Files.head ∧ dollar ∉ ([0x0A] : Text) ∧
    dollar ∉ [0x0A] ++ fileText Files.middle ∧
      dollar ∉ fileText Files.beforeMarker ++ markerLine ∧ dollar ∉ fileText Files.foot := by
  obtain ⟨-, -, -, head, middle, before, foot⟩ := plain_parts
  have file : ∀ lines, PlainLines lines → dollar ∉ fileText lines := by
    intro lines plain inside
    rcases mem_fileText plain inside with newLine | ⟨-, -, other⟩
    · cases newLine
    · exact other rfl
  have newLine : dollar ∉ ([0x0A] : Text) := by decide
  have line : dollar ∉ markerLine := by decide
  exact ⟨file _ head, newLine, List.not_mem_append newLine (file _ middle),
    List.not_mem_append (file _ before) line, file _ foot⟩

theorem reading_threadWarp : reading .text [] [] threadWarp = holes := by
  obtain ⟨head, newLine, middle, before, foot⟩ := noDollar
  rw [threadWarp, reading_placeholder_nil head (by decide),
    reading_placeholder_nil newLine (by decide), reading_placeholder_nil newLine (by decide),
    reading_placeholder_nil middle (by decide), reading_placeholder_nil before (by decide),
    reading_plain foot, holes]

theorem closed_threadWarp : closed false threadWarp = true := by
  obtain ⟨head, newLine, middle, before, foot⟩ := noDollar
  rw [threadWarp, closed_placeholder head (by decide), closed_placeholder newLine (by decide),
    closed_placeholder newLine (by decide), closed_placeholder middle (by decide),
    closed_placeholder before (by decide), closed_plain foot]

/-- `parse` recognises all placeholders of the template. -/
theorem parse_threadWarp : ∃ p, ∃ ts : List Text, parse threadWarp = .ok p ∧
    p.Shows (piecesOf holes ++ ts.map .literal) ∧ ts.flatten = fileText Files.foot := by
  have stop : stops refused [] holes = false := by decide
  rcases parse_shows threadWarp with ⟨stop', -⟩ | ⟨-, p, ts, accepted, cut⟩
  · rw [reading_threadWarp, stop] at stop'
    cases stop'
  · rw [reading_threadWarp] at cut
    obtain ⟨ps, shown, whole, -⟩ := parse_pieces accepted
    obtain rfl := shown.unique cut
    refine ⟨p, ts, accepted, cut, ?_⟩
    have whole := whole closed_threadWarp
    rw [List.flatMap_append, flatMap_piecesOf _ (fun _ => rfl),
      flatMap_literals _ (fun _ => rfl)] at whole
    have front : threadWarp = (holes.flatMap fun o => o.1 ++ (Piece.hole o.2).text) ++
        fileText Files.foot := by
      simp [threadWarp, holes, Piece.text]
    rw [front] at whole
    exact List.append_cancel_left whole

/-! ### The object over its history -/

/-- Only the two scripts have been set. -/
structure Ready (ps : List Piece) (inst : Instance) : Prop where
  filled : inst.Filled ps
  config : ∀ name, name ≠ units "LIB_SCRIPT" → name ≠ units "USE_SCRIPT" →
    inst.config name = Warp.config name

section Create

variable {p : Parsed} {ts : List Text} {inst : Instance} {libs : Libs} {code : Text}

theorem Ready.set {ps : List Piece} (ready : Ready ps inst) (libScript code : Text) :
    Ready ps ((inst.set (units "LIB_SCRIPT") libScript).set (units "USE_SCRIPT") code) where
  filled := ⟨ready.filled.length, ready.filled.literals⟩
  config := by
    intro name notLib notUse
    simp only [Instance.set, if_neg notUse, if_neg notLib]
    exact ready.config name notLib notUse

/-- What a creation leaves behind, whether or not it throws. -/
theorem Ready.create (cut : p.Shows (piecesOf holes ++ ts.map .literal))
    (ready : Ready (piecesOf holes ++ ts.map .literal) inst) (libs : Libs) (code : Text) :
    Ready (piecesOf holes ++ ts.map .literal) (Warp.create p.nameIndex inst libs code).1 := by
  unfold Warp.create
  split
  · exact ready
  · next libScript written =>
      have set := ready.set libScript code
      obtain ⟨filled, config, -⟩ := Instance.code_spec cut (List.Perm.refl _) set.filled
      refine ⟨filled, fun name notLib notUse => ?_⟩
      rw [config]
      exact set.config name notLib notUse

theorem Ready.history (cut : p.Shows (piecesOf holes ++ ts.map .literal))
    (ready : Ready (piecesOf holes ++ ts.map .literal) inst) (history : List (Libs × Text)) :
    Ready (piecesOf holes ++ ts.map .literal) (history.foldl
      (fun inst thread => (Warp.create p.nameIndex inst thread.1 thread.2).1) inst) := by
  induction history generalizing inst with
  | nil => exact ready
  | cons thread history ih => exact ih (ready.create cut thread.1 thread.2)

/-- The text in front of the script of the libraries. -/
def preamble : Text :=
  fileText Files.head ++ fileText Files.fnProxy ++ [0x0A] ++ fileText Files.context ++ [0x0A] ++
    fileText Files.events ++ [0x0A] ++ fileText Files.middle

/-- The text in front of the script of the user. -/
def above (libScript : Text) : Text :=
  preamble ++ libScript ++ fileText Files.beforeMarker ++ markerLine

theorem fileText_ne_nil {lines : List String} (some : lines ≠ []) : fileText lines ≠ [] := by
  obtain ⟨l, lines, rfl⟩ := List.exists_cons_of_ne_nil some
  rw [fileText, List.flatMap_cons, List.append_assoc]
  exact List.append_ne_nil_of_right_ne_nil _ (List.cons_ne_nil _ _)

theorem libScript_ends {libScript : Text} (written : exportsLibsCode libs = .ok libScript) :
    ∃ front, libScript = front ++ [0x0A] := by
  obtain ⟨texts, -, rfl⟩ := Exports.Quoting.texts_of_exportsLibsCode written
  exact ⟨[0x0A, 0x0A] ++ texts.flatten ++ [0x0A], by simp⟩

theorem Ready.source (cut : p.Shows (piecesOf holes ++ ts.map .literal))
    (foot : ts.flatten = fileText Files.foot)
    (ready : Ready (piecesOf holes ++ ts.map .literal) inst) {libScript : Text}
    (written : exportsLibsCode libs = .ok libScript) (nonempty : code ≠ []) :
    (Warp.create p.nameIndex inst libs code).2 =
      .ok (above libScript ++ code ++ fileText Files.foot) := by
  obtain ⟨front, ends⟩ := libScript_ends written
  have libSome : libScript ≠ [] := by
    rw [ends]
    exact List.append_ne_nil_of_right_ne_nil _ (List.cons_ne_nil _ _)
  have set := ready.set libScript code
  generalize hinst : (inst.set (units "LIB_SCRIPT") libScript).set (units "USE_SCRIPT") code =
    inst' at set
  -- the values of the five names
  have fnProxy : inst'.config (units "fnProxy") = some (fileText Files.fnProxy) :=
    set.config _ (by decide) (by decide)
  have context : inst'.config (units "context") = some (fileText Files.context) :=
    set.config _ (by decide) (by decide)
  have events : inst'.config (units "events") = some (fileText Files.events) :=
    set.config _ (by decide) (by decide)
  have lib : inst'.config (units "LIB_SCRIPT") = some libScript := by
    rw [← hinst]
    rfl
  have use : inst'.config (units "USE_SCRIPT") = some code := by
    rw [← hinst]
    rfl
  obtain ⟨-, -, result⟩ := Instance.code_spec cut (List.Perm.refl _) set.filled
  rw [cut.names_eq] at result
  unfold Warp.create
  rw [written]
  dsimp only
  rw [hinst]
  rcases result with ⟨⟨name, known, empty⟩, -⟩ | ⟨-, value⟩
  · simp only [holes, List.map_cons, List.map_nil, List.mem_cons, List.not_mem_nil,
      or_false] at known
    rcases known with rfl | rfl | rfl | rfl | rfl
    · rw [fnProxy] at empty
      exact absurd empty (fileText_ne_nil (by simp [Files.fnProxy]))
    · rw [context] at empty
      exact absurd empty (fileText_ne_nil (by simp [Files.context]))
    · rw [events] at empty
      exact absurd empty (fileText_ne_nil (by simp [Files.events]))
    · rw [lib] at empty
      exact absurd empty libSome
    · rw [use] at empty
      exact absurd empty nonempty
  · rw [value, List.flatMap_append, flatMap_piecesOf _ (fun _ => rfl),
      flatMap_literals _ (fun _ => rfl), foot]
    simp [holes, above, preamble, Instance.rendered, fnProxy, context, events, lib, use]

end Create

/-- **The source text** is made of the parts as they are, whatever has been created before;
without a script of the user there is none. -/
theorem createdSource_eq (history : List (Libs × Text)) {libs : Libs} {code libScript : Text}
    (written : exportsLibsCode libs = .ok libScript) (nonempty : code ≠ []) :
    createdSource history libs code = .ok (above libScript ++ code ++ fileText Files.foot) := by
  obtain ⟨p, ts, accepted, cut, foot⟩ := parse_threadWarp
  have fresh : Ready (piecesOf holes ++ ts.map .literal) ⟨p.parsedcode, config⟩ := by
    refine ⟨⟨by rw [cut.slots, List.length_map], fun k t literal => ?_⟩, fun _ _ _ => ?_⟩
    · rw [cut.slots, List.getElem?_map, literal]
      rfl
    · dsimp only
  have started : threadCodeWarp = .ok (⟨p.parsedcode, config⟩, p.nameIndex) := by
    rw [threadCodeWarp, accepted, Except.map]
  rw [createdSource, started]
  exact (fresh.history cut history).source cut foot written nonempty

end ThreadJs.Warp
