import ThreadJs.Warp.Source

/-!
The lines in the reports of a thread (`main.cc`). The script of the user stands far down in the
source of its thread; `find_code_offset` counts the lines above it, and the engine adds this
offset to the lines it reports.

* `reportedLine_user` — what is reported for a position in the script of the user.
* `numbered_iff` — when these are the lines of the user.
-/

namespace ThreadJs.Warp

open Template Js.Source CString
open Exports.Quoting (Libs exportsLibsCode oneFunction)

/-! ### The code -/

/-- `find_code_offset` -/
def findCodeOffset (code : List UInt8) : Int :=
  match strstr (marker.map UInt8.ofNat) code with
  | none => 0
  | some stop =>
      (code.take stop).foldl
        (fun offsetline c => if c = 0x0A then offsetline - 1 else offsetline) (0 - 1)

/-- The offset that `compilerCode` passes on; `data->code` is a C string. -/
def compilerOffset (source : Text) : Int := findCodeOffset (Utf8.untilNul (writeUtf8 source))

/-- The line that is reported for a position. -/
def reportedLine (source : Text) (pos : Nat) : Int :=
  lineOf source pos + compilerOffset source + 1

/-- What is reported for the script of the user, which begins at `start`, are its own lines. -/
def Numbered (source user : Text) (start : Nat) : Prop :=
  ∀ i < user.length, reportedLine source (start + i) = lineOf user i + 1

/-! ### The offset -/

theorem foldl_newLines (code : List UInt8) (n : Int) :
    code.foldl (fun offsetline c => if c = 0x0A then offsetline - 1 else offsetline) n =
      n - code.count 0x0A := by
  induction code generalizing n with
  | nil => simp
  | cons c code ih =>
      rw [List.foldl_cons, ih]
      by_cases newLine : c = 0x0A
      · subst newLine
        rw [if_pos rfl, List.count_cons_self]
        omega
      · rw [if_neg newLine, List.count_cons_of_ne newLine]

theorem marker_ascii : ∀ n ∈ marker, n < 0x80 := by decide

theorem marker_ne_nil : marker ≠ [] := by decide

theorem markerUnits_ne_nil : markerUnits ≠ [] := by decide

theorem newLine_not_mem_markerUnits : (0x0A : UInt16) ∉ markerUnits := by decide

/-- The offset, by the units of the source instead of its bytes. -/
theorem compilerOffset_eq (source : Text) :
    compilerOffset source =
      ((strstr markerUnits (source.takeWhile (· != 0))).map fun stop =>
        ((source.takeWhile (· != 0)).take stop).count 0x0A).elim 0 fun n => -1 - (n : Int) := by
  have agree := (encodes_writeUtf8 source).untilNul.newLines marker_ascii marker_ne_nil
  rw [compilerOffset, markerUnits, ← agree, findCodeOffset]
  cases strstr (marker.map UInt8.ofNat) (Utf8.untilNul (writeUtf8 source)) with
  | none => rfl
  | some stop =>
      dsimp only [Option.map_some, Option.elim_some]
      rw [foldl_newLines, Int.zero_sub]

/-- A text of complete lines in which the marker does not occur. -/
structure Unmarked (t : Text) : Prop where
  ends : ∀ u ∈ t.getLast?, u = 0x0A
  noMarker : ¬ markerUnits <:+: t

namespace Unmarked

variable {s t rest : Text}

theorem last (h : Unmarked s) : s.getLast? ≠ some 0x0D := by
  intro same
  exact absurd (h.ends _ same) (by decide)

theorem concat (noMarker : ¬ markerUnits <:+: s ++ [0x0A]) : Unmarked (s ++ [0x0A]) := by
  refine ⟨fun u hu => ?_, noMarker⟩
  rw [List.getLast?_concat, Option.mem_some_iff] at hu
  exact hu.symm

theorem append (hs : Unmarked s) (ht : Unmarked t) : Unmarked (s ++ t) := by
  constructor
  · intro u hu
    rw [List.getLast?_append, Option.mem_def, Option.or_eq_some_iff] at hu
    rcases hu with last | ⟨-, last⟩
    · exact ht.ends u last
    · exact hs.ends u last
  · rw [← strstr_eq_none markerUnits_ne_nil,
      strstr_lines newLine_not_mem_markerUnits hs.ends hs.noMarker,
      (strstr_eq_none markerUnits_ne_nil).mpr ht.noMarker, Option.map_none]

/-- The count goes up to the marker. -/
theorem compilerOffset_marked (h : Unmarked s) (noNul : (0 : UInt16) ∉ s) :
    compilerOffset (s ++ markerLine ++ rest) = -1 - (s.count 0x0A : Int) := by
  have parts : markerLine = units "    // ! " ++ (markerUnits ++ units " !\n    ") := by decide
  have nowhere : ∀ u ∈ units "    // ! ", markerUnits.head? ≠ some u := by
    intro u hu first
    have other : (0x55 : UInt16) ∉ units "    // ! " := by decide
    obtain rfl := Option.some.inj first
    exact other hu
  have blank : (units "    // ! ").count 0x0A = 0 := by decide
  have keep : ∀ u ∈ s ++ markerLine, (u != 0) = true := by
    intro u hu
    apply bne_iff_ne.mpr
    rintro rfl
    rcases List.mem_append.mp hu with inside | inside
    · exact noNul inside
    · exact absurd inside (by decide)
  rw [Warp.compilerOffset_eq, List.takeWhile_append_of_pos keep, parts, List.append_assoc,
    List.append_assoc, strstr_lines newLine_not_mem_markerUnits h.ends h.noMarker,
    strstr_append nowhere markerUnits_ne_nil, List.append_assoc, strstr_self markerUnits_ne_nil]
  simp only [Option.map_some, Option.elim_some, List.take_length_add_append, List.count_append,
    Nat.add_zero, List.take_left', blank]

/-- With U+0000 in front of the marker it is not found. -/
theorem compilerOffset_nul (h : Unmarked s) (nul : (0 : UInt16) ∈ s) :
    compilerOffset (s ++ rest) = 0 := by
  have short : s.takeWhile (· != 0) ≠ s := by
    intro whole
    have unit := List.takeWhile_eq_self_iff.mp whole 0 nul
    cases unit
  have cut : (s ++ rest).takeWhile (· != 0) = s.takeWhile (· != 0) := by
    rw [List.takeWhile_append, if_neg]
    intro length
    exact short ((List.takeWhile_prefix _).eq_of_length length)
  have absent : ¬ markerUnits <:+: s.takeWhile (· != 0) := fun inside =>
    h.noMarker (inside.trans (List.takeWhile_prefix _).isInfix)
  rw [Warp.compilerOffset_eq, cut, (strstr_eq_none markerUnits_ne_nil).mpr absent, Option.map_none,
    Option.elim_none]

/-- The line of a position in the script of the user, on the marked line or below it. -/
theorem lineOf_user (h : Unmarked s) {user : Text} {i : Nat} (inside : i < user.length) :
    lineOf (s ++ markerLine ++ user ++ rest) ((s ++ markerLine).length + i) =
      lines s + 1 + lineOf user i := by
  have one : lines markerLine = 1 := by decide
  have last : (s ++ markerLine).getLast? ≠ some 0x0D := by
    rw [List.getLast?_append_of_ne_nil _ (by decide)]
    decide
  rw [List.append_assoc (s ++ markerLine), lineOf_append last, lines_append h.last, one,
    lineOf_left inside]

/-- **What is reported** is too far down by the lines that `find_code_offset` has missed. -/
theorem reportedLine_user (h : Unmarked s) (noNul : (0 : UInt16) ∉ s) {user : Text} {i : Nat}
    (inside : i < user.length) :
    reportedLine (s ++ markerLine ++ user ++ rest) ((s ++ markerLine).length + i) =
      lineOf user i + 1 + (lines s - s.count 0x0A) := by
  rw [reportedLine, h.lineOf_user inside, List.append_assoc (s ++ markerLine),
    h.compilerOffset_marked noNul]
  omega

/-- With U+0000 above, every line is reported with all lines above counted. -/
theorem reportedLine_nul (h : Unmarked s) (nul : (0 : UInt16) ∈ s) {user : Text} {i : Nat}
    (inside : i < user.length) :
    reportedLine (s ++ markerLine ++ user ++ rest) ((s ++ markerLine).length + i) =
      lineOf user i + 1 + (lines s + 1) := by
  rw [reportedLine, h.lineOf_user inside, List.append_assoc (s ++ markerLine),
    List.append_assoc s, h.compilerOffset_nul nul]
  omega

theorem numbered_iff (h : Unmarked s) {user : Text} (nonempty : user ≠ []) :
    Numbered (s ++ markerLine ++ user ++ rest) user (s ++ markerLine).length ↔
      (0 : UInt16) ∉ s ∧ LfOnly s := by
  have first : 0 < user.length := List.length_pos_iff.mpr nonempty
  rw [← lines_eq_count_iff]
  by_cases nul : (0 : UInt16) ∈ s
  · simp only [nul, not_true_eq_false, false_and, iff_false]
    intro numbered
    have line := numbered 0 first
    rw [h.reportedLine_nul nul first] at line
    omega
  · rw [and_iff_right nul]
    constructor
    · intro numbered
      have line := numbered 0 first
      rw [h.reportedLine_user nul first] at line
      omega
    · intro counted i inside
      rw [h.reportedLine_user nul inside, counted, Int.sub_self, Int.add_zero]

end Unmarked

/-! ### The text of the thread -/

/-- Complete lines as an editor writes them. -/
structure Plain (t : Text) : Prop extends Unmarked t where
  noNul : (0 : UInt16) ∉ t
  lfOnly : LfOnly t

theorem Plain.append {s t : Text} (hs : Plain s) (ht : Plain t) : Plain (s ++ t) where
  toUnmarked := hs.toUnmarked.append ht.toUnmarked
  noNul := List.not_mem_append hs.noNul ht.noNul
  lfOnly := (lfOnly_append hs.last).mpr ⟨hs.lfOnly, ht.lfOnly⟩

theorem Plain.newLine : Plain [0x0A] where
  ends := by simp
  noMarker := by decide
  noNul := by decide
  lfOnly := LfOnly.of_newLines fun _ hu _ => List.mem_singleton.mp hu

theorem PlainLines.unmarked {lines : List String} (plain : PlainLines lines) :
    Unmarked (fileText lines) := by
  induction lines with
  | nil =>
      refine ⟨fun u hu => absurd hu (by simp [fileText]), fun inside => ?_⟩
      exact markerUnits_ne_nil (List.infix_nil.mp inside)
  | cons l lines ih =>
      have first : Unmarked (units l ++ [0x0A]) := by
        have absent := (Bool.and_eq_true_iff.mp (plain l List.mem_cons_self)).2
        apply Unmarked.concat
        rw [← strstr_eq_none markerUnits_ne_nil]
        exact Option.isNone_iff_eq_none.mp absent
      rw [fileText, List.flatMap_cons]
      exact first.append (ih fun m hm => plain m (List.mem_cons_of_mem _ hm))

theorem PlainLines.plain {lines : List String} (plain : PlainLines lines) :
    Plain (fileText lines) where
  toUnmarked := plain.unmarked
  noNul := by
    intro inside
    rcases mem_fileText plain inside with newLine | ⟨-, other, -⟩
    · cases newLine
    · exact other rfl
  lfOnly := by
    apply LfOnly.of_newLines
    intro u hu terminator
    rcases mem_fileText plain hu with newLine | ⟨other, -, -⟩
    · exact newLine
    · rw [other] at terminator
      cases terminator

theorem plain_preamble : Plain preamble := by
  obtain ⟨fnProxy, context, events, head, middle, -, -⟩ := plain_parts
  exact ((((((head.plain.append fnProxy.plain).append .newLine).append context.plain).append
    .newLine).append events.plain).append .newLine).append middle.plain

theorem plain_beforeMarker : Plain (fileText Files.beforeMarker) := by
  obtain ⟨-, -, -, -, -, beforeMarker, -⟩ := plain_parts
  exact beforeMarker.plain

section User

variable {libs : Libs} {user libScript : Text}

theorem unmarked_libScript (written : exportsLibsCode libs = .ok libScript)
    (noMarker : ¬ markerUnits <:+: libScript) : Unmarked libScript := by
  obtain ⟨front, rfl⟩ := libScript_ends written
  exact .concat noMarker

theorem unmarked_above (lib : Unmarked libScript) :
    Unmarked (preamble ++ libScript ++ fileText Files.beforeMarker) :=
  (plain_preamble.toUnmarked.append lib).append plain_beforeMarker.toUnmarked

/-- Only in the script of the libraries lines can be missed. -/
theorem reportedLine_above (lib : Unmarked libScript) (noNul : (0 : UInt16) ∉ libScript) {i : Nat}
    (inside : i < user.length) :
    reportedLine (above libScript ++ user ++ fileText Files.foot) ((above libScript).length + i) =
      lineOf user i + 1 + (lines libScript - libScript.count 0x0A) := by
  have noNul' : (0 : UInt16) ∉ preamble ++ libScript ++ fileText Files.beforeMarker :=
    List.not_mem_append (List.not_mem_append plain_preamble.noNul noNul) plain_beforeMarker.noNul
  have before := lines_eq_count_iff.mpr plain_preamble.lfOnly
  have behind := lines_eq_count_iff.mpr plain_beforeMarker.lfOnly
  rw [above, (unmarked_above lib).reportedLine_user noNul' inside,
    lines_append (plain_preamble.toUnmarked.append lib).last, lines_append plain_preamble.last,
    List.count_append, List.count_append, before, behind]
  omega

theorem numbered_above_iff (lib : Unmarked libScript) (nonempty : user ≠ []) :
    Numbered (above libScript ++ user ++ fileText Files.foot) user (above libScript).length ↔
      (0 : UInt16) ∉ libScript ∧ LfOnly libScript := by
  rw [above, (unmarked_above lib).numbered_iff nonempty,
    lfOnly_append (plain_preamble.toUnmarked.append lib).last, lfOnly_append plain_preamble.last,
    List.mem_append, List.mem_append]
  simp only [plain_preamble.noNul, plain_preamble.lfOnly, plain_beforeMarker.noNul,
    plain_beforeMarker.lfOnly, false_or, or_false, true_and, and_true]

/-- **The lines of the user** are reported exactly if no line of the script of the libraries
ends in another way than by `\n` or `\r\n`, and U+0000 is not in it; whatever the user has
written, and however many threads have been made before. -/
theorem user_lines_iff (history : List (Libs × Text))
    (written : exportsLibsCode libs = .ok libScript) (noMarker : ¬ markerUnits <:+: libScript)
    (nonempty : user ≠ []) :
    ∃ source, createdSource history libs user = .ok source ∧
      source = above libScript ++ user ++ fileText Files.foot ∧
      (Numbered source user (above libScript).length ↔
        (0 : UInt16) ∉ libScript ∧ LfOnly libScript) :=
  ⟨_, createdSource_eq history written nonempty, rfl,
    numbered_above_iff (unmarked_libScript written noMarker) nonempty⟩

end User

/-- A script that contains the marker itself. -/
theorem user_lines_marker :
    ∃ source, createdSource [] [] markerUnits = .ok source ∧
      source = above [0x0A, 0x0A, 0x0A, 0x0A] ++ markerUnits ++ fileText Files.foot ∧
      (Numbered source markerUnits (above [0x0A, 0x0A, 0x0A, 0x0A]).length ↔
        (0 : UInt16) ∉ [0x0A, 0x0A, 0x0A, 0x0A] ∧ LfOnly [0x0A, 0x0A, 0x0A, 0x0A]) :=
  user_lines_iff [] rfl (by decide) markerUnits_ne_nil

/-- A name that continues on the next line, behind a backslash and `\r`. -/
def continuedName : Libs := oneFunction (units "math") [0x61, 0x5C, 0x0D, 0x62]

/-- The script for it. -/
def continuedScript : Text :=
  [0x0A, 0x0A] ++ (units "__createFunctionProxy(\"math\",\"a\\" ++
    0x0D :: units "b\",0,false,false);\n") ++ [0x0A, 0x0A]

/-- Line 1 of the user is reported as line 2. -/
theorem continued_name_misnumbered :
    exportsLibsCode continuedName = .ok continuedScript ∧ ¬ markerUnits <:+: continuedScript ∧
      ∃ source, createdSource [] continuedName [0x78] = .ok source ∧
        source = above continuedScript ++ [0x78] ++ fileText Files.foot ∧
        reportedLine source (above continuedScript).length = 2 ∧
        ¬ Numbered source [0x78] (above continuedScript).length := by
  have written : exportsLibsCode continuedName = .ok continuedScript := rfl
  have absent : ¬ markerUnits <:+: continuedScript := by
    rw [← strstr_eq_none markerUnits_ne_nil]
    decide
  have lib := unmarked_libScript written absent
  have line := reportedLine_above lib (by decide) (show 0 < [(0x78 : UInt16)].length by decide)
  -- the `\r` is the sixth line terminator
  have ended : lines continuedScript = 6 := by decide
  have counted : continuedScript.count 0x0A = 5 := by decide
  rw [Nat.add_zero, ended, counted] at line
  refine ⟨written, absent, _, createdSource_eq [] written (List.cons_ne_nil _ _), rfl, line, ?_⟩
  intro numbered
  have first := numbered 0 (by decide)
  rw [Nat.add_zero, line] at first
  cases first

end ThreadJs.Warp
