import Mathlib.Algebra.Order.BigOperators.Group.List
import ThreadJs.Exports.Quoting

/-!
The library script, read.

* `libScript_exports` — where the namespaces can be written between quotes, the text is a call
  for each function of the table, in the order of the table.
* `plain_of_occurs` — a namespace that cannot be written so is no string of the text: a
  literal that reads as it would have to stand in a longer namespace.
* `entries_nodup` — no two functions have the same namespace and name.
-/

namespace ThreadJs.Exports

open Js
open Js.Source (Call Occurs isIdentifierUnit literal program scan)
open JsonText (integerText units)

/-- The proxy that the library script asks for. -/
def Entry.proxy (e : Entry) : Proxy where
  ns := if e.ns = "" then none else some e.ns
  name := e.name
  argc := e.lib.argc
  hasRet := e.lib.ret
  multiple := e.lib.mult

def Libs.calls (libs : Libs) : List Proxy := libs.entries.map Entry.proxy

/-- The table, looked up and walked through. -/
theorem mem_entries {libs : Libs} {e : Entry} :
    e ∈ libs.entries ↔ libs.get e.ns e.name = some e.lib := by
  obtain ⟨ns, name, lib⟩ := e
  rw [Libs.get, Option.bind_eq_some_iff]
  constructor
  · intro h
    obtain ⟨d, hd, h⟩ := List.mem_flatMap.mp h
    obtain ⟨f, hf, h⟩ := List.mem_map.mp h
    cases h
    exact ⟨d.2, (Table.lookup_eq_some_iff libs.namespaces).mpr hd,
      (Table.lookup_eq_some_iff (libs.names d hd)).mpr hf⟩
  · rintro ⟨fs, found, member⟩
    have hd := (Table.lookup_eq_some_iff libs.namespaces).mp found
    have hf := (Table.lookup_eq_some_iff (libs.names _ hd)).mp member
    exact List.mem_flatMap.mpr ⟨(ns, fs), hd, List.mem_map.mpr ⟨(name, lib), hf, rfl⟩⟩

/-- Under what a function is known. -/
def Entry.key (e : Entry) : String × String := (e.ns, e.name)

theorem entries_nodup (libs : Libs) : (libs.entries.map Entry.key).Nodup := by
  rw [Libs.entries, List.map_flatMap, List.nodup_flatMap]
  constructor
  · intro d hd
    rw [List.map_map]
    have names := libs.names d hd
    refine List.Nodup.of_map Prod.snd ?_
    rwa [List.map_map]
  · have apart : libs.table.Pairwise fun a b => a.1 ≠ b.1 := List.pairwise_map.mp libs.namespaces
    refine apart.imp fun {a b} differ => ?_
    rw [Function.onFun, List.disjoint_left]
    rintro k ha hb
    obtain ⟨e, he, rfl⟩ := List.mem_map.mp ha
    obtain ⟨d, hd, same⟩ := List.mem_map.mp hb
    obtain ⟨f, -, rfl⟩ := List.mem_map.mp he
    obtain ⟨g, -, rfl⟩ := List.mem_map.mp hd
    exact differ (Prod.mk.inj same).1.symm

/-! ### One call -/

theorem nameOf_units (s : String) : nameOf (units s.toList) = some s := by
  rw [nameOf, JsonText.chars_units, if_pos rfl, String.ofList_toList]

theorem units_of_nameOf {us : List UInt16} {s : String} (h : nameOf us = some s) :
    us = units s.toList := by
  obtain ⟨same, h⟩ := Option.ite_none_right_eq_some.mp h
  obtain rfl := Option.some.inj h
  rw [String.toList_ofList, same]

theorem ofEntry_ns {e : Entry} : (Quoting.ofEntry e).ns = [] ↔ e.ns = "" := by
  rw [Quoting.ofEntry, Quoting.units_eq_nil, String.toList_eq_nil_iff]

theorem proxyOf_written (e : Entry) : proxyOf (Quoting.ofEntry e).written = some e.proxy := by
  have ns : namespaceOf (if (Quoting.ofEntry e).ns = [] then .null
      else .string (Quoting.ofEntry e).ns) = some e.proxy.ns := by
    rw [Entry.proxy]
    by_cases empty : e.ns = ""
    · rw [if_pos (ofEntry_ns.mpr empty), if_pos empty]
      rfl
    · rw [if_neg (fun h => empty (ofEntry_ns.mp h)), if_neg empty]
      exact congrArg (Option.map some) (nameOf_units e.ns)
  have name : nameOf (Quoting.ofEntry e).name = some e.name := nameOf_units e.name
  have argc : (Quoting.ofEntry e).lib.argc.literal = .number (units (integerText e.lib.argc)) := rfl
  rw [proxyOf, if_pos (by rfl), Quoting.Entry.written, argc]
  dsimp only
  rw [ns, name, JsonText.integerOf_integerText]
  rfl

/-- The first argument of a call that makes a proxy. -/
theorem argument_of_proxyOf {c : Call} {p : Proxy} (h : proxyOf c = some p) {ns : String}
    (named : p.ns = some ns) : .string (units ns.toList) ∈ c.args := by
  rw [proxyOf] at h
  obtain ⟨-, h⟩ := Option.ite_none_right_eq_some.mp h
  split at h
  · next first name argc ret mult args =>
      obtain ⟨ns', first', h⟩ := Option.bind_eq_some_iff.mp h
      obtain ⟨_, -, h⟩ := Option.bind_eq_some_iff.mp h
      obtain ⟨_, -, rfl⟩ := Option.map_eq_some_iff.mp h
      obtain rfl : ns' = some ns := named
      rw [args]
      cases first with
      | string us =>
          obtain ⟨s, name, same⟩ := Option.map_eq_some_iff.mp first'
          obtain rfl := Option.some.inj same
          rw [units_of_nameOf name]
          exact List.mem_cons_self
      | null => cases first'
      | boolean b => cases first'
      | number w => cases first'
      | infinity negative => cases first'
      | nan => cases first'
  · cases h

/-! ### The text -/

section Text

variable {libs : Libs} {e : Entry}

theorem entry_identifier (he : e ∈ libs.entries) :
    (Quoting.ofEntry e).name.all isIdentifierUnit = true := by
  obtain ⟨d, hd, h⟩ := List.mem_flatMap.mp he
  obtain ⟨f, hf, rfl⟩ := List.mem_map.mp h
  exact libs.identifiers d hd f hf

theorem plain_of_identifier {us : List UInt16} (h : us.all isIdentifierUnit = true) :
    Source.Plain us :=
  fun u hu => Source.plain_of_isIdentifierUnit (List.all_eq_true.mp h u hu)

/-- The text is the texts of the functions between blank lines. -/
theorem units_exportsLibsCode (libs : Libs) :
    ∃ codes, (libs.entries.map Quoting.ofEntry).mapM Quoting.exportCode = .ok codes ∧
      units (exportsLibsCode libs) = [0x0A, 0x0A] ++ (codes.flatten ++ [0x0A, 0x0A]) := by
  obtain ⟨codes, written, text⟩ :=
    Quoting.texts_of_exportsLibsCode (Quoting.exportsLibsCode_ofLibs libs)
  rw [Quoting.entries_ofLibs] at written
  refine ⟨codes, written, ?_⟩
  rw [text, List.append_assoc]

theorem exportsLibsCode_eq (libs : Libs) : exportsLibsCode libs =
    "\n\n".toList ++ (libs.entries.flatMap fun e => exportCode e.ns e.name e.lib) ++
      "\n\n".toList := by
  rw [exportsLibsCode, Libs.entries, List.flatMap_assoc]
  simp only [List.flatMap_map]

theorem nul_notMem_exportCode (he : e ∈ libs.entries) (ns : '\u0000' ∉ e.ns.toList) :
    '\u0000' ∉ exportCode e.ns e.name e.lib := by
  have unit : ∀ cs : List Char, '\u0000' ∈ cs → (0 : UInt16) ∈ units cs := by
    have nul : (0 : UInt16) ∈ JsonText.charUnits '\u0000' := by decide
    exact fun cs h => List.mem_flatMap.mpr ⟨_, h, nul⟩
  have name : '\u0000' ∉ e.name.toList := by
    intro h
    have identifier := List.all_eq_true.mp (entry_identifier he) 0 (unit _ h)
    cases identifier
  have argc : '\u0000' ∉ integerText e.lib.argc := by
    intro h
    have word := List.all_eq_true.mp
      (Quoting.argc_word (Quoting.ofEntry e).lib.argc).2 0 (unit _ h)
    cases word
  have boolean : ∀ b, '\u0000' ∉ booleanText b := by
    intro b
    cases b <;> decide
  have quoted : '\u0000' ∉ ['"'] ++ e.ns.toList ++ ['"'] := by simp [ns]
  unfold exportCode
  intro h
  simp only [List.mem_append, name, argc, boolean, or_false] at h
  rcases h with (((((h | h) | h) | h) | h) | h) | h
  · exact absurd h (by decide)
  · split at h
    · exact absurd h (by decide)
    · exact quoted h
  all_goals exact absurd h (by decide)

theorem nul_mem_exportCode (nul : '\u0000' ∈ e.ns.toList) :
    '\u0000' ∈ exportCode e.ns e.name e.lib := by
  have named : e.ns ≠ "" := by
    intro empty
    simp [empty] at nul
  have quoted : '\u0000' ∈ ['"'] ++ e.ns.toList ++ ['"'] := by simp [nul]
  unfold exportCode
  rw [if_neg named]
  simp only [List.mem_append] at quoted ⊢
  simp only [quoted, true_or, or_true]

theorem nul_mem_exportsLibsCode (he : e ∈ libs.entries) (nul : '\u0000' ∈ e.ns.toList) :
    '\u0000' ∈ exportsLibsCode libs := by
  have texts : '\u0000' ∈ libs.entries.flatMap fun e => exportCode e.ns e.name e.lib :=
    List.mem_flatMap.mpr ⟨e, he, nul_mem_exportCode nul⟩
  exact exportsLibsCode_eq libs ▸ List.mem_append_left _ (List.mem_append_right _ texts)

/-- The calls of the texts, where the names can stand between quotes. -/
theorem scan_written_all {es : List Entry} {codes : List (List UInt16)}
    (written : (es.map Quoting.ofEntry).mapM Quoting.exportCode = .ok codes)
    (ns : ∀ e ∈ es, Source.Plain (units e.ns.toList))
    (names : ∀ e ∈ es, Source.Plain (Quoting.ofEntry e).name) (done : List Call) :
    scan (done, .start) (codes.flatten ++ [0x0A, 0x0A]) =
      some (done ++ es.map fun e => (Quoting.ofEntry e).written, .start) := by
  induction es generalizing codes done with
  | nil =>
      rw [List.map_nil, List.mapM_nil] at written
      obtain rfl := Except.ok.inj written
      rw [List.flatten_nil, List.nil_append, Quoting.scan_end, List.map_nil, List.append_nil]
  | cons e es ih =>
      rw [List.map_cons] at written
      obtain ⟨code, rest, first, later, rfl⟩ := Quoting.mapM_exportCode_cons written
      obtain ⟨nsPlain, ns⟩ := List.forall_mem_cons.mp ns
      obtain ⟨namePlain, names⟩ := List.forall_mem_cons.mp names
      rw [List.flatten_cons, List.append_assoc, Quoting.scan_written first nsPlain namePlain,
        ih later ns names, List.map_cons, List.append_assoc, List.singleton_append]

theorem mapM_written (es : List Entry) :
    (es.map fun e => (Quoting.ofEntry e).written).mapM proxyOf = some (es.map Entry.proxy) := by
  induction es with
  | nil => rfl
  | cons e es ih => simp [List.mapM_cons, proxyOf_written, ih]

/-- The library script makes the calls of the table. -/
theorem libScript_exports (plain : ∀ e ∈ libs.entries, Source.Plain (units e.ns.toList))
    (noNul : ∀ e ∈ libs.entries, '\u0000' ∉ e.ns.toList) :
    libScript (exportsLibsCode libs) = some libs.calls := by
  obtain ⟨codes, written, text⟩ := units_exportsLibsCode libs
  have notCut : '\u0000' ∉ exportsLibsCode libs := by
    rw [exportsLibsCode_eq]
    simp only [List.mem_append, List.mem_flatMap, not_or, not_exists, not_and]
    exact ⟨⟨by simp, fun e he => nul_notMem_exportCode he (noNul e he)⟩, by simp⟩
  have names : ∀ e ∈ libs.entries, Source.Plain (Quoting.ofEntry e).name :=
    fun e he => plain_of_identifier (entry_identifier he)
  have calls : program (units (exportsLibsCode libs)) =
      some (libs.entries.map fun e => (Quoting.ofEntry e).written) := by
    rw [Source.program_eq_some, text, Source.scan_blank (by decide),
      scan_written_all written plain names, List.nil_append]
  rw [libScript, if_neg notCut, calls, Option.bind_some, mapM_written]
  rfl

/-! ### Namespaces that cannot be written -/

theorem notMem_of_plain {us : List UInt16} (plain : Source.Plain us) : 0x22 ∉ us :=
  fun hu => plain _ hu (.inl rfl)

section Occurs

variable {e : Quoting.Entry} {more s : List UInt16}
  (identifier : e.name.all isIdentifierUnit = true)
  (special : ¬ Source.Plain s)

include identifier special

/-- Behind the namespace there is no such string as far as the end of the line. -/
theorem occurs_behind_ns (h : Occurs (0x22 :: 0x2C :: 0x22 ::
    (e.name ++ 0x22 :: (e.tail ++ 0x0A :: more))) s) : Occurs more s := by
  have namePlain := plain_of_identifier identifier
  -- The quote behind the namespace.
  rcases h.cons with ⟨-, rest, read⟩ | h
  · have closed := Quoting.literal_comma (e.name ++ 0x22 :: (e.tail ++ 0x0A :: more))
    obtain ⟨rfl, -⟩ := Prod.mk.inj (Option.some.inj (closed.symm.trans read))
    exact absurd Quoting.plain_comma special
  rcases h.cons with ⟨no, -⟩ | h
  · exact absurd no (by decide)
  -- The quote in front of the name.
  rcases h.cons with ⟨-, rest, read⟩ | h
  · have closed := Source.literal_plain namePlain (e.tail ++ 0x0A :: more)
    obtain ⟨rfl, -⟩ := Prod.mk.inj (Option.some.inj (closed.symm.trans read))
    exact absurd namePlain special
  -- The quote behind the name.
  rcases (h.skip (notMem_of_plain namePlain)).cons with ⟨-, rest, read⟩ | h
  · have newLine : Source.isLineTerminator 0x0A = true := rfl
    have unclosed : literal (e.tail ++ 0x0A :: more) = none :=
      Source.literal_unclosed (Quoting.tail_plain e) newLine
    rw [unclosed] at read
    cases read
  rcases (h.skip (notMem_of_plain (Quoting.tail_plain e))).cons with ⟨no, -⟩ | h
  · exact absurd no (by decide)
  · exact h

/-- A string that begins inside of the namespace is shorter than this. -/
theorem shorter_of_literal {inside : List UInt16} (suffix : inside <:+ e.ns) {rest : List UInt16}
    (read : literal (inside ++ 0x22 :: 0x2C :: 0x22 :: (e.name ++ 0x22 :: more)) = some (s, rest))
    {done : List Call} {f : List UInt16} {args : List Source.Literal}
    (goesOn : (scan (done, .behind f args) rest).isSome = true) :
    ¬ Source.Plain e.ns ∧ s.length < e.ns.length := by
  have nsSpecial : ¬ Source.Plain e.ns := by
    intro plain
    have insidePlain : Source.Plain inside := fun u hu => plain u (suffix.subset hu)
    rw [Source.literal_plain insidePlain] at read
    obtain ⟨rfl, -⟩ := Prod.mk.inj (Option.some.inj read)
    exact special insidePlain
  refine ⟨nsSpecial, ?_⟩
  rcases Source.literal_cases read with ⟨plain, rfl, -⟩ | shorter | ⟨-, v, w, later, -⟩
  · exact absurd plain special
  · exact Nat.lt_of_lt_of_le shorter suffix.length_le
  · -- The literal would go on to the quote in front of the name.
    have closed := Quoting.literal_comma (e.name ++ 0x22 :: more)
    obtain ⟨-, rfl⟩ := Prod.mk.inj (Option.some.inj (closed.symm.trans later))
    rw [Source.scan_behind_identifier identifier] at goesOn
    cases goesOn

/-- A string with special units that stands in the text of a function, or behind it. -/
theorem occurs_exportCode {code : List UInt16} (written : Quoting.exportCode e = .ok code)
    (h : Occurs (code ++ more) s) :
    (¬ Source.Plain e.ns ∧ s.length < e.ns.length) ∨ Occurs more s := by
  rw [Quoting.exportCode_eq written] at h
  have calleeQuote : 0x22 ∉ Quoting.callee := by decide
  rcases (h.skip calleeQuote).cons with ⟨no, -⟩ | h
  · exact absurd no (by decide)
  by_cases empty : e.ns = []
  · rw [if_pos empty] at h
    exact .inr (occurs_behind_ns identifier special ((h.skip (by decide)).append [0x22]))
  · have text : 0x22 :: (e.ns ++ [0x22]) ++ 0x2C :: 0x22 ::
        (e.name ++ 0x22 :: (e.tail ++ 0x0A :: more)) = (0x22 :: e.ns) ++ 0x22 :: 0x2C :: 0x22 ::
          (e.name ++ 0x22 :: (e.tail ++ 0x0A :: more)) := by simp
    rw [if_neg empty, text] at h
    rcases h.split with ⟨before, inside, rest, done, f, args, front, read, goesOn⟩ | h
    · have suffix : inside <:+ e.ns := by
        cases before with
        | nil =>
            obtain ⟨-, rfl⟩ := List.cons.inj front
            exact List.suffix_refl _
        | cons d before =>
            have whole : e.ns = before ++ 0x22 :: inside := (List.cons.inj front).2
            rw [whole]
            exact (List.suffix_cons _ _).trans (List.suffix_append _ _)
      exact .inl (shorter_of_literal identifier special suffix read goesOn)
    · exact .inr (occurs_behind_ns identifier special h)

end Occurs

/-- Such a string stands in a longer namespace. -/
theorem occurs_codes {es : List Entry} {codes : List (List UInt16)}
    (written : (es.map Quoting.ofEntry).mapM Quoting.exportCode = .ok codes)
    (identifiers : ∀ e ∈ es, (Quoting.ofEntry e).name.all isIdentifierUnit = true)
    {s : List UInt16} (special : ¬ Source.Plain s)
    (h : Occurs (codes.flatten ++ [0x0A, 0x0A]) s) :
    ∃ e ∈ es, ¬ Source.Plain (units e.ns.toList) ∧ s.length < (units e.ns.toList).length := by
  induction es generalizing codes with
  | nil =>
      rw [List.map_nil, List.mapM_nil] at written
      obtain rfl := Except.ok.inj written
      obtain ⟨us, -, -, -, -, suffix, -⟩ := h
      have quote : (0x22 : UInt16) ∈ [0x0A, 0x0A] := suffix.subset List.mem_cons_self
      exact absurd quote (by decide)
  | cons e es ih =>
      rw [List.map_cons] at written
      obtain ⟨code, rest, first, later, rfl⟩ := Quoting.mapM_exportCode_cons written
      obtain ⟨identifier, identifiers⟩ := List.forall_mem_cons.mp identifiers
      rw [List.flatten_cons, List.append_assoc] at h
      rcases occurs_exportCode identifier special first h with here | there
      · exact ⟨e, List.mem_cons_self, here⟩
      · obtain ⟨d, hd, longer⟩ := ih later identifiers there
        exact ⟨d, List.mem_cons_of_mem _ hd, longer⟩

/-- If the text has every namespace that is special for a string, there is none. -/
theorem plain_of_occurs (h : ∀ e ∈ libs.entries, ¬ Source.Plain (units e.ns.toList) →
      Occurs (units (exportsLibsCode libs)) (units e.ns.toList)) :
    ∀ e ∈ libs.entries, Source.Plain (units e.ns.toList) := by
  obtain ⟨codes, written, text⟩ := units_exportsLibsCode libs
  -- For each of them there is a longer one.
  have longer : ∀ n, ∀ e ∈ libs.entries, ¬ Source.Plain (units e.ns.toList) →
      n ≤ (units e.ns.toList).length → ∃ d ∈ libs.entries, n + 1 ≤ (units d.ns.toList).length ∧
        ¬ Source.Plain (units d.ns.toList) := by
    intro n e he special long
    have occurs := h e he special
    rw [text] at occurs
    obtain ⟨d, hd, dSpecial, longer⟩ := occurs_codes written (fun e he => entry_identifier he)
      special
      (occurs.skip (by decide))
    exact ⟨d, hd, by omega, dSpecial⟩
  intro e he
  by_contra special
  have unbounded : ∀ n, ∃ d ∈ libs.entries, n ≤ (units d.ns.toList).length ∧
      ¬ Source.Plain (units d.ns.toList) := by
    intro n
    induction n with
    | zero => exact ⟨e, he, Nat.zero_le _, special⟩
    | succ n ih =>
        obtain ⟨d, hd, long, special⟩ := ih
        exact longer n d hd special long
  let lengths := libs.entries.map fun e => (units e.ns.toList).length
  obtain ⟨d, hd, long, -⟩ := unbounded (lengths.sum + 1)
  have member : (units d.ns.toList).length ∈ lengths := List.mem_map.mpr ⟨d, hd, rfl⟩
  have bound := List.single_le_sum (fun _ _ => Nat.zero_le _) _ member
  omega

end Text

end ThreadJs.Exports
