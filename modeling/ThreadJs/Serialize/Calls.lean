import ThreadJs.Serialize.Memory

/-!
What saving, loading and deleting do in memory (`serialize.cc`).

* `create_spec` — given addresses that are not in use, as many as the tree has blocks, `js_save`
  puts the tree into these blocks and leaves all others alone.
* `restore_spec` — `js_load` then makes the same value as from the tree.
* `delete_spec` — the destructors give back exactly the blocks of the tree, each once.
* `delete_mono` — with more room for its recursion, deleting does the same.
-/

namespace ThreadJs.Serialize.Memory

open Heap

variable {Addr D : Type} {h h' : Addr → Option (Block Addr D)}

/-! ### What is saved -/

section Save

variable [DecidableEq Addr]

/-- A table of pointers of which the first ones are set. -/
def row (done : List Addr) (left : ℕ) : List (Option Addr) :=
  done.map some ++ List.replicate left none

theorem setPointer_spec {table : Addr} {front back : List (Option Addr)} {old : Option Addr}
    (held : h table = some (.pointers (front ++ old :: back))) (p : Option Addr) :
    ∃ h', setPointer h (some table) front.length p = .returned h' ∧
      Wrote h h' table (.pointers (front ++ p :: back)) := by
  obtain ⟨h', wrote, spec⟩ := write_spec held (.pointers (front ++ p :: back))
  refine ⟨h', ?_, spec⟩
  simp [setPointer, read_eq held, List.set_append_right, wrote]

/-- The next pointer of a row is set. -/
theorem setPointer_row {table : Addr} {done : List Addr} {left : ℕ}
    (held : h table = some (.pointers (row done (left + 1)))) (p : Addr) :
    ∃ h', setPointer h (some table) done.length (some p) = .returned h' ∧
      Wrote h h' table (.pointers (row (done ++ [p]) left)) := by
  have front : done.length = (done.map some).length := (List.length_map some).symm
  rw [row, List.replicate_succ] at held
  obtain ⟨h', stored, wrote⟩ := setPointer_spec held (some p)
  exact ⟨h', front ▸ stored, by simpa [row] using wrote⟩

/-- What has been made of the addresses `as`. -/
structure Made (h h' : Addr → Option (Block Addr D)) (d : JData D) (p : Addr)
    (as : List Addr) : Prop where
  rep : Rep h' d p as
  frame : ∀ a, a ∉ as → h' a = h a

theorem create_plain {d : JData D} {fields : Fields Addr D} (isPlain : plainFields d = some fields)
    (m : Memory Addr (Block Addr D)) : create d m = m.new (.object fields) := by
  cases d <;> cases isPlain <;> rfl

theorem create_text {d : JData D} {text : Text Addr D} (isText : textFields d = some text)
    (m : Memory Addr (Block Addr D)) : create d m = createText text m := by
  cases d <;> cases isText <;> rfl

theorem make_plain {d : JData D} {fields : Fields Addr D} (isPlain : plainFields d = some fields)
    {as : List Addr} (fresh : Fresh h as) (count : as.length = 1) (rest : List Addr) :
    ∃ p h', create d ⟨h, as ++ rest⟩ = .returned (p, ⟨h', rest⟩) ∧ Made h h' d p as := by
  obtain ⟨this, rfl⟩ := List.length_eq_one_iff.mp count
  obtain ⟨h', new, wrote⟩ := Memory.new_spec fresh.head rest (.object fields)
  refine ⟨this, h', ?_, .plain isPlain wrote.here, fun a other => wrote.frame a ?_⟩
  · rw [create_plain isPlain]
    exact new
  · simpa using other

theorem make_text {d : JData D} {text : Text Addr D} (isText : textFields d = some text)
    {as : List Addr} (fresh : Fresh h as) (count : as.length = 2) (rest : List Addr) :
    ∃ p h', create d ⟨h, as ++ rest⟩ = .returned (p, ⟨h', rest⟩) ∧ Made h h' d p as := by
  obtain ⟨this, value, rfl⟩ := List.length_eq_two.mp count
  have other : value ≠ this := by simpa [eq_comm] using fresh.once
  obtain ⟨h₁, new₁, wrote₁⟩ := Memory.new_spec fresh.head (value :: rest)
    (.object (text.fields none 0))
  have unused : h₁ value = none := (wrote₁.frame value other).trans (fresh.unused value (by simp))
  obtain ⟨h₂, new₂, wrote₂⟩ := Memory.new_spec unused rest (.chars text.bytes)
  have held : h₂ this = _ := (wrote₂.frame this other.symm).trans wrote₁.here
  obtain ⟨h₃, write₃, wrote₃⟩ := write_spec held (.object (text.fields (some value) text.len))
  refine ⟨this, h₃, ?_, .text isText wrote₃.here ?_, fun a unmade => ?_⟩
  · simp [create_text isText, createText, new₁, new₂, write₃]
  · exact (wrote₃.frame value other).trans wrote₂.here
  · obtain ⟨notThis, notValue⟩ : a ≠ this ∧ a ≠ value := by simpa using unmade
    rw [wrote₃.frame a notThis, wrote₂.frame a notValue, wrote₁.frame a notThis]

omit [DecidableEq Addr] in
/-- The addresses for two trees. -/
theorem exists_append {as : List Addr} {m n : ℕ} (count : as.length = m + n) :
    ∃ bs cs, as = bs ++ cs ∧ bs.length = m ∧ cs.length = n := by
  refine ⟨as.take m, as.drop m, (List.take_append_drop m as).symm, ?_, ?_⟩
  · rw [List.length_take, count]
    omega
  · rw [List.length_drop, count]
    omega

mutual

theorem create_spec (d : JData D) {h : Addr → Option (Block Addr D)} {as : List Addr}
    (fresh : Fresh h as) (count : as.length = blocks d) (rest : List Addr) :
    ∃ p h', create d ⟨h, as ++ rest⟩ = .returned (p, ⟨h', rest⟩) ∧ Made h h' d p as := by
  cases d with
  | undefined | null | function | boolean | booleanObject | int32 | uint32 | number | numberObject
  | date => exact make_plain rfl fresh count rest
  | string | stringObject | regExp => exact make_text rfl fresh count rest
  | array elems =>
      obtain ⟨front, as, rfl, two, countElems⟩ := exists_append count
      obtain ⟨this, value, rfl⟩ := List.length_eq_two.mp two
      have fresh : Fresh h (this :: value :: as) := by simpa using fresh
      obtain ⟨⟨thisValue, this_notMem⟩, value_notMem, -⟩ :
          (this ≠ value ∧ this ∉ as) ∧ value ∉ as ∧ as.Nodup := by simpa using fresh.once
      obtain ⟨h₁, new₁, wrote₁⟩ := Memory.new_spec fresh.head (value :: (as ++ rest))
        (.object (.array 0 none))
      have unused : h₁ value = none :=
        (wrote₁.frame value thisValue.symm).trans (fresh.unused value (by simp))
      obtain ⟨h₂, new₂, wrote₂⟩ := Memory.new_spec unused (as ++ rest)
        (.pointers (List.replicate elems.length none))
      have held : h₂ this = _ := (wrote₂.frame this thisValue).trans wrote₁.here
      obtain ⟨h₃, write₃, wrote₃⟩ := write_spec held (.object (.array elems.length (some value)))
      have table : h₃ value = some (.pointers (row [] elems.length)) :=
        (wrote₃.frame value thisValue.symm).trans wrote₂.here
      have old : ∀ a, a ≠ this → a ≠ value → h₃ a = h a := fun a notThis notValue => by
        rw [wrote₃.frame a notThis, wrote₂.frame a notValue, wrote₁.frame a notThis]
      have fresh₃ : Fresh h₃ as := by
        refine ⟨(List.nodup_cons.mp (List.nodup_cons.mp fresh.once).2).2, fun a ha => ?_⟩
        rw [old a (by rintro rfl; exact this_notMem ha) (by rintro rfl; exact value_notMem ha)]
        exact fresh.unused a (by simp [ha])
      obtain ⟨ps, h', loop, parts, filled, frame⟩ := createElems_spec elems table fresh₃ countElems
        rest
      have object := (frame this this_notMem thisValue).trans wrote₃.here
      refine ⟨this, h', ?_, .array object filled parts, fun a unmade => ?_⟩
      · rw [List.length_nil] at loop
        simp [create, new₁, new₂, write₃, loop]
      · obtain ⟨notThis, notValue, notPart⟩ : a ≠ this ∧ a ≠ value ∧ a ∉ as := by
          simpa using unmade
        rw [frame a notPart notValue, old a notThis notValue]
  | object entries =>
      obtain ⟨front, as, rfl, three, countEntries⟩ := exists_append count
      obtain ⟨this, value, name, rfl⟩ := List.length_eq_three.mp three
      have fresh : Fresh h (this :: value :: name :: as) := by simpa using fresh
      obtain ⟨⟨thisValue, thisName, this_notMem⟩, ⟨valueName, value_notMem⟩, name_notMem, once⟩ :
          (this ≠ value ∧ this ≠ name ∧ this ∉ as) ∧ (value ≠ name ∧ value ∉ as) ∧
            name ∉ as ∧ as.Nodup := by simpa using fresh.once
      obtain ⟨h₁, new₁, wrote₁⟩ := Memory.new_spec fresh.head (value :: name :: (as ++ rest))
        (.object (.object 0 none none))
      have unused₁ : h₁ value = none :=
        (wrote₁.frame value thisValue.symm).trans (fresh.unused value (by simp))
      obtain ⟨h₂, new₂, wrote₂⟩ := Memory.new_spec unused₁ (name :: (as ++ rest))
        (.pointers (List.replicate entries.length none))
      have unused₂ : h₂ name = none := by
        rw [wrote₂.frame name valueName.symm, wrote₁.frame name thisName.symm]
        exact fresh.unused name (by simp)
      obtain ⟨h₃, new₃, wrote₃⟩ := Memory.new_spec unused₂ (as ++ rest)
        (.pointers (List.replicate entries.length none))
      have held : h₃ this = some (.object (.object 0 none none)) := by
        rw [wrote₃.frame this thisName, wrote₂.frame this thisValue]
        exact wrote₁.here
      obtain ⟨h₄, write₄, wrote₄⟩ :=
        write_spec held (.object (.object entries.length (some value) (some name)))
      have values : h₄ value = some (.pointers (row [] entries.length)) := by
        rw [wrote₄.frame value thisValue.symm, wrote₃.frame value valueName]
        exact wrote₂.here
      have names : h₄ name = some (.pointers (row [] entries.length)) :=
        (wrote₄.frame name thisName.symm).trans wrote₃.here
      have old : ∀ a, a ≠ this → a ≠ value → a ≠ name → h₄ a = h a := by
        intro a notThis notValue notName
        rw [wrote₄.frame a notThis, wrote₃.frame a notName, wrote₂.frame a notValue,
          wrote₁.frame a notThis]
      have fresh₄ : Fresh h₄ as := by
        refine ⟨once, fun a ha => ?_⟩
        rw [old a (by rintro rfl; exact this_notMem ha) (by rintro rfl; exact value_notMem ha)
          (by rintro rfl; exact name_notMem ha)]
        exact fresh.unused a (by simp [ha])
      obtain ⟨ps, qs, h', loop, parts, filled, filledNames, frame⟩ := createEntries_spec entries
        valueName.symm rfl values names fresh₄ countEntries rest
      have object := (frame this this_notMem thisValue thisName).trans wrote₄.here
      refine ⟨this, h', ?_, .object object filled filledNames parts, fun a unmade => ?_⟩
      · rw [List.length_nil] at loop
        simp [create, new₁, new₂, new₃, write₄, loop]
      · obtain ⟨notThis, notValue, notName, notPart⟩ :
            a ≠ this ∧ a ≠ value ∧ a ≠ name ∧ a ∉ as := by simpa using unmade
        rw [frame a notPart notValue notName, old a notThis notValue notName]

theorem createElems_spec (elems : List (JData D)) {h : Addr → Option (Block Addr D)}
    {value : Addr} {done as : List Addr}
    (table : h value = some (.pointers (row done elems.length)))
    (fresh : Fresh h as) (count : as.length = blocksOfElems elems) (rest : List Addr) :
    ∃ ps h', createElems value done.length elems ⟨h, as ++ rest⟩ = .returned ⟨h', rest⟩ ∧
      RepElems h' elems ps as ∧ h' value = some (.pointers ((done ++ ps).map some)) ∧
      ∀ a, a ∉ as → a ≠ value → h' a = h a := by
  cases elems with
  | nil =>
      obtain rfl := List.length_eq_zero_iff.mp count
      refine ⟨[], h, rfl, .nil, ?_, fun _ _ _ => rfl⟩
      rw [table, row, List.append_nil, List.length_nil, List.replicate_zero, List.append_nil]
  | cons d elems =>
      obtain ⟨bs, cs, rfl, countHead, countTail⟩ := exists_append count
      obtain ⟨p, h₁, made, rep, frame₁⟩ := create_spec d fresh.left countHead (cs ++ rest)
      have inBs : ∀ a ∈ bs, a ≠ value ∧ a ∉ cs := by
        refine fun a ha => ⟨?_, fun there => ?_⟩
        · rintro rfl
          exact fresh.left.notMem table ha
        · exact (List.nodup_append.mp fresh.once).2.2 a ha a there rfl
      have table₁ := (frame₁ value (fresh.left.notMem table)).trans table
      obtain ⟨h₂, stored, wrote⟩ := setPointer_row table₁ p
      have fresh₂ : Fresh h₂ cs := (fresh.right frame₁).congr fun a ha => wrote.frame a (by
        rintro rfl
        exact (fresh.right frame₁).notMem table₁ ha)
      obtain ⟨ps, h', loop, parts, filled, frame₂⟩ := createElems_spec elems wrote.here fresh₂
        countTail rest
      refine ⟨p :: ps, h', ?_, .cons (rep.frame fun a ha => ?_) parts, ?_, ?_⟩
      · rw [createElems, List.append_assoc, made]
        simpa [stored] using loop
      · obtain ⟨notTable, notLater⟩ := inBs a ha
        rw [frame₂ a notLater notTable, wrote.frame a notTable]
      · simpa using filled
      · intro a unmade other
        obtain ⟨notHead, notTail⟩ := not_or.mp (mt List.mem_append.mpr unmade)
        rw [frame₂ a notTail other, wrote.frame a other, frame₁ a notHead]

theorem createEntries_spec (entries : List (List UInt8 × JData D))
    {h : Addr → Option (Block Addr D)} {value name : Addr} {ps₀ qs₀ as : List Addr}
    (apart : name ≠ value) (both : qs₀.length = ps₀.length)
    (values : h value = some (.pointers (row ps₀ entries.length)))
    (names : h name = some (.pointers (row qs₀ entries.length)))
    (fresh : Fresh h as) (count : as.length = blocksOfEntries entries) (rest : List Addr) :
    ∃ ps qs h', createEntries value name ps₀.length entries ⟨h, as ++ rest⟩ =
        .returned ⟨h', rest⟩ ∧
      RepEntries h' entries ps qs as ∧ h' value = some (.pointers ((ps₀ ++ ps).map some)) ∧
      h' name = some (.pointers ((qs₀ ++ qs).map some)) ∧
      ∀ a, a ∉ as → a ≠ value → a ≠ name → h' a = h a := by
  cases entries with
  | nil =>
      obtain rfl := List.length_eq_zero_iff.mp count
      refine ⟨[], [], h, rfl, .nil, ?_, ?_, fun _ _ _ _ => rfl⟩
      · rw [values, row, List.append_nil, List.length_nil, List.replicate_zero, List.append_nil]
      · rw [names, row, List.append_nil, List.length_nil, List.replicate_zero, List.append_nil]
  | cons entry entries =>
      obtain ⟨key, d⟩ := entry
      obtain ⟨front, cs, rfl, countFront, countTail⟩ := exists_append count
      obtain ⟨single, bs, rfl, one, countHead⟩ := exists_append countFront
      obtain ⟨q, rfl⟩ := List.length_eq_one_iff.mp one
      have fresh : Fresh h (q :: (bs ++ cs)) := by simpa using fresh
      obtain ⟨q_notMem, once⟩ := List.nodup_cons.mp fresh.once
      have disjoint : ∀ a ∈ bs, a ∉ cs := fun a ha there =>
        (List.nodup_append.mp once).2.2 a ha a there rfl
      -- The tables are not among the new blocks.
      have notValue : ∀ a ∈ q :: (bs ++ cs), a ≠ value := by
        rintro a ha rfl
        exact fresh.notMem values ha
      have notName : ∀ a ∈ q :: (bs ++ cs), a ≠ name := by
        rintro a ha rfl
        exact fresh.notMem names ha
      obtain ⟨h₁, new, wrote₁⟩ := Memory.new_spec fresh.head (bs ++ (cs ++ rest)) (.chars key)
      have names₁ := (wrote₁.frame name (notName q (by simp)).symm).trans names
      obtain ⟨h₂, named, wrote₂⟩ := setPointer_row names₁ q
      have fresh₂ : Fresh h₂ (bs ++ cs) := by
        refine ⟨once, fun a ha => ?_⟩
        rw [wrote₂.frame a (notName a (List.mem_cons_of_mem q ha)), wrote₁.frame a (by
          rintro rfl
          exact q_notMem ha)]
        exact fresh.unused a (List.mem_cons_of_mem q ha)
      obtain ⟨p, h₃, made, rep, frame₃⟩ := create_spec d fresh₂.left countHead (cs ++ rest)
      have values₃ : h₃ value = some (.pointers (row ps₀ (entries.length + 1))) := by
        rw [frame₃ value fun ha => notValue value (by simp [ha]) rfl,
          wrote₂.frame value apart.symm, wrote₁.frame value (notValue q (by simp)).symm]
        exact values
      obtain ⟨h₄, stored, wrote₄⟩ := setPointer_row values₃ p
      have names₄ : h₄ name = some (.pointers (row (qs₀ ++ [q]) entries.length)) := by
        rw [wrote₄.frame name apart, frame₃ name fun ha => notName name (by simp [ha]) rfl]
        exact wrote₂.here
      have fresh₄ : Fresh h₄ cs := (fresh₂.right frame₃).congr fun a ha =>
        wrote₄.frame a (notValue a (by simp [ha]))
      have both' : (qs₀ ++ [q]).length = (ps₀ ++ [p]).length := by simp [both]
      obtain ⟨ps, qs, h', loop, parts, filled, filledNames, frame'⟩ := createEntries_spec entries
        apart both' wrote₄.here names₄ fresh₄ countTail rest
      refine ⟨p :: ps, q :: qs, h', ?_, .cons ?_ (rep.frame fun a ha => ?_) parts, ?_, ?_, ?_⟩
      · rw [both] at named
        rw [createEntries]
        simp only [List.append_assoc, List.cons_append, List.nil_append, new, Call.returned_bind,
          named, made, stored]
        simpa using loop
      · have q_notIn : q ∉ bs ∧ q ∉ cs := by simpa using q_notMem
        rw [frame' q q_notIn.2 (notValue q (by simp)) (notName q (by simp)),
          wrote₄.frame q (notValue q (by simp)), frame₃ q q_notIn.1,
          wrote₂.frame q (notName q (by simp))]
        exact wrote₁.here
      · have tables := And.intro (notValue a (by simp [ha])) (notName a (by simp [ha]))
        rw [frame' a (disjoint a ha) tables.1 tables.2, wrote₄.frame a tables.1]
      · simpa using filled
      · simpa using filledNames
      · intro a unmade other otherName
        obtain ⟨notQ, notHead, notTail⟩ : a ≠ q ∧ a ∉ bs ∧ a ∉ cs := by simpa using unmade
        rw [frame' a notTail other otherName, wrote₄.frame a other, frame₃ a notHead,
          wrote₂.frame a otherName, wrote₁.frame a notQ]

end

end Save

/-! ### What is loaded -/

theorem pointer_eq {table p : Addr} {front back : List (Option Addr)}
    (held : h table = some (.pointers (front ++ some p :: back))) :
    pointer h (some table) front.length = .returned p := by
  simp [pointer, read_eq held]

theorem chars_eq {a : Addr} {bytes : List UInt8} (held : h a = some (.chars bytes)) :
    chars h (some a) = .returned bytes := by
  simp [chars, read_eq held]

theorem blocks_pos (d : JData D) : 0 < blocks d := by
  cases d with
  | array | object =>
      rw [blocks]
      omega
  | _ => exact Nat.succ_pos _

mutual

theorem restore_spec (d : JData D) (depth : ℕ) {this : Addr} {as : List Addr}
    (rep : Rep h d this as) (room : blocks d ≤ depth) :
    restore h depth this = .returned d.restore := by
  obtain ⟨depth, rfl⟩ := Nat.exists_eq_add_of_le' (Nat.le_trans (blocks_pos d) room)
  cases rep with
  | plain isPlain object =>
      cases d <;> cases isPlain <;> simp [restore, read_eq object, JData.restore]
  | text isText object chars =>
      cases d <;> cases isText <;>
        simp [restore, read_eq object, chars_eq chars, JData.restore]
  | array object table parts =>
      rw [blocks] at room
      have loop := restoreElems_spec _ depth [] parts (by omega) table []
      simp only [List.length_nil, List.nil_append, Call.pure_eq] at loop
      simp [restore, read_eq object, loop, JData.restore]
  | object object values names parts =>
      rw [blocks] at room
      have loop := restoreEntries_spec _ depth [] [] parts (by omega) rfl values names []
      simp only [List.length_nil, Call.pure_eq] at loop
      simp [restore, read_eq object, loop, JData.restore]

theorem restoreElems_spec (elems : List (JData D)) (depth : ℕ) (done : List Addr) {value : Addr}
    {ps as : List Addr} (rep : RepElems h elems ps as) (room : blocksOfElems elems ≤ depth)
    (table : h value = some (.pointers ((done ++ ps).map some)))
    (loaded : List (Option (JsValue D))) :
    Call.loop (fun i elems => do
        let v ← restore h depth (← pointer h (some value) i)
        return elems ++ [some v]) done.length elems.length loaded =
      .returned (loaded ++ restoreElems elems) := by
  cases elems with
  | nil => simp [Call.loop, Serialize.restoreElems]
  | cons d elems =>
      cases rep with
      | @cons _ _ p ps bs cs head tail =>
          rw [blocksOfElems] at room
          have front : done.length = (done.map some).length := (List.length_map some).symm
          have here : pointer h (some value) done.length = .returned p := by
            rw [front]
            exact pointer_eq (by simpa using table)
          have first := restore_spec d depth head (Nat.le_trans (Nat.le_add_right _ _) room)
          have rest := restoreElems_spec elems depth (done ++ [p]) tail
            (Nat.le_trans (Nat.le_add_left _ _) room) (by simpa using table)
            (loaded ++ [some d.restore])
          rw [List.length_cons, Call.loop]
          simp only [here, Call.returned_bind, first, Call.pure_eq]
          simpa [Serialize.restoreElems] using rest

theorem restoreEntries_spec (entries : List (List UInt8 × JData D)) (depth : ℕ)
    (ps₀ qs₀ : List Addr) {value name : Addr} {ps qs as : List Addr}
    (rep : RepEntries h entries ps qs as) (room : blocksOfEntries entries ≤ depth)
    (both : qs₀.length = ps₀.length)
    (values : h value = some (.pointers ((ps₀ ++ ps).map some)))
    (names : h name = some (.pointers ((qs₀ ++ qs).map some)))
    (loaded : List (String × JsValue D)) :
    Call.loop (fun i props => do
        let key ← chars h (some (← pointer h (some name) i))
        let v ← restore h depth (← pointer h (some value) i)
        return define props (newFromUtf8 key none, v)) ps₀.length entries.length loaded =
      .returned ((restoreEntries entries).foldl define loaded) := by
  cases entries with
  | nil => simp [Call.loop, Serialize.restoreEntries]
  | cons entry entries =>
      obtain ⟨key, d⟩ := entry
      cases rep with
      | @cons _ _ _ p q ps qs bs cs chars head tail =>
          rw [blocksOfEntries] at room
          have front : ps₀.length = (ps₀.map some).length := (List.length_map some).symm
          have here : pointer h (some value) ps₀.length = .returned p := by
            rw [front]
            exact pointer_eq (by simpa using values)
          have frontName : ps₀.length = (qs₀.map some).length := by rw [List.length_map, both]
          have named : pointer h (some name) ps₀.length = .returned q := by
            rw [frontName]
            exact pointer_eq (by simpa using names)
          have first := restore_spec d depth head (by omega)
          have rest := restoreEntries_spec entries depth (ps₀ ++ [p]) (qs₀ ++ [q]) tail
            (by omega) (by simp [both]) (by simpa using values) (by simpa using names)
            (define loaded (newFromUtf8 key none, d.restore))
          rw [List.length_cons, Call.loop]
          simp only [named, here, Call.returned_bind, chars_eq chars, first, Call.pure_eq]
          simpa [Serialize.restoreEntries] using rest

end

/-! ### What is deleted -/

/-- Exactly these blocks have been given back, but for tables that are still in use. -/
structure Deleted (h h' : Addr → Option (Block Addr D)) (as tables : List Addr) : Prop where
  gone : ∀ a ∈ as, h' a = none
  frame : ∀ a, a ∉ as → a ∉ tables → h' a = h a

section Delete

variable [DecidableEq Addr]

mutual

theorem delete_spec (d : JData D) (depth : ℕ) {h : Addr → Option (Block Addr D)} {this : Addr}
    {as : List Addr} (rep : Rep h d this as) (once : as.Nodup) (room : blocks d ≤ depth) :
    ∃ h', delete depth this h = .returned h' ∧ Deleted h h' as [] := by
  obtain ⟨depth, rfl⟩ := Nat.exists_eq_add_of_le' (Nat.le_trans (blocks_pos d) room)
  cases rep with
  | plain isPlain object =>
      obtain ⟨h', freed, gone, frame⟩ := free_spec object
      refine ⟨h', ?_, by simpa using gone, fun a other _ => frame a (by simpa using other)⟩
      cases d <;> cases isPlain <;> simpa [delete, read_eq object] using freed
  | @text _ this value text isText object chars =>
      have other : this ≠ value := by simpa using once
      obtain ⟨h₁, freed₁, gone₁, frame₁⟩ := free_spec chars
      obtain ⟨h₂, freed₂, gone₂, frame₂⟩ := free_spec ((frame₁ this other).trans object)
      refine ⟨h₂, ?_, ⟨fun a ha => ?_, fun a undeleted _ => ?_⟩⟩
      · cases d <;> cases isText <;>
          simp [delete, read_eq object, deleteArray, freed₁, freed₂]
      · obtain rfl | rfl : a = this ∨ a = value := by simpa using ha
        · exact gone₂
        · exact (frame₂ a other.symm).trans gone₁
      · obtain ⟨notThis, notValue⟩ : a ≠ this ∧ a ≠ value := by simpa using undeleted
        rw [frame₂ a notThis, frame₁ a notValue]
  | @array elems this value ps as object table parts =>
      obtain ⟨⟨other, this_notMem⟩, value_notMem, once⟩ :
          (this ≠ value ∧ this ∉ as) ∧ value ∉ as ∧ as.Nodup := by simpa using once
      rw [blocks] at room
      obtain ⟨h₁, loop, spec₁, t, table₁⟩ := deleteElems_spec elems depth 0 parts once value_notMem
        (by omega) table
      have object₁ := (spec₁.frame this this_notMem (by simpa using other)).trans object
      obtain ⟨h₂, freed₂, gone₂, frame₂⟩ := free_spec table₁
      obtain ⟨h₃, freed₃, gone₃, frame₃⟩ := free_spec ((frame₂ this other).trans object₁)
      refine ⟨h₃, ?_, ⟨fun a ha => ?_, fun a undeleted _ => ?_⟩⟩
      · simp [delete, read_eq object, loop, deleteArray, freed₂, freed₃]
      · by_cases isThis : a = this
        · exact isThis ▸ gone₃
        · rw [frame₃ a isThis]
          by_cases isValue : a = value
          · exact isValue ▸ gone₂
          · rw [frame₂ a isValue]
            exact spec₁.gone a (by simpa [isThis, isValue] using ha)
      · obtain ⟨notThis, notValue, notPart⟩ : a ≠ this ∧ a ≠ value ∧ a ∉ as := by
          simpa using undeleted
        rw [frame₃ a notThis, frame₂ a notValue, spec₁.frame a notPart (by simpa using notValue)]
  | @object entries this value name ps qs as object values names parts =>
      obtain ⟨⟨thisValue, thisName, this_notMem⟩, ⟨valueName, value_notMem⟩, name_notMem, once⟩ :
          (this ≠ value ∧ this ≠ name ∧ this ∉ as) ∧ (value ≠ name ∧ value ∉ as) ∧
            name ∉ as ∧ as.Nodup := by simpa using once
      rw [blocks] at room
      obtain ⟨h₁, loop, spec₁, ⟨t, values₁⟩, u, names₁⟩ := deleteEntries_spec entries depth 0 parts
        once valueName.symm value_notMem name_notMem (by omega) values names
      have object₁ := (spec₁.frame this this_notMem (by simp [thisValue, thisName])).trans object
      obtain ⟨h₂, freed₂, gone₂, frame₂⟩ := free_spec values₁
      obtain ⟨h₃, freed₃, gone₃, frame₃⟩ := free_spec ((frame₂ name valueName.symm).trans names₁)
      obtain ⟨h₄, freed₄, gone₄, frame₄⟩ := free_spec
        ((frame₃ this thisName).trans ((frame₂ this thisValue).trans object₁))
      refine ⟨h₄, ?_, ⟨fun a ha => ?_, fun a undeleted _ => ?_⟩⟩
      · simp [delete, read_eq object, loop, deleteArray, freed₂, freed₃, freed₄]
      · by_cases isThis : a = this
        · exact isThis ▸ gone₄
        · rw [frame₄ a isThis]
          by_cases isName : a = name
          · exact isName ▸ gone₃
          · rw [frame₃ a isName]
            by_cases isValue : a = value
            · exact isValue ▸ gone₂
            · rw [frame₂ a isValue]
              exact spec₁.gone a (by simpa [isThis, isValue, isName] using ha)
      · obtain ⟨notThis, notValue, notName, notPart⟩ :
            a ≠ this ∧ a ≠ value ∧ a ≠ name ∧ a ∉ as := by simpa using undeleted
        rw [frame₄ a notThis, frame₃ a notName, frame₂ a notValue,
          spec₁.frame a notPart (by simp [notValue, notName])]

theorem deleteElems_spec (elems : List (JData D)) (depth : ℕ) (cleared : ℕ)
    {h : Addr → Option (Block Addr D)} {value : Addr} {ps as : List Addr}
    (rep : RepElems h elems ps as) (once : as.Nodup) (apart : value ∉ as)
    (room : blocksOfElems elems ≤ depth)
    (table : h value = some (.pointers (List.replicate cleared none ++ ps.map some))) :
    ∃ h', Call.loop (fun i h => do
        let p ← pointer h (some value) i
        let h ← delete depth p h
        setPointer h (some value) i none) cleared elems.length h = .returned h' ∧
      Deleted h h' as [value] ∧ ∃ t, h' value = some (.pointers t) := by
  cases elems with
  | nil =>
      cases rep with
      | nil => exact ⟨h, rfl, ⟨by simp, fun _ _ _ => rfl⟩, _, table⟩
  | cons d elems =>
      cases rep with
      | @cons _ _ p ps bs cs head tail =>
          rw [blocksOfElems] at room
          obtain ⟨onceHead, onceTail, disjoint⟩ := List.nodup_append.mp once
          obtain ⟨notHead, notTail⟩ := not_or.mp (mt List.mem_append.mpr apart)
          have here := pointer_eq table
          obtain ⟨h₁, deleted, spec₁⟩ := delete_spec d depth head onceHead (by omega)
          have table₁ := (spec₁.frame value notHead (by simp)).trans table
          obtain ⟨h₂, stored, wrote⟩ := setPointer_spec table₁ none
          rw [List.length_replicate] at here stored
          have same : ∀ a ∈ cs, h₂ a = h a := by
            intro a ha
            rw [wrote.frame a (by rintro rfl; exact notTail ha)]
            exact spec₁.frame a (fun early => disjoint a early a ha rfl) (by simp)
          obtain ⟨h', loop, spec, rest⟩ := deleteElems_spec elems depth (cleared + 1)
            (tail.frame same) onceTail notTail (by omega)
            (by simpa [List.replicate_succ'] using wrote.here)
          refine ⟨h', ?_, ⟨fun a ha => ?_, fun a undeleted other => ?_⟩, rest⟩
          · rw [List.length_cons, Call.loop]
            simpa only [here, Call.returned_bind, deleted, stored] using loop
          · by_cases later : a ∈ cs
            · exact spec.gone a later
            · have early : a ∈ bs := (List.mem_append.mp ha).resolve_right later
              have other : a ≠ value := fun same => notHead (same ▸ early)
              rw [spec.frame a later (by simpa using other), wrote.frame a other]
              exact spec₁.gone a early
          · obtain ⟨notEarly, notLater⟩ := not_or.mp (mt List.mem_append.mpr undeleted)
            rw [spec.frame a notLater other, wrote.frame a (by simpa using other)]
            exact spec₁.frame a notEarly (by simp)

theorem deleteEntries_spec (entries : List (List UInt8 × JData D)) (depth : ℕ) (cleared : ℕ)
    {h : Addr → Option (Block Addr D)} {value name : Addr} {ps qs as : List Addr}
    (rep : RepEntries h entries ps qs as) (once : as.Nodup) (tables : name ≠ value)
    (apart : value ∉ as) (apartName : name ∉ as) (room : blocksOfEntries entries ≤ depth)
    (values : h value = some (.pointers (List.replicate cleared none ++ ps.map some)))
    (names : h name = some (.pointers (List.replicate cleared none ++ qs.map some))) :
    ∃ h', Call.loop (fun i h => do
        let p ← pointer h (some value) i
        let h ← delete depth p h
        let q ← pointer h (some name) i
        let h ← free h q
        let h ← setPointer h (some value) i none
        setPointer h (some name) i none) cleared entries.length h = .returned h' ∧
      Deleted h h' as [value, name] ∧ (∃ t, h' value = some (.pointers t)) ∧
      ∃ t, h' name = some (.pointers t) := by
  cases entries with
  | nil =>
      cases rep with
      | nil => exact ⟨h, rfl, ⟨by simp, fun _ _ _ => rfl⟩, ⟨_, values⟩, _, names⟩
  | cons entry entries =>
      obtain ⟨key, d⟩ := entry
      cases rep with
      | @cons _ _ _ p q ps qs bs cs chars head tail =>
          rw [blocksOfEntries] at room
          obtain ⟨⟨q_notHead, q_notTail⟩, onceHead, onceTail, disjoint⟩ :
              (q ∉ bs ∧ q ∉ cs) ∧ bs.Nodup ∧ cs.Nodup ∧ ∀ a ∈ bs, ∀ b ∈ cs, a ≠ b := by
            simpa [List.nodup_append] using once
          obtain ⟨value_ne, value_notHead, value_notTail⟩ :
              value ≠ q ∧ value ∉ bs ∧ value ∉ cs := by simpa using apart
          obtain ⟨name_ne, name_notHead, name_notTail⟩ :
              name ≠ q ∧ name ∉ bs ∧ name ∉ cs := by simpa using apartName
          have here := pointer_eq values
          obtain ⟨h₁, deleted, spec₁⟩ := delete_spec d depth head onceHead (by omega)
          have values₁ := (spec₁.frame value value_notHead (by simp)).trans values
          have names₁ := (spec₁.frame name name_notHead (by simp)).trans names
          have named := pointer_eq names₁
          obtain ⟨h₂, freed, gone₂, frame₂⟩ :=
            free_spec ((spec₁.frame q q_notHead (by simp)).trans chars)
          obtain ⟨h₃, stored, wrote₃⟩ :=
            setPointer_spec ((frame₂ value value_ne).trans values₁) none
          have names₃ := (wrote₃.frame name tables).trans ((frame₂ name name_ne).trans names₁)
          obtain ⟨h₄, cleared', wrote₄⟩ := setPointer_spec names₃ none
          rw [List.length_replicate] at here named stored cleared'
          have values₄ := (wrote₄.frame value tables.symm).trans wrote₃.here
          have old : ∀ a, a ≠ value → a ≠ name → a ≠ q → h₄ a = h₁ a := by
            intro a notValue notName notQ
            rw [wrote₄.frame a notName, wrote₃.frame a notValue, frame₂ a notQ]
          have same : ∀ a ∈ cs, h₄ a = h a := by
            intro a ha
            rw [old a (by rintro rfl; exact value_notTail ha) (by rintro rfl; exact name_notTail ha)
              (by rintro rfl; exact q_notTail ha)]
            exact spec₁.frame a (fun early => disjoint a early a ha rfl) (by simp)
          obtain ⟨h', loop, spec, rest⟩ := deleteEntries_spec entries depth (cleared + 1)
            (tail.frame same) onceTail tables value_notTail name_notTail (by omega)
            (by simpa [List.replicate_succ'] using values₄)
            (by simpa [List.replicate_succ'] using wrote₄.here)
          refine ⟨h', ?_, ⟨fun a ha => ?_, fun a undeleted other => ?_⟩, rest⟩
          · rw [List.length_cons, Call.loop]
            simpa only [here, Call.returned_bind, deleted, named, freed, stored, cleared']
              using loop
          · by_cases later : a ∈ cs
            · exact spec.gone a later
            · have notValue : a ≠ value := fun same => apart (same ▸ ha)
              have notName : a ≠ name := fun same => apartName (same ▸ ha)
              rw [spec.frame a later (by simp [notValue, notName]), wrote₄.frame a notName,
                wrote₃.frame a notValue]
              by_cases isKey : a = q
              · exact isKey ▸ gone₂
              · rw [frame₂ a isKey]
                exact spec₁.gone a (by simpa [isKey, later] using ha)
          · obtain ⟨notQ, notHead, notTail⟩ : a ≠ q ∧ a ∉ bs ∧ a ∉ cs := by simpa using undeleted
            obtain ⟨notValue, notName⟩ : a ≠ value ∧ a ≠ name := by simpa using other
            rw [spec.frame a notTail other, old a notValue notName notQ]
            exact spec₁.frame a notHead (by simp)

end

theorem delete_succ (depth : ℕ) (p : Addr) (h : Addr → Option (Block Addr D)) :
    Call.Below (delete depth p h) (delete (depth + 1) p h) := by
  induction depth generalizing p h with
  | zero => exact .inl rfl
  | succ depth ih =>
      rw [delete, delete]
      refine (Call.Below.refl _).bind fun block => ?_
      cases block with
      | object fields =>
          cases fields with
          | array size value =>
              refine Call.Below.bind (.loop (fun i h => ?_) _ _ _) fun h => .refl _
              exact (Call.Below.refl _).bind fun p => (ih p h).bind fun h => .refl _
          | object size value name =>
              refine Call.Below.bind (.loop (fun i h => ?_) _ _ _) fun h => .refl _
              exact (Call.Below.refl _).bind fun p => (ih p h).bind fun h => .refl _
          | _ => exact .refl _
      | pointers | chars => exact .refl _

/-- With more room `delete` does the same. -/
theorem delete_mono {depth more : ℕ} (le : depth ≤ more) (p : Addr)
    (h : Addr → Option (Block Addr D)) : Call.Below (delete depth p h) (delete more p h) := by
  induction le with
  | refl => exact .refl _
  | step _ ih => exact ih.trans (delete_succ _ p h)

end Delete

end ThreadJs.Serialize.Memory
