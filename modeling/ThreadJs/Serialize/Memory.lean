import ThreadJs.Lib.Heap
import ThreadJs.Serialize.RoundTrip

/-!
The memory of saved data (`serialize.cc`).

`js_save` makes an object for every node of the tree, with buffers for texts and tables of
pointers for elements and properties. `js_load` follows the pointers, and the destructors give
everything back. `Rep` says that a tree is in memory, in which blocks.
-/

namespace ThreadJs.Serialize.Memory

open Heap

/-- The members of an object of one of the classes. -/
inductive Fields (Addr D : Type) where
  | undefined
  | null
  | function
  | boolean (value : Bool)
  | booleanObject (value : Bool)
  | string (value : Option Addr) (len : ℕ)
  | stringObject (value : Option Addr) (len : ℕ)
  | regExp (value : Option Addr) (len : ℕ) (flags : RegExpFlags)
  | int32 (value : Int32)
  | uint32 (value : UInt32)
  | number (value : Number D)
  | numberObject (value : Number D)
  | date (value : Number D)
  | array (size : ℕ) (value : Option Addr)
  | object (size : ℕ) (value name : Option Addr)

/-- What is allocated at once. -/
inductive Block (Addr D : Type) where
  | object (fields : Fields Addr D)
  /-- `JData *[]` and `char *[]` -/
  | pointers (table : List (Option Addr))
  | chars (bytes : List UInt8)

variable {Addr D : Type}

/-- The members of an object that has no buffers. -/
def plainFields : JData D → Option (Fields Addr D)
  | .undefined => some .undefined
  | .null => some .null
  | .function => some .function
  | .boolean value => some (.boolean value)
  | .booleanObject value => some (.booleanObject value)
  | .int32 value => some (.int32 value)
  | .uint32 value => some (.uint32 value)
  | .number value => some (.number value)
  | .numberObject value => some (.numberObject value)
  | .date value => some (.date value)
  | .string _ _ | .stringObject _ _ | .regExp _ _ _ | .array _ | .object _ => none

/-- The members of an object with a text. -/
structure Text (Addr D : Type) where
  fields : Option Addr → ℕ → Fields Addr D
  bytes : List UInt8
  len : ℕ

def textFields : JData D → Option (Text Addr D)
  | .string value len => some ⟨.string, value, len⟩
  | .stringObject value len => some ⟨.stringObject, value, len⟩
  | .regExp value len flags => some ⟨(.regExp · · flags), value, len⟩
  | _ => none

/-! ### Saving -/

section Save

variable [DecidableEq Addr]

/-- `table[i] = p` -/
def setPointer (h : Addr → Option (Block Addr D)) (table : Option Addr) (i : ℕ)
    (p : Option Addr) : Call (Addr → Option (Block Addr D)) :=
  match table with
  | none => .fault
  | some a => do
      match ← read h a with
      | .pointers ps => if i < ps.length then write h a (.pointers (ps.set i p)) else .fault
      | .object _ | .chars _ => .fault

/-- `new J##T()` and `v8val_to_char` in its `set`. -/
def createText (text : Text Addr D) (m : Memory Addr (Block Addr D)) :
    Call (Addr × Memory Addr (Block Addr D)) := do
  let (this, m) ← m.new (.object (text.fields none 0))
  let (value, m) ← m.new (.chars text.bytes)
  let heap ← write m.heap this (.object (text.fields (some value) text.len))
  return (this, { m with heap })

mutual

/-- `create_data_with_type`, which calls `set`. -/
def create : JData D → Memory Addr (Block Addr D) → Call (Addr × Memory Addr (Block Addr D))
  | .array elems, m => do
      let (this, m) ← m.new (.object (.array 0 none))
      let (value, m) ← m.new (.pointers (List.replicate elems.length none))
      let heap ← write m.heap this (.object (.array elems.length (some value)))
      let m ← createElems value 0 elems { m with heap }
      return (this, m)
  | .object entries, m => do
      let (this, m) ← m.new (.object (.object 0 none none))
      let (value, m) ← m.new (.pointers (List.replicate entries.length none))
      let (name, m) ← m.new (.pointers (List.replicate entries.length none))
      let heap ← write m.heap this (.object (.object entries.length (some value) (some name)))
      let m ← createEntries value name 0 entries { m with heap }
      return (this, m)
  | d, m =>
      match plainFields d, textFields d with
      | some fields, _ => m.new (.object fields)
      | none, some text => createText text m
      | none, none => .fault

/-- The loop of `JArray::set` from `i` on. -/
def createElems (value : Addr) (i : ℕ) :
    List (JData D) → Memory Addr (Block Addr D) → Call (Memory Addr (Block Addr D))
  | [], m => return m
  | d :: elems, m => do
      let (p, m) ← create d m
      let heap ← setPointer m.heap (some value) i (some p)
      createElems value (i + 1) elems { m with heap }

/-- The loop of `JObject::set` from `i` on. -/
def createEntries (value name : Addr) (i : ℕ) : List (List UInt8 × JData D) →
    Memory Addr (Block Addr D) → Call (Memory Addr (Block Addr D))
  | [], m => return m
  | (key, d) :: entries, m => do
      let (q, m) ← m.new (.chars key)
      let heap ← setPointer m.heap (some name) i (some q)
      let (p, m) ← create d { m with heap }
      let heap ← setPointer m.heap (some value) i (some p)
      createEntries value name (i + 1) entries { m with heap }

end

end Save

/-! ### Loading and deleting -/

/-- A `char *` that is not null. -/
def chars (h : Addr → Option (Block Addr D)) (value : Option Addr) : Call (List UInt8) :=
  match value with
  | none => .fault
  | some a => do
      match ← read h a with
      | .chars bytes => return bytes
      | .object _ | .pointers _ => .fault

/-- `table[i]`, which is not null. -/
def pointer (h : Addr → Option (Block Addr D)) (table : Option Addr) (i : ℕ) : Call Addr :=
  match table with
  | none => .fault
  | some a => do
      match ← read h a with
      | .pointers ps =>
          match ps[i]? with
          | some (some p) => return p
          | _ => .fault
      | .object _ | .chars _ => .fault

/-- The virtual `restore`, with room for `depth` calls inside one another. -/
def restore (h : Addr → Option (Block Addr D)) : (depth : ℕ) → Addr → Call (JsValue D)
  | 0, _ => .deeper
  | depth + 1, this => do
      match ← read h this with
      | .object .undefined => return .undefined
      | .object .null | .object .function => return .null
      | .object (.boolean value) | .object (.booleanObject value) => return .boolean value
      | .object (.string value len) | .object (.stringObject value len) => do
          let bytes ← chars h value
          return .string (newFromUtf8 bytes (some (len - 1)))
      | .object (.regExp value len flags) => do
          let bytes ← chars h value
          return .regExp (newFromUtf8 bytes (some (len - 1))) flags
      | .object (.int32 value) => return .number (.ofInt32 value)
      | .object (.uint32 value) => return .number (.ofUint32 value)
      | .object (.number value) | .object (.numberObject value) => return .number value
      | .object (.date value) => return .date value
      | .object (.array size value) => do
          let elems ← Call.loop (fun i elems => do
            let v ← restore h depth (← pointer h value i)
            return elems ++ [some v]) 0 size []
          return .array elems []
      | .object (.object size value name) => do
          let props ← Call.loop (fun i props => do
            let key ← chars h (some (← pointer h name i))
            let v ← restore h depth (← pointer h value i)
            return define props (newFromUtf8 key none, v)) 0 size []
          return .object props []
      | .pointers _ | .chars _ => .fault

section Delete

variable [DecidableEq Addr]

/-- `delete []`, of a pointer that may be null. -/
def deleteArray (h : Addr → Option (Block Addr D)) :
    Option Addr → Call (Addr → Option (Block Addr D))
  | none => return h
  | some a => free h a

/-- `delete`, with room for `depth` destructors inside one another. -/
def delete : (depth : ℕ) → Addr → (Addr → Option (Block Addr D)) →
    Call (Addr → Option (Block Addr D))
  | 0, _, _ => .deeper
  | depth + 1, this, h => do
      match ← read h this with
      | .object (.string value _) | .object (.stringObject value _)
      | .object (.regExp value _ _) => do
          let h ← deleteArray h value
          free h this
      | .object (.array size value) => do
          let h ← Call.loop (fun i h => do
            let p ← pointer h value i
            let h ← delete depth p h
            setPointer h value i none) 0 size h
          let h ← deleteArray h value
          free h this
      | .object (.object size value name) => do
          let h ← Call.loop (fun i h => do
            let p ← pointer h value i
            let h ← delete depth p h
            let q ← pointer h name i
            let h ← free h q
            let h ← setPointer h value i none
            setPointer h name i none) 0 size h
          let h ← deleteArray h value
          let h ← deleteArray h name
          free h this
      | .object _ => free h this
      | .pointers _ | .chars _ => .fault

end Delete

/-! ### A tree in memory -/

mutual

/-- The number of blocks. -/
def blocks : JData D → ℕ
  | .array elems => 2 + blocksOfElems elems
  | .object entries => 3 + blocksOfEntries entries
  | .string _ _ | .stringObject _ _ | .regExp _ _ _ => 2
  | _ => 1

def blocksOfElems : List (JData D) → ℕ
  | [] => 0
  | d :: elems => blocks d + blocksOfElems elems

def blocksOfEntries : List (List UInt8 × JData D) → ℕ
  | [] => 0
  | (_, d) :: entries => 1 + blocks d + blocksOfEntries entries

end

mutual

/-- The tree is in memory, in these blocks. -/
inductive Rep (h : Addr → Option (Block Addr D)) : JData D → Addr → List Addr → Prop where
  | plain {d fields this} (isPlain : plainFields d = some fields)
      (object : h this = some (.object fields)) : Rep h d this [this]
  | text {d this value} {text : Text Addr D} (isText : textFields d = some text)
      (object : h this = some (.object (text.fields (some value) text.len)))
      (chars : h value = some (.chars text.bytes)) : Rep h d this [this, value]
  | array {elems this value ps as}
      (object : h this = some (.object (.array elems.length (some value))))
      (table : h value = some (.pointers (ps.map some))) (parts : RepElems h elems ps as) :
      Rep h (.array elems) this (this :: value :: as)
  | object {entries this value name ps qs as}
      (object : h this = some (.object (.object entries.length (some value) (some name))))
      (values : h value = some (.pointers (ps.map some)))
      (names : h name = some (.pointers (qs.map some))) (parts : RepEntries h entries ps qs as) :
      Rep h (.object entries) this (this :: value :: name :: as)

inductive RepElems (h : Addr → Option (Block Addr D)) :
    List (JData D) → List Addr → List Addr → Prop where
  | nil : RepElems h [] [] []
  | cons {d elems p ps as bs} (head : Rep h d p as) (tail : RepElems h elems ps bs) :
      RepElems h (d :: elems) (p :: ps) (as ++ bs)

inductive RepEntries (h : Addr → Option (Block Addr D)) :
    List (List UInt8 × JData D) → List Addr → List Addr → List Addr → Prop where
  | nil : RepEntries h [] [] [] []
  | cons {key d entries p q ps qs as bs} (chars : h q = some (.chars key)) (head : Rep h d p as)
      (tail : RepEntries h entries ps qs bs) :
      RepEntries h ((key, d) :: entries) (p :: ps) (q :: qs) (q :: as ++ bs)

end

variable {h h' : Addr → Option (Block Addr D)}

mutual

/-- Other blocks do not matter. -/
theorem Rep.frame {d : JData D} {this : Addr} {as : List Addr} :
    Rep h d this as → (∀ a ∈ as, h' a = h a) → Rep h' d this as
  | .plain isPlain object, same => .plain isPlain ((same _ (by simp)).trans object)
  | .text isText object chars, same =>
      .text isText ((same _ (by simp)).trans object) ((same _ (by simp)).trans chars)
  | .array object table parts, same =>
      .array ((same _ (by simp)).trans object) ((same _ (by simp)).trans table)
        (RepElems.frame parts fun a ha => same a (by simp [ha]))
  | .object object values names parts, same =>
      .object ((same _ (by simp)).trans object) ((same _ (by simp)).trans values)
        ((same _ (by simp)).trans names)
        (RepEntries.frame parts fun a ha => same a (by simp [ha]))

theorem RepElems.frame {elems : List (JData D)} {ps as : List Addr} :
    RepElems h elems ps as → (∀ a ∈ as, h' a = h a) → RepElems h' elems ps as
  | .nil, _ => .nil
  | .cons head tail, same =>
      .cons (Rep.frame head fun a ha => same a (List.mem_append_left _ ha))
        (RepElems.frame tail fun a ha => same a (List.mem_append_right _ ha))

theorem RepEntries.frame {entries : List (List UInt8 × JData D)} {ps qs as : List Addr} :
    RepEntries h entries ps qs as → (∀ a ∈ as, h' a = h a) → RepEntries h' entries ps qs as
  | .nil, _ => .nil
  | .cons chars head tail, same =>
      .cons ((same _ (by simp)).trans chars) (Rep.frame head fun a ha => same a (by simp [ha]))
        (RepEntries.frame tail fun a ha => same a (by simp [ha]))

end

mutual

theorem Rep.length {d : JData D} {this : Addr} {as : List Addr} :
    Rep h d this as → as.length = blocks d
  | .plain isPlain _ => by cases d <;> cases isPlain <;> rfl
  | .text isText _ _ => by cases d <;> cases isText <;> rfl
  | .array _ _ parts => by
      rw [blocks, List.length_cons, List.length_cons, RepElems.length parts]
      omega
  | .object _ _ _ parts => by
      rw [blocks, List.length_cons, List.length_cons, List.length_cons, RepEntries.length parts]
      omega

theorem RepElems.length {elems : List (JData D)} {ps as : List Addr} :
    RepElems h elems ps as → as.length = blocksOfElems elems
  | .nil => rfl
  | .cons head tail => by
      rw [blocksOfElems, List.length_append, Rep.length head, RepElems.length tail]

theorem RepEntries.length {entries : List (List UInt8 × JData D)} {ps qs as : List Addr} :
    RepEntries h entries ps qs as → as.length = blocksOfEntries entries
  | .nil => rfl
  | .cons _ head tail => by
      rw [blocksOfEntries, List.length_append, List.length_cons, Rep.length head,
        RepEntries.length tail]
      omega

end

mutual

theorem Rep.used {d : JData D} {this : Addr} {as : List Addr} :
    Rep h d this as → ∀ a ∈ as, h a ≠ none
  | .plain _ object, a, ha => by
      obtain rfl := List.mem_singleton.mp ha
      simp [object]
  | .text _ object chars, a, ha => by
      obtain rfl | rfl : a = _ ∨ a = _ := by simpa using ha
      · simp [object]
      · simp [chars]
  | .array object table parts, a, ha => by
      obtain rfl | rfl | there : a = _ ∨ a = _ ∨ a ∈ _ := by simpa using ha
      · simp [object]
      · simp [table]
      · exact RepElems.used parts a there
  | .object object values names parts, a, ha => by
      obtain rfl | rfl | rfl | there : a = _ ∨ a = _ ∨ a = _ ∨ a ∈ _ := by simpa using ha
      · simp [object]
      · simp [values]
      · simp [names]
      · exact RepEntries.used parts a there

theorem RepElems.used {elems : List (JData D)} {ps as : List Addr} :
    RepElems h elems ps as → ∀ a ∈ as, h a ≠ none
  | .nil, _, ha => absurd ha List.not_mem_nil
  | .cons head tail, a, ha => (List.mem_append.mp ha).elim (Rep.used head a) (RepElems.used tail a)

theorem RepEntries.used {entries : List (List UInt8 × JData D)} {ps qs as : List Addr} :
    RepEntries h entries ps qs as → ∀ a ∈ as, h a ≠ none
  | .nil, _, ha => absurd ha List.not_mem_nil
  | .cons chars head tail, a, ha => by
      obtain rfl | early | later : a = _ ∨ a ∈ _ ∨ a ∈ _ := by simpa using ha
      · simp [chars]
      · exact Rep.used head a early
      · exact RepEntries.used tail a later

end

end ThreadJs.Serialize.Memory
