import ThreadJs.Serialize.RoundTrip

/-!
Saving and loading twice.

What has been loaded is built from the plain types, and no key in it has a U+0000, so a second
pass changes nothing (`same_twice`). This is so as long as `Object::Set` defines a property. A key
that reads back as `__proto__` goes to the accessor of `Object.prototype` instead, and what the
object then inherits becomes its own in the second pass. Values are normalised as long as
`js_save` writes no such key (`normalises_iff`).
-/

namespace ThreadJs.Serialize

variable {D : Type}

/-- Induction over the elements and properties of a value. -/
theorem JsValue.induct {P : JsValue D → Prop} (leaf : ∀ v, v.isLeaf = true → P v)
    (array : ∀ elems props, (∀ v, some v ∈ elems → P v) → P (.array elems props))
    (object : ∀ own inherited, (∀ p ∈ own ++ inherited, P p.2) → P (.object own inherited))
    (v : JsValue D) : P v := by
  refine @JsValue.rec D P (fun elems => ∀ v, some v ∈ elems → P v) (fun props => ∀ p ∈ props, P p.2)
    (fun e => ∀ v, e = some v → P v) (fun p => P p.2) (leaf _ rfl) (leaf _ rfl)
    (fun _ => leaf _ rfl) (fun _ => leaf _ rfl) (fun _ => leaf _ rfl) (fun _ => leaf _ rfl)
    (fun _ _ => leaf _ rfl) (fun _ => leaf _ rfl) (fun _ => leaf _ rfl) (fun _ => leaf _ rfl)
    (fun elems props h _ => array elems props h) (leaf _ rfl) (leaf _ rfl) ?_
    (by simp) ?_ (by simp) ?_ (by simp) ?_ (fun _ _ h => h) v
  · intro own inherited ofOwn ofInherited
    apply object
    intro p hp
    exact (List.mem_append.mp hp).elim (ofOwn p) (ofInherited p)
  · intro e elems head tail v hv
    rcases List.mem_cons.mp hv with rfl | hv
    · exact head v rfl
    · exact tail v hv
  · intro p props head tail q hq
    rcases List.mem_cons.mp hq with rfl | hq
    · exact head
    · exact tail q hq
  · intro v h w eq
    rw [← Option.some.inj eq]
    exact h

/-! ### What is saved of an array and of an object -/

theorem createElems_eq (elems : List (Option (JsValue D))) :
    createElems elems = elems.map fun e => jsSave (e.getD .undefined) := by
  induction elems with
  | nil => rfl
  | cons e elems ih =>
      cases e with
      | none => rw [createElems, ih]; rfl
      | some v => rw [createElems, ih]; rfl

theorem save_array (elems : List (Option (JsValue D))) (props : List (String × JsValue D)) :
    jsSave (.array elems props) = .array (elems.map fun e => jsSave (e.getD .undefined)) := by
  rw [← createElems_eq]
  rfl

theorem load_save_elems (elems : List (Option (JsValue D))) (props : List (String × JsValue D)) :
    jsLoad (jsSave (.array elems props)) =
      .array ((elems.map fun e => jsLoad (jsSave (e.getD .undefined))).map some) [] := by
  rw [save_array, jsLoad, JData.restore, restoreElems_eq, List.map_map, List.map_map]
  rfl

section Object

variable (own inherited : List (String × JsValue D))

/-- `obj->Get(k)` for one of its names. -/
def valueAt (key : String) : JsValue D := ((own ++ inherited).lookup key).getD .undefined

variable {own inherited} in
/-- It is what is found, or undefined. -/
theorem valueAt_induct {P : JsValue D → Prop} {key : String} (undefined : P .undefined)
    (value : ∀ v, (own ++ inherited).lookup key = some v → P v) :
    P (valueAt own inherited key) := by
  rw [valueAt]
  cases found : (own ++ inherited).lookup key with
  | none => exact undefined
  | some v => exact value v found

theorem save_object : jsSave (.object own inherited) =
    .object ((getPropertyNames own inherited).map fun name =>
      (name.toChar, jsSave (valueAt own inherited name.key))) := by
  have props : createProps own ++ createProps inherited =
      (own ++ inherited).map fun p => (p.1, jsSave p.2) := by
    rw [createProps_eq, createProps_eq, List.map_append]
  have saved : jsSave (.object own inherited) = .object ((getPropertyNames own inherited).map
      fun name => (name.toChar,
        ((createProps own ++ createProps inherited).lookup name.key).getD .undefined)) := rfl
  rw [saved, props]
  congr 1
  apply List.map_congr_left
  intro name _
  rw [Table.lookup_map, valueAt]
  cases (own ++ inherited).lookup name.key <;> rfl

/-- The properties as they are read back, before they are set. -/
def readEntries : List (String × JsValue D) :=
  (getPropertyNames own inherited).map fun name =>
    (Utf8.cut name.key, jsLoad (jsSave (valueAt own inherited name.key)))

theorem load_save_properties : jsLoad (jsSave (.object own inherited)) =
    .object ((readEntries own inherited).foldl define []) [] := by
  rw [save_object, jsLoad, JData.restore, restoreEntries_eq, readEntries, List.map_map]
  congr 2
  apply List.map_congr_left
  intro name _
  rw [Function.comp_apply, newFromUtf8_toChar]

theorem mem_getPropertyNames {name : Name} (h : name ∈ getPropertyNames own inherited) :
    name.key ∈ (own ++ inherited).map Prod.fst := by
  rw [List.map_append, List.mem_append]
  rcases List.mem_append.mp h with h | h
  · exact .inl ((names_perm _).mem_iff.mp (List.mem_map_of_mem h))
  · have member := (names_perm _).mem_iff.mp (List.mem_map_of_mem (f := Name.key) h)
    exact .inr (List.mem_of_mem_filter member)

end Object

section Define

variable {V : Type}

theorem nodup_define {props : List (String × V)} (nodup : (props.map Prod.fst).Nodup)
    (entry : String × V) : ((define props entry).map Prod.fst).Nodup := by
  rw [keys_define]
  split
  · exact nodup
  · next fresh =>
      refine List.nodup_append.mpr ⟨nodup, List.nodup_singleton _, ?_⟩
      rintro k hk j hj rfl
      rw [List.mem_singleton.mp hj] at hk
      exact fresh hk

theorem nodup_foldl_define (entries : List (String × V)) {props : List (String × V)}
    (nodup : (props.map Prod.fst).Nodup) : ((entries.foldl define props).map Prod.fst).Nodup := by
  induction entries generalizing props with
  | nil => exact nodup
  | cons entry entries ih => exact ih (nodup_define nodup entry)

theorem mem_define {props : List (String × V)} {entry p : String × V} (h : p ∈ define props entry) :
    p ∈ props ∨ p = entry := by
  unfold define at h
  split at h
  · obtain ⟨q, hq, eq⟩ := List.mem_map.mp h
    split at eq
    · exact .inr eq.symm
    · exact .inl (eq ▸ hq)
  · rcases List.mem_append.mp h with h | h
    · exact .inl h
    · exact .inr (List.mem_singleton.mp h)

theorem mem_foldl_define {entries props : List (String × V)} {p : String × V}
    (h : p ∈ entries.foldl define props) : p ∈ props ∨ p ∈ entries := by
  induction entries generalizing props with
  | nil => exact .inl h
  | cons entry entries ih =>
      rcases ih h with h | h
      · rcases mem_define h with h | rfl
        · exact .inl h
        · exact .inr List.mem_cons_self
      · exact .inr (List.mem_cons_of_mem _ h)

end Define

/-! ### What has been loaded -/

theorem plain_load_save (v : JsValue D) : Plain (jsLoad (jsSave v)) := by
  induction v using JsValue.induct with
  | leaf v leaf =>
      cases v with
      | number x =>
          rw [load_save_number]
          exact .number x
      | array elems props => cases leaf
      | object own inherited => cases leaf
      | undefined => exact .undefined
      | null => exact .null
      | boolean b => exact .boolean b
      | booleanObject b => exact .boolean b
      | string s => exact .string _
      | stringObject s => exact .string _
      | regExp source flags => exact .regExp _ _
      | numberObject x => exact .number x
      | date time => exact .date time
      | function => exact .null
      | symbol => exact .null
  | array elems props ih =>
      rw [load_save_elems]
      apply Plain.array
      intro w hw
      obtain ⟨e, he, rfl⟩ := List.mem_map.mp hw
      cases e with
      | none => exact .undefined
      | some v => exact ih v he
  | object own inherited ih =>
      rw [load_save_properties]
      apply Plain.object
      · exact nodup_foldl_define _ List.nodup_nil
      · intro p hp
        rcases mem_foldl_define hp with hp | hp
        · cases hp
        · obtain ⟨name, -, rfl⟩ := List.mem_map.mp hp
          have saved : ∀ v, (own ++ inherited).lookup name.key = some v →
              Plain (jsLoad (jsSave v)) := fun v found => ih _ (Table.mem_of_lookup found)
          exact valueAt_induct (P := fun v => Plain (jsLoad (jsSave v))) .undefined saved

theorem mem_keys_array {elems : List (Option (JsValue D))} {props : List (String × JsValue D)}
    {v : JsValue D} (hv : some v ∈ elems) {k : String} (hk : k ∈ v.keys) :
    k ∈ (JsValue.array elems props).keys := by
  rw [JsValue.keys, List.mem_append]
  refine .inl ?_
  induction elems with
  | nil => cases hv
  | cons e elems ih =>
      rcases List.mem_cons.mp hv with rfl | later
      · exact List.mem_append_left _ hk
      · cases e with
        | none => exact ih later
        | some w => exact List.mem_append_right _ (ih later)

theorem mem_keys_object {own inherited : List (String × JsValue D)} {k : String} :
    k ∈ (JsValue.object own inherited).keys ↔ ∃ p ∈ own ++ inherited, k = p.1 ∨ k ∈ p.2.keys := by
  simp only [JsValue.keys, List.mem_append, mem_keysOfProps, or_and_right, exists_or]

/-- `js_save` writes the key somewhere in the value: not for the named properties of an array, and
not in a property that another one hides. -/
inductive Writes (k : String) : JsValue D → Prop
  | elem {elems : List (Option (JsValue D))} {props : List (String × JsValue D)} {v : JsValue D} :
      some v ∈ elems → Writes k v → Writes k (.array elems props)
  | key {own inherited : List (String × JsValue D)} :
      k ∈ (own ++ inherited).map Prod.fst → Writes k (.object own inherited)
  | value {own inherited : List (String × JsValue D)} {key : String} {v : JsValue D} :
      (own ++ inherited).lookup key = some v → Writes k v → Writes k (.object own inherited)

theorem Writes.mem_keys {k : String} {v : JsValue D} (h : Writes k v) : k ∈ v.keys := by
  induction h with
  | elem he _ ih => exact mem_keys_array he ih
  | key hk =>
      obtain ⟨p, hp, rfl⟩ := List.mem_map.mp hk
      exact mem_keys_object.mpr ⟨p, hp, .inl rfl⟩
  | value found _ ih => exact mem_keys_object.mpr ⟨_, Table.mem_of_lookup found, .inr ih⟩

/-- A key that comes back is the part of a written one before its first U+0000. -/
theorem keys_load_save (v : JsValue D) :
    ∀ k ∈ (jsLoad (jsSave v)).keys, ∃ k', Writes k' v ∧ k = Utf8.cut k' := by
  induction v using JsValue.induct with
  | leaf v leaf =>
      have none : (jsLoad (jsSave v)).keys = [] := by
        cases v with
        | number x => rw [load_save_number]; rfl
        | array elems props => cases leaf
        | object own inherited => cases leaf
        | _ => rfl
      rw [none]
      simp
  | array elems props ih =>
      intro k hk
      rw [load_save_elems, JsValue.keys, keysOfProps, List.append_nil] at hk
      obtain ⟨w, hw, hk⟩ := mem_keysOfElems.mp hk
      obtain ⟨e, he, rfl⟩ := List.mem_map.mp hw
      cases e with
      | none => cases hk
      | some v =>
          obtain ⟨k', written, cut⟩ := ih v he k hk
          exact ⟨k', .elem he written, cut⟩
  | object own inherited ih =>
      intro k hk
      rw [load_save_properties, mem_keys_object, List.append_nil] at hk
      obtain ⟨p, hp, hk⟩ := hk
      rcases mem_foldl_define hp with hp | hp
      · cases hp
      · obtain ⟨name, hname, rfl⟩ := List.mem_map.mp hp
        rcases hk with rfl | hk
        · exact ⟨name.key, .key (mem_getPropertyNames own inherited hname), rfl⟩
        · have below := @valueAt_induct D own inherited (fun v => ∀ k ∈ (jsLoad (jsSave v)).keys,
              ∃ k', Writes k' (JsValue.object own inherited) ∧ k = Utf8.cut k') name.key
          apply below _ _ k hk
          · intro k hk
            cases hk
          · intro v found k hk
            obtain ⟨k', written, cut⟩ := ih _ (Table.mem_of_lookup found) k hk
            exact ⟨k', .value found written, cut⟩

/-- **A second pass changes nothing**, as long as setting a property defines it. -/
theorem same_twice (v : JsValue D) :
    Same (jsLoad (jsSave (jsLoad (jsSave v)))) (jsLoad (jsSave v)) := by
  apply same_of_withoutNul (plain_load_save v)
  intro k hk
  obtain ⟨k', -, rfl⟩ := keys_load_save v k hk
  exact Utf8.nul_notMem_cut k'

/-! ### The accessor `__proto__` -/

namespace Setter

/-- A value that is restored, and whether it inherits the accessor `__proto__`. -/
structure Restored (D : Type) where
  value : JsValue D
  accessor : Bool

/-- An object that properties are set on. -/
structure Target (D : Type) where
  own : List (String × JsValue D)
  inherited : List (String × JsValue D)
  accessor : Bool

/-- `Object::New` -/
def Target.new : Target D := ⟨[], [], true⟩

/-- The enumerable properties of a prototype. -/
def enumerable : JsValue D → List (String × JsValue D)
  | .object own inherited => own ++ inherited.filter fun p => p.1 ∉ own.map Prod.fst
  | .array elems props => (elems.zipIdx.filterMap fun e => e.1.map (toString e.2, ·)) ++ props
  | _ => []

/-- The accessor is called: an object or null becomes the prototype. -/
def Target.setPrototype (o : Target D) (v : Restored D) : Target D :=
  if v.value.is .object then { o with inherited := enumerable v.value, accessor := v.accessor }
  else if v.value.is .null then { o with inherited := [], accessor := false }
  else o

/-- `ret->Set(k, v)` -/
def Target.set (o : Target D) (entry : String × Restored D) : Target D :=
  if entry.1 = "__proto__" ∧ o.accessor = true then o.setPrototype entry.2
  else { o with own := define o.own (entry.1, entry.2.value) }

mutual

def restore : JData D → Restored D
  | .array value => ⟨.array (restoreElems value) [], true⟩
  | .object entries =>
      let ret := (restoreEntries entries).foldl Target.set .new
      ⟨.object ret.own ret.inherited, ret.accessor⟩
  | d => ⟨d.restore, true⟩

def restoreElems : List (JData D) → List (Option (JsValue D))
  | [] => []
  | d :: value => some (restore d).value :: restoreElems value

def restoreEntries : List (List UInt8 × JData D) → List (String × Restored D)
  | [] => []
  | (name, d) :: entries => (newFromUtf8 name none, restore d) :: restoreEntries entries

end

def jsLoad (d : JData D) : JsValue D := (restore d).value

/-- The key is read back as the name of the accessor. -/
def ReadsProto (k : String) : Prop := Utf8.cut k = "__proto__"

instance (k : String) : Decidable (ReadsProto k) := inferInstanceAs (Decidable (_ = _))

/-! ### Without such a key -/

theorem restoreElems_eq (ds : List (JData D)) :
    restoreElems ds = ds.map fun d => some (restore d).value := by
  induction ds with
  | nil => rw [restoreElems, List.map_nil]
  | cons d ds ih => rw [restoreElems, ih, List.map_cons]

theorem restoreEntries_eq (entries : List (List UInt8 × JData D)) :
    restoreEntries entries = entries.map fun e => (newFromUtf8 e.1 none, restore e.2) := by
  induction entries with
  | nil => rw [restoreEntries, List.map_nil]
  | cons e entries ih => rw [restoreEntries, ih, List.map_cons]

theorem foldl_set {entries : List (String × Restored D)} (plain : ∀ e ∈ entries, e.1 ≠ "__proto__")
    (o : Target D) : entries.foldl Target.set o =
      { o with own := (entries.map fun e => (e.1, e.2.value)).foldl define o.own } := by
  induction entries generalizing o with
  | nil => rfl
  | cons e entries ih =>
      obtain ⟨first, others⟩ := List.forall_mem_cons.mp plain
      have set : o.set e = { o with own := define o.own (e.1, e.2.value) } :=
        if_neg fun h => first h.1
      rw [List.foldl_cons, set, ih others, List.map_cons, List.foldl_cons]

/-- The entries of an object, restored. -/
theorem restore_object (own inherited : List (String × JsValue D)) :
    restore (jsSave (.object own inherited)) =
      let ret := ((getPropertyNames own inherited).map fun name => (Utf8.cut name.key,
        restore (jsSave (valueAt own inherited name.key)))).foldl Target.set .new
      ⟨.object ret.own ret.inherited, ret.accessor⟩ := by
  rw [save_object, restore, restoreEntries_eq, List.map_map]
  have entries : ((fun e : List UInt8 × JData D => (newFromUtf8 e.1 none, restore e.2)) ∘
      fun name : Name => (name.toChar, jsSave (valueAt own inherited name.key))) =
      fun name => (Utf8.cut name.key, restore (jsSave (valueAt own inherited name.key))) := by
    funext name
    rw [Function.comp_apply, newFromUtf8_toChar]
  rw [entries]

/-- Properties that are defined are as before. -/
theorem restore_eq (v : JsValue D) (clean : ∀ k, Writes k v → ¬ ReadsProto k) :
    restore (jsSave v) = ⟨Serialize.jsLoad (jsSave v), true⟩ := by
  induction v using JsValue.induct with
  | leaf v leaf =>
      cases v with
      | number x =>
          simp only [jsSave, createDataWithType, set, typeOf_number]
          cases x.isInt32 with
          | true => rfl
          | false => cases x.isUint32 <;> rfl
      | array elems props => cases leaf
      | object own inherited => cases leaf
      | _ => rfl
  | array elems props ih =>
      have values : ∀ e ∈ elems, (restore (jsSave (e.getD .undefined))).value =
          Serialize.jsLoad (jsSave (e.getD .undefined)) := by
        intro e he
        cases e with
        | none => rfl
        | some v =>
            have whole := ih v he fun k hk => clean k (.elem he hk)
            rw [Option.getD_some, whole]
      rw [load_save_elems, save_array, restore, restoreElems_eq, List.map_map, List.map_map]
      congr 2
      apply List.map_congr_left
      intro e he
      rw [Function.comp_apply, Function.comp_apply, values e he]
  | object own inherited ih =>
      have values : ∀ key, restore (jsSave (valueAt own inherited key)) =
          ⟨Serialize.jsLoad (jsSave (valueAt own inherited key)), true⟩ := by
        intro key
        apply valueAt_induct
          (P := fun v => restore (jsSave v) = ⟨Serialize.jsLoad (jsSave v), true⟩)
        · rfl
        · intro v found
          exact ih _ (Table.mem_of_lookup found) fun k hk => clean k (.value found hk)
      have names : ∀ e ∈ (getPropertyNames own inherited).map fun name => (Utf8.cut name.key,
          restore (jsSave (valueAt own inherited name.key))), e.1 ≠ "__proto__" := by
        intro e he
        obtain ⟨name, hname, rfl⟩ := List.mem_map.mp he
        exact clean name.key (.key (mem_getPropertyNames own inherited hname))
      rw [restore_object, foldl_set names, load_save_properties, readEntries, List.map_map]
      simp only [Function.comp_def, values]
      rfl

/-- What has been loaded has no such key. -/
theorem keys_loaded {v : JsValue D} (clean : ∀ k, Writes k v → ¬ ReadsProto k) :
    ∀ k, Writes k (Serialize.jsLoad (jsSave v)) → ¬ ReadsProto k := by
  intro k hk
  obtain ⟨k', written, rfl⟩ := keys_load_save v k hk.mem_keys
  rw [ReadsProto, Utf8.cut_eq_self (Utf8.nul_notMem_cut k')]
  exact clean k' written

theorem same_of_clean {v : JsValue D} (clean : ∀ k, Writes k v → ¬ ReadsProto k) :
    Same (jsLoad (jsSave (jsLoad (jsSave v)))) (jsLoad (jsSave v)) := by
  have once : jsLoad (jsSave v) = Serialize.jsLoad (jsSave v) := by
    rw [jsLoad, restore_eq v clean]
  rw [once, jsLoad, restore_eq _ (keys_loaded clean)]
  exact same_twice v

/-! ### With such a key -/

theorem names_singleton (k : String) : ∃ name, names [k] = [name] ∧ name.key = k := by
  have perm := names_perm [k]
  have keys := List.perm_singleton.mp perm
  obtain ⟨name, eq, rfl⟩ := List.map_eq_singleton_iff.mp keys
  exact ⟨name, eq, rfl⟩

/-- An array under the key. -/
def underKey (k : String) : JsValue D := .object [(k, .array [some .null] [])] []

/-- The element of the array is inherited. -/
theorem load_underKey {k : String} (reads : ReadsProto k) :
    jsLoad (jsSave (underKey k)) = (.object [] [("0", .null)] : JsValue D) := by
  obtain ⟨name, eq, key⟩ := names_singleton k
  have array : restore (jsSave (.array [some .null] [])) =
      (⟨.array [some .null] [], true⟩ : Restored D) := rfl
  have value : valueAt [(k, .array [some .null] [])] [] name.key =
      (.array [some .null] [] : JsValue D) := by
    simp [valueAt, key]
  have all : getPropertyNames [(k, .array [some .null] [])] ([] : List (String × JsValue D)) =
      [name] := by
    rw [getPropertyNames, List.map_cons, List.map_nil, eq]
    rfl
  have set : Target.set .new ("__proto__", (⟨.array [some .null] [], true⟩ : Restored D)) =
      ⟨[], [("0", .null)], true⟩ := by
    have index : Nat.repr 0 = "0" := by decide
    rw [Target.set, if_pos ⟨rfl, rfl⟩]
    simp [Target.setPrototype, Target.new, JsValue.is, enumerable, index]
  rw [jsLoad, underKey, restore_object, all, List.map_cons, List.map_nil, value, key, reads, array]
  simp only [List.foldl_cons, List.foldl_nil, set]

/-- The second time it is an element of the object itself. -/
theorem load_inherited : jsLoad (jsSave (.object [] [("0", .null)])) =
    (.object [("0", .null)] [] : JsValue D) := by
  obtain ⟨name, eq, key⟩ := names_singleton "0"
  have all : getPropertyNames [] [("0", (.null : JsValue D))] = [name] := eq
  have value : valueAt [] [("0", .null)] name.key = (.null : JsValue D) := by
    rw [key]
    rfl
  rw [jsLoad, restore_object, all, List.map_cons, List.map_nil, value, key]
  rfl

theorem not_same_underKey {k : String} (reads : ReadsProto k) :
    ¬ Same (jsLoad (jsSave (jsLoad (jsSave (underKey k : JsValue D)))))
      (jsLoad (jsSave (underKey k))) := by
  rw [load_underKey reads, load_inherited]
  intro same
  cases same with
  | leaf _ h => cases h
  | object keys _ =>
      have absent := (keys "0").mp List.mem_cons_self
      cases absent

theorem eq_of_writes_underKey {k k' : String} (h : Writes k' (underKey k : JsValue D)) :
    k' = k := by
  cases h with
  | key member => exact List.mem_singleton.mp member
  | @value _ _ key v found h =>
      have array := Table.mem_of_lookup found
      obtain ⟨rfl, rfl⟩ := Prod.mk.inj (List.mem_singleton.mp array)
      cases h with
      | elem null h =>
          obtain rfl := Option.some.inj (List.mem_singleton.mp null)
          cases h

/-- **Which values are normalised**: saving and loading twice gives the same as once for all
values of which `js_save` writes keys from a set only, exactly if no key of the set reads as
`__proto__` up to its first U+0000. -/
theorem normalises_iff (keys : Set String) :
    (∀ v : JsValue D, (∀ k, Writes k v → k ∈ keys) →
      Same (jsLoad (jsSave (jsLoad (jsSave v)))) (jsLoad (jsSave v))) ↔
    ∀ k ∈ keys, ¬ ReadsProto k := by
  constructor
  · intro all k hk reads
    apply not_same_underKey (D := D) reads
    apply all
    intro k' written
    rw [eq_of_writes_underKey written]
    exact hk
  · intro clean v within
    exact same_of_clean fun k written => clean k (within k written)

/-- The key is not `__proto__`, and the value is not normalised. -/
theorem key_with_nul_not_normalised :
    (∀ k ∈ (underKey "__proto__\x00x" : JsValue Unit).keys, k ≠ "__proto__") ∧
      ¬ Same (jsLoad (jsSave (jsLoad (jsSave (underKey "__proto__\x00x" : JsValue Unit)))))
        (jsLoad (jsSave (underKey "__proto__\x00x"))) :=
  ⟨by decide, not_same_underKey (by decide)⟩

end Setter

end ThreadJs.Serialize
