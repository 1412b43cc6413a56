import ThreadJs.Lib.Table
import ThreadJs.Serialize.Value

/-!
What survives saving and loading.

Values built from the plain types come back structurally equal, with one
exception: the key of a property is read back as a C string and ends at its first
U+0000. So a plain value comes back if and only if none of its keys, at any depth,
contains U+0000 (`load_save_iff_keys_without_nul`).
-/

namespace ThreadJs.Serialize

variable {D : Type}

/-- No array and no object. -/
def JsValue.isLeaf : JsValue D → Bool
  | .array _ _ | .object _ _ => false
  | _ => true

/-- Structural equality: the same type at every node, the same elements and holes in
the same order, the same keys with the same values. -/
inductive Same : JsValue D → JsValue D → Prop
  | leaf {v w : JsValue D} : v = w → w.isLeaf = true → Same v w
  | array {elems elems' : List (Option (JsValue D))} {props props' : List (String × JsValue D)} :
      elems.map Option.isSome = elems'.map Option.isSome →
      (∀ (i : Nat) x y, elems[i]? = some (some x) → elems'[i]? = some (some y) → Same x y) →
      (∀ k, k ∈ props.map Prod.fst ↔ k ∈ props'.map Prod.fst) →
      (∀ k x y, (k, x) ∈ props → (k, y) ∈ props' → Same x y) →
      Same (.array elems props) (.array elems' props')
  | object {own own' inherited inherited' : List (String × JsValue D)} :
      (∀ k, k ∈ own.map Prod.fst ↔ k ∈ own'.map Prod.fst) →
      (∀ k x y, (k, x) ∈ own → (k, y) ∈ own' → Same x y) →
      Same (.object own inherited) (.object own' inherited')

/-- The values built from undefined, null, booleans, numbers, strings, dates, regular
expressions, dense arrays and plain objects. -/
inductive Plain : JsValue D → Prop
  | undefined : Plain .undefined
  | null : Plain .null
  | boolean (b : Bool) : Plain (.boolean b)
  | number (x : Number D) : Plain (.number x)
  | string (s : String) : Plain (.string s)
  | regExp (source : String) (flags : RegExpFlags) : Plain (.regExp source flags)
  | date (time : Number D) : Plain (.date time)
  | array (vs : List (JsValue D)) : (∀ v ∈ vs, Plain v) → Plain (.array (vs.map some) [])
  | object (own : List (String × JsValue D)) : (own.map Prod.fst).Nodup →
      (∀ p ∈ own, Plain p.2) → Plain (.object own [])

mutual

/-- The keys of all properties in a value, at any depth. -/
def JsValue.keys : JsValue D → List String
  | .array elems props => keysOfElems elems ++ keysOfProps props
  | .object own inherited => keysOfProps own ++ keysOfProps inherited
  | _ => []

def keysOfElems : List (Option (JsValue D)) → List String
  | [] => []
  | some v :: elems => v.keys ++ keysOfElems elems
  | none :: elems => keysOfElems elems

def keysOfProps : List (String × JsValue D) → List String
  | [] => []
  | (k, v) :: props => k :: v.keys ++ keysOfProps props

end

def WithoutNul (k : String) : Prop := '\x00' ∉ k.toList

instance (k : String) : Decidable (WithoutNul k) := inferInstanceAs (Decidable (_ ∉ _))

theorem mem_keysOfElems {vs : List (JsValue D)} {k : String} :
    k ∈ keysOfElems (vs.map some) ↔ ∃ v ∈ vs, k ∈ v.keys := by
  induction vs with
  | nil => simp [keysOfElems]
  | cons v vs ih => simp [keysOfElems, ih]

theorem mem_keysOfProps {props : List (String × JsValue D)} {k : String} :
    k ∈ keysOfProps props ↔ ∃ p ∈ props, k = p.1 ∨ k ∈ p.2.keys := by
  induction props with
  | nil => simp [keysOfProps]
  | cons p props ih => simp [keysOfProps, ih, or_assoc]

/-! ### Leaves -/

theorem newFromUtf8_v8valToChar (s : String) :
    newFromUtf8 (v8valToChar s) (some ((v8valToChar s).length - 1)) = s := by
  have len : (v8valToChar s).length - 1 = (Utf8.encode s).length := by simp [v8valToChar]
  rw [newFromUtf8, len, v8valToChar, List.take_left, Utf8.decode_encode]

theorem toChar_eq (name : Name) : name.toChar = v8valToChar name.key := by
  cases name <;> rfl

/-- A key is read back up to its first U+0000. -/
theorem newFromUtf8_toChar (name : Name) : newFromUtf8 name.toChar none = Utf8.cut name.key := by
  rw [toChar_eq, newFromUtf8, v8valToChar, Utf8.decode_untilNul]

namespace Number

theorem ofInt32_int32Value {x : Number D} (h : x.isInt32 = true) : ofInt32 x.int32Value = x := by
  cases x with
  | int n range =>
      simp only [ofInt32, int32Value, int.injEq]
      apply Int32.toInt_ofInt_of_le
      · exact range.1
      · simpa [isInt32] using h
  | other d => cases h

theorem ofUint32_uint32Value {x : Number D} (h : x.isUint32 = true) :
    ofUint32 x.uint32Value = x := by
  cases x with
  | int n range =>
      have pos : 0 ≤ n := by simpa [isUint32] using h
      have small : n.toNat < 0x100000000 := by
        have := range.2
        omega
      simp only [ofUint32, uint32Value, int.injEq, UInt32.toNat_ofNat_of_lt' small]
      exact Int.toNat_of_nonneg pos
  | other d => cases h

end Number

/-- Which of the three number classes is chosen. -/
theorem typeOf_number (x : Number D) : typeOf (.number x) =
    some (if x.isInt32 then .int32 else if x.isUint32 then .uint32 else .number) := by
  simp only [typeOf, typeOrder]
  cases hint : x.isInt32 <;> cases huint : x.isUint32 <;>
    simp [List.find?_cons, JsValue.is, hint, huint]

/-- Whichever is chosen, the number comes back. -/
theorem load_save_number (x : Number D) : jsLoad (jsSave (.number x)) = .number x := by
  simp only [jsLoad, jsSave, createDataWithType, set, typeOf_number]
  cases hint : x.isInt32 with
  | true => simp [JData.restore, Number.ofInt32_int32Value hint]
  | false =>
      cases huint : x.isUint32 with
      | true => simp [JData.restore, Number.ofUint32_uint32Value huint]
      | false => simp [JData.restore]

/-- Plain leaves come back as they are. -/
theorem load_save_leaf {v : JsValue D} (plain : Plain v) (leaf : v.isLeaf = true) :
    jsLoad (jsSave v) = v := by
  cases plain with
  | undefined | null | boolean b | date time => rfl
  | number x => exact load_save_number x
  | string s =>
      change JsValue.string (newFromUtf8 _ _) = _
      rw [newFromUtf8_v8valToChar]
  | regExp source flags =>
      change JsValue.regExp (newFromUtf8 _ _) _ = _
      rw [newFromUtf8_v8valToChar]
  | array vs _ => cases leaf
  | object own _ _ => cases leaf

/-! ### Arrays -/

theorem createElems_some (vs : List (JsValue D)) : createElems (vs.map some) = vs.map jsSave := by
  induction vs with
  | nil => rfl
  | cons v vs ih => rw [List.map_cons, createElems, ih]; rfl

theorem restoreElems_eq (ds : List (JData D)) :
    restoreElems ds = ds.map fun d => some (jsLoad d) := by
  induction ds with
  | nil => rfl
  | cons d ds ih => rw [restoreElems, ih]; rfl

theorem load_save_array (vs : List (JsValue D)) :
    jsLoad (jsSave (.array (vs.map some) [])) =
      .array (vs.map fun v => some (jsLoad (jsSave v))) [] := by
  have saved : jsSave (.array (vs.map some) []) = .array (vs.map jsSave) := by
    rw [← createElems_some]
    rfl
  rw [saved, jsLoad, JData.restore, restoreElems_eq, List.map_map]
  rfl

theorem same_load_save_array (vs : List (JsValue D)) :
    Same (jsLoad (jsSave (.array (vs.map some) []))) (.array (vs.map some) []) ↔
      ∀ v ∈ vs, Same (jsLoad (jsSave v)) v := by
  rw [load_save_array]
  constructor
  · intro same v hv
    cases same with
    | leaf _ h => cases h
    | array _ elems _ _ =>
        obtain ⟨i, hi, rfl⟩ := List.mem_iff_getElem.mp hv
        exact elems i _ _ (by simp [hi]) (by simp [hi])
  · intro all
    refine .array (by simp) (fun i x y hx hy => ?_) (fun _ => Iff.rfl) nofun
    simp only [List.getElem?_map, Option.map_eq_some_iff] at hx hy
    obtain ⟨v, hv, hx⟩ := hx
    obtain ⟨v', hv', hy⟩ := hy
    obtain rfl := Option.some.inj hx
    obtain rfl := Option.some.inj hy
    obtain rfl := Option.some.inj (hv.symm.trans hv')
    exact all v (List.mem_of_getElem? hv)

/-! ### Objects -/

theorem indexOf?_eq_some {key : String} {n : Nat} (h : indexOf? key = some n) :
    toString n = key := by
  simp only [indexOf?, Option.filter_eq_some_iff, Bool.and_eq_true, decide_eq_true_eq] at h
  exact h.2.1

/-- The names stand for the keys, in another order. -/
theorem names_perm (keys : List String) : (names keys).map Name.key |>.Perm keys := by
  have indices : ((keys.filterMap indexOf?).map toString).Perm
      (keys.filter fun k => (indexOf? k).isSome) := by
    induction keys with
    | nil => exact .nil
    | cons k keys ih =>
        cases h : indexOf? k with
        | none => simpa [h] using ih
        | some n => simpa [h, indexOf?_eq_some h] using ih
  have sorted := (List.perm_insertionSort (· ≤ ·) (keys.filterMap indexOf?)).map toString
  have strings : (keys.filter fun k => (indexOf? k).isNone).map (Name.key ∘ .string) =
      keys.filter fun k => !(indexOf? k).isSome := by
    simp [Function.comp_def, Name.key]
  have split := List.filter_append_perm (fun k => (indexOf? k).isSome) keys
  rw [names, List.map_append, List.map_map, List.map_map, strings]
  exact ((sorted.trans indices).append_right _).trans split

section Define

variable {V : Type}

theorem keys_define (props : List (String × V)) (entry : String × V) :
    (define props entry).map Prod.fst = if entry.1 ∈ props.map Prod.fst then props.map Prod.fst
      else props.map Prod.fst ++ [entry.1] := by
  unfold define
  split
  · rw [List.map_map]
    apply List.map_congr_left
    intro p _
    by_cases h : p.1 = entry.1 <;> simp [h]
  · rw [List.map_append]
    rfl

theorem mem_define_keys (props : List (String × V)) (entry : String × V) (k : String) :
    k ∈ (define props entry).map Prod.fst ↔ k ∈ props.map Prod.fst ∨ k = entry.1 := by
  rw [keys_define]
  split
  · next present =>
      refine ⟨.inl, fun h => h.elim id ?_⟩
      rintro rfl
      exact present
  · rw [List.mem_append, List.mem_singleton]

/-- The keys of a restored object are those of its entries. -/
theorem mem_foldl_define_keys (entries props : List (String × V)) (k : String) :
    k ∈ (entries.foldl define props).map Prod.fst ↔
      k ∈ props.map Prod.fst ∨ k ∈ entries.map Prod.fst := by
  induction entries generalizing props with
  | nil => simp
  | cons entry entries ih => rw [List.foldl_cons, ih, mem_define_keys, List.map_cons, List.mem_cons,
      or_assoc]

/-- Entries with different keys are the properties of the restored object. -/
theorem foldl_define_of_nodup (entries props : List (String × V))
    (nodup : ((props ++ entries).map Prod.fst).Nodup) :
    entries.foldl define props = props ++ entries := by
  induction entries generalizing props with
  | nil => rw [List.append_nil, List.foldl_nil]
  | cons entry entries ih =>
      have fresh : entry.1 ∉ props.map Prod.fst := by
        rw [List.map_append, List.nodup_append] at nodup
        exact fun h => nodup.2.2 _ h _ List.mem_cons_self rfl
      rw [List.foldl_cons, define, if_neg fresh, ih, List.append_assoc, List.singleton_append]
      rwa [List.append_assoc, List.singleton_append]

end Define

theorem createProps_eq (props : List (String × JsValue D)) :
    createProps props = props.map fun p => (p.1, jsSave p.2) := by
  induction props with
  | nil => rfl
  | cons p props ih => rw [createProps, ih]; rfl

theorem restoreEntries_eq (entries : List (List UInt8 × JData D)) :
    restoreEntries entries = entries.map fun e => (newFromUtf8 e.1 none, jsLoad e.2) := by
  induction entries with
  | nil => rfl
  | cons e entries ih => rw [restoreEntries, ih]; rfl

/-- The entry that is restored for a key. -/
def loadEntry (own : List (String × JsValue D)) (key : String) : String × JsValue D :=
  (Utf8.cut key, jsLoad (((own.map fun p => (p.1, jsSave p.2)).lookup key).getD .undefined))

/-- All of them, in the order of the names. -/
def loadEntries (own : List (String × JsValue D)) : List (String × JsValue D) :=
  ((names (own.map Prod.fst)).map Name.key).map (loadEntry own)

theorem load_save_object (own : List (String × JsValue D)) :
    jsLoad (jsSave (.object own [])) =
      .object ((loadEntries own).foldl define []) [] := by
  have saved : jsSave (.object own []) = .object ((names (own.map Prod.fst)).map fun name =>
      (name.toChar, ((own.map fun p => (p.1, jsSave p.2)).lookup name.key).getD .undefined)) := by
    rw [← createProps_eq, ← List.append_nil (createProps own), ← List.append_nil (names _)]
    rfl
  rw [saved, jsLoad, JData.restore, restoreEntries_eq, loadEntries, List.map_map, List.map_map]
  congr 2
  apply List.map_congr_left
  intro name _
  rw [Function.comp_apply, Function.comp_apply, newFromUtf8_toChar, loadEntry]

theorem loadEntry_of_mem {own : List (String × JsValue D)} (nodup : (own.map Prod.fst).Nodup)
    {p : String × JsValue D} (hp : p ∈ own) :
    loadEntry own p.1 = (Utf8.cut p.1, jsLoad (jsSave p.2)) := by
  have nodup' : ((own.map fun p => (p.1, jsSave p.2)).map Prod.fst).Nodup := by
    rw [List.map_map]
    exact nodup
  have found := (Table.lookup_eq_some_iff nodup').mpr
    (List.mem_map_of_mem (f := fun p => (p.1, jsSave p.2)) hp)
  rw [loadEntry, found, Option.getD_some]

theorem loadEntries_perm {own : List (String × JsValue D)} (nodup : (own.map Prod.fst).Nodup) :
    (loadEntries own).Perm (own.map fun p => (Utf8.cut p.1, jsLoad (jsSave p.2))) := by
  have perm : (loadEntries own).Perm ((own.map Prod.fst).map (loadEntry own)) :=
    (names_perm _).map _
  rw [List.map_map] at perm
  have entries : own.map (loadEntry own ∘ Prod.fst) =
      own.map fun p => (Utf8.cut p.1, jsLoad (jsSave p.2)) :=
    List.map_congr_left fun p hp => loadEntry_of_mem nodup hp
  rw [← entries]
  exact perm

/-- Without U+0000 in the keys the properties come back one by one. -/
theorem foldl_define_perm {own : List (String × JsValue D)} (nodup : (own.map Prod.fst).Nodup)
    (clean : ∀ p ∈ own, WithoutNul p.1) :
    ((loadEntries own).foldl define []).Perm (own.map fun p => (p.1, jsLoad (jsSave p.2))) := by
  have perm := loadEntries_perm nodup
  have whole : own.map (fun p => (Utf8.cut p.1, jsLoad (jsSave p.2))) =
      own.map fun p => (p.1, jsLoad (jsSave p.2)) := by
    apply List.map_congr_left
    intro p hp
    rw [Utf8.cut_eq_self (clean p hp)]
  rw [whole] at perm
  have distinct : (([] ++ loadEntries own).map Prod.fst).Nodup := by
    rw [List.nil_append, (perm.map Prod.fst).nodup_iff, List.map_map]
    exact nodup
  rw [foldl_define_of_nodup _ _ distinct, List.nil_append]
  exact perm

/-- No key that comes back contains U+0000. -/
theorem withoutNul_of_mem_loaded {own : List (String × JsValue D)} {k : String}
    (hk : k ∈ ((loadEntries own).foldl define []).map Prod.fst) : WithoutNul k := by
  rcases (mem_foldl_define_keys _ _ _).mp hk with hk | hk
  · cases hk
  · rw [loadEntries, List.map_map] at hk
    obtain ⟨key, -, rfl⟩ := List.mem_map.mp hk
    exact Utf8.nul_notMem_cut key

theorem same_load_save_object {own : List (String × JsValue D)}
    (nodup : (own.map Prod.fst).Nodup) :
    Same (jsLoad (jsSave (.object own []))) (.object own []) ↔
      (∀ p ∈ own, WithoutNul p.1) ∧ ∀ p ∈ own, Same (jsLoad (jsSave p.2)) p.2 := by
  rw [load_save_object]
  constructor
  · intro same
    cases same with
    | leaf _ h => cases h
    | object keys values =>
        have clean : ∀ p ∈ own, WithoutNul p.1 := fun p hp =>
          withoutNul_of_mem_loaded ((keys p.1).mpr (List.mem_map_of_mem hp))
        refine ⟨clean, fun p hp => values p.1 _ _ ?_ hp⟩
        rw [(foldl_define_perm nodup clean).mem_iff]
        exact List.mem_map_of_mem (f := fun p => (p.1, jsLoad (jsSave p.2))) hp
  · rintro ⟨clean, all⟩
    have perm := foldl_define_perm nodup clean
    refine .object (fun k => ?_) (fun k x y hx hy => ?_)
    · rw [(perm.map Prod.fst).mem_iff, List.map_map]
      rfl
    · rw [perm.mem_iff] at hx
      obtain ⟨p, hp, hpx⟩ := List.mem_map.mp hx
      obtain ⟨rfl, rfl⟩ := Prod.mk.inj hpx
      have here := (Table.lookup_eq_some_iff nodup).mpr hp
      rw [(Table.lookup_eq_some_iff nodup).mpr hy] at here
      obtain rfl := Option.some.inj here
      exact all p hp

theorem same_leaf {v : JsValue D} (plain : Plain v) (leaf : v.isLeaf = true) :
    Same (jsLoad (jsSave v)) v :=
  .leaf (load_save_leaf plain leaf) leaf

theorem same_of_withoutNul {v : JsValue D} (plain : Plain v) (clean : ∀ k ∈ v.keys, WithoutNul k) :
    Same (jsLoad (jsSave v)) v := by
  induction plain with
  | array vs _ ih =>
      simp only [JsValue.keys, keysOfProps, List.append_nil, mem_keysOfElems] at clean
      rw [same_load_save_array]
      intro v hv
      exact ih v hv fun k hk => clean k ⟨v, hv, hk⟩
  | object own nodup _ ih =>
      simp only [JsValue.keys, keysOfProps, List.append_nil, mem_keysOfProps] at clean
      rw [same_load_save_object nodup]
      refine ⟨fun p hp => clean p.1 ⟨p, hp, .inl rfl⟩, fun p hp => ?_⟩
      exact ih p hp fun k hk => clean k ⟨p, hp, .inr hk⟩
  | undefined => exact same_leaf .undefined rfl
  | null => exact same_leaf .null rfl
  | boolean b => exact same_leaf (.boolean b) rfl
  | number x => exact same_leaf (.number x) rfl
  | string s => exact same_leaf (.string s) rfl
  | regExp source flags => exact same_leaf (.regExp source flags) rfl
  | date time => exact same_leaf (.date time) rfl

theorem withoutNul_of_same {v : JsValue D} (plain : Plain v) (same : Same (jsLoad (jsSave v)) v) :
    ∀ k ∈ v.keys, WithoutNul k := by
  induction plain with
  | array vs _ ih =>
      simp only [JsValue.keys, keysOfProps, List.append_nil, mem_keysOfElems]
      rintro k ⟨v, hv, hk⟩
      exact ih v hv ((same_load_save_array vs).mp same v hv) k hk
  | object own nodup _ ih =>
      obtain ⟨clean, all⟩ := (same_load_save_object nodup).mp same
      simp only [JsValue.keys, keysOfProps, List.append_nil, mem_keysOfProps]
      rintro k ⟨p, hp, rfl | hk⟩
      · exact clean p hp
      · exact ih p hp (all p hp) k hk
  | _ => simp [JsValue.keys]

/-- **Round trip.** A plain value comes back structurally equal if and only if no key
in it contains U+0000. -/
theorem load_save_iff_keys_without_nul {v : JsValue D} (plain : Plain v) :
    Same (jsLoad (jsSave v)) v ↔ ∀ k ∈ v.keys, WithoutNul k :=
  ⟨withoutNul_of_same plain, same_of_withoutNul plain⟩

/-- A nested value with an index among its keys and a U+0000 in a string. -/
theorem load_save_iff_keys_without_nul_example : ∃ v : JsValue Unit,
    v.keys = ["list", "7"] ∧ Same (jsLoad (jsSave v)) v := by
  refine ⟨.object [("list", .array [some (.string "a\x00")] []), ("7", .null)] [], rfl, ?_⟩
  refine (load_save_iff_keys_without_nul (.object _ (by decide) fun p hp => ?_)).mpr (by decide)
  rcases List.mem_cons.mp hp with rfl | hp
  · apply Plain.array [.string "a\x00"]
    intro v hv
    rw [List.mem_singleton.mp hv]
    exact .string _
  · rw [List.mem_singleton.mp hp]
    exact .null

/-- The property `"a\0b"` comes back as `"a"`. -/
theorem key_with_nul_truncated : ∃ v : JsValue Unit, Plain v ∧ ¬ Same (jsLoad (jsSave v)) v := by
  refine ⟨.object [("a\x00b", .null)] [], .object _ (by decide) fun p hp => ?_, fun same => ?_⟩
  · rw [List.mem_singleton.mp hp]
    exact .null
  · have clean := ((same_load_save_object (by decide)).mp same).1 _ List.mem_cons_self
    exact clean (by decide)

end ThreadJs.Serialize
