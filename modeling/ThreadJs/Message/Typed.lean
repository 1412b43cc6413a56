import Mathlib.Data.List.Nodup
import ThreadJs.Lib.Js.Number
import ThreadJs.Lib.Js.Object

/-!
Typed messages: `reg_constructor`, `send` and `_recv` of `context.js`.

`send` takes a constructor by its id or by its name, and the documentation offers
both. But the argument is looked up in `CONSTRUCTORS`, whose keys are names, so an id
is found only where a constructor is registered under its numeral; and the test that
a name is free takes the id 0 of 'Error' for no entry. Both forms agree exactly for
the constructors that are registered under the numeral of their id, and for 'Error'
while it is not registered again (`typed_messages_agree_iff`).
-/

namespace ThreadJs.Message

open Js

/-- `type_constructor` and `CONSTRUCTORS` of one side. An array of ECMAScript has fewer
than `2^32` elements. -/
structure Side (Data Value Err : Type) where
  typeConstructor : List (Data → Except Err Value)
  constructors : Object ℕ
  fits : typeConstructor.length < 0x100000000

/-- The arguments of `reg_constructor`. -/
structure Registration (Data Value Err : Type) where
  fn : Data → Except Err Value
  /-- `fn.name`. -/
  fnName : String
  /-- The second argument, empty where it is left out. -/
  name : String

variable {Data Value Err : Type}

/-- The name that is registered, or none. -/
def Registration.effectiveName (r : Registration Data Value Err) : String :=
  if r.name = "" then r.fnName else r.name

/-- `warp.CONSTRUCTORS[name]` is truthy. -/
def Side.isReged (s : Side Data Value Err) (name : String) : Bool :=
  match s.constructors.get name with
  | .own id => id != 0
  | .inherited => true
  | .undefined => false

def regConstructor (s : Side Data Value Err) (r : Registration Data Value Err) :
    Side Data Value Err × Except String ℕ :=
  let id := s.typeConstructor.length
  if room : id + 1 < 0x100000000 then
    let pushed : Side Data Value Err :=
      { s with
        typeConstructor := s.typeConstructor ++ [r.fn]
        fits := by rwa [List.length_append, List.length_singleton] }
    if r.effectiveName = "" then (pushed, .ok id)
    else if s.isReged r.effectiveName then
      (pushed, .error ("\"" ++ r.effectiveName ++ "\" is reged"))
    else ({ pushed with constructors := s.constructors.set r.effectiveName id }, .ok id)
  else (s, .error "Invalid array length")

/-- The argument `constructor_id` of `send`. -/
inductive TypeRef where
  | none
  | id (k : ℤ)
  | name (n : String)

/-- The field `cid` of a message. -/
inductive Cid where
  | undefined
  | id (n : ℕ)
  /-- The empty string. -/
  | empty
  deriving DecidableEq

structure Wire (Data : Type) where
  name : String
  data : Data
  cid : Cid

/-- What a falsy argument puts into `cid`. -/
def TypeRef.falsy : TypeRef → Option Cid
  | .none => some .undefined
  | .id k => if k = 0 then some (.id 0) else .none
  | .name n => if n = "" then some .empty else .none

/-- The argument as a number, for `<` and `>=`. -/
def TypeRef.toNumber : TypeRef → Number
  | .none => .nan
  | .id k => .finite k
  | .name n => Js.toNumber n

/-- The argument as a property name. -/
def TypeRef.toKey : TypeRef → String
  | .none => "undefined"
  | .id k => toString k
  | .name n => n

/-- `warp.CONSTRUCTORS[constructor_id]` where it is `>= 0`; the properties of
`Object.prototype` are not numbers. -/
def Side.cidOf (s : Side Data Value Err) (key : String) : Option ℕ :=
  match s.constructors.get key with
  | .own id => some id
  | _ => none

def send {Payload : Type} (s : Side Data Value Err) (name : String) (data : Payload)
    (constructorId : TypeRef) : Except String (Wire Payload) :=
  match constructorId.falsy with
  | some cid => .ok ⟨name, data, cid⟩
  | none =>
      let bad := "bad constructor id " ++ constructorId.toKey
      if constructorId.toNumber.lt (.finite 0) ||
          constructorId.toNumber.ge (.finite s.typeConstructor.length) then .error bad
      else
        match s.cidOf constructorId.toKey with
        | some id => .ok ⟨name, data, .id id⟩
        | none => .error bad

/-- What `_recv` does with a message. -/
inductive Received (Data Value Err : Type) where
  | emitted (name : String) (value : Data ⊕ Value)
  /-- The constructor has thrown, and an 'error' message is sent back. -/
  | reported (err : Err)

/-- `type_constructor[obj.cid]`. -/
def Side.constructorAt (s : Side Data Value Err) : Cid → Option (Data → Except Err Value)
  | .id n => s.typeConstructor[n]?
  | .undefined | .empty => none

def recv (s : Side Data Value Err) (w : Wire Data) : Received Data Value Err :=
  match s.constructorAt w.cid with
  | some cons =>
      match cons w.data with
      | .ok value => .emitted w.name (.inr value)
      | .error err => .reported err
  | none => .emitted w.name (.inl w.data)

/-! ### Histories -/

/-- A side, and the names under which `reg_constructor` has returned its ids; the name of
an anonymous constructor is empty. -/
structure History (Data Value Err : Type) where
  side : Side Data Value Err
  log : List (ℕ × String)

def History.register (h : History Data Value Err) (r : Registration Data Value Err) :
    History Data Value Err :=
  match regConstructor h.side r with
  | (side, .ok id) => ⟨side, h.log ++ [(id, r.effectiveName)]⟩
  | (side, .error _) => ⟨side, h.log⟩

/-- `wrap_context` registers `_error_constructor`, and the user the rest. -/
def wrapContext (errorConstructor : Data → Except Err Value)
    (rs : List (Registration Data Value Err)) : History Data Value Err :=
  (⟨errorConstructor, "_error_constructor", "Error"⟩ :: rs).foldl History.register
    ⟨⟨[], .empty, Nat.zero_lt_succ _⟩, []⟩

/-- The receiver hands out what its constructor `i` makes of the data. -/
def Delivers (s : Side Data Value Err) (i : ℕ) (w : Wire Data) : Prop :=
  ∃ cons, s.typeConstructor[i]? = some cons ∧
    recv s w = match cons w.data with
      | .ok value => .emitted w.name (.inr value)
      | .error err => .reported err

/-- Both forms of the argument are accepted and mean constructor `i`. -/
def FormsAgree (s : Side Data Value Err) (i : ℕ) (n name : String) (data : Data) : Prop :=
  ∃ w w', send s name data (.id i) = .ok w ∧ send s name data (.name n) = .ok w' ∧
    w.cid = w'.cid ∧ w.name = name ∧ w.data = data ∧ Delivers s i w ∧ Delivers s i w'

/-- Nothing is sent. -/
def Rejected (s : Side Data Value Err) (name : String) (data : Data) (ref : TypeRef) : Prop :=
  ∃ err, send s name data ref = .error err

/-! ### What the tables hold -/

structure Inv (h : History Data Value Err) : Prop where
  within : ∀ i n, (i, n) ∈ h.log → i < h.side.typeConstructor.length
  once : (h.log.map Prod.fst).Nodup
  /-- The id 0 is the one of 'Error'. -/
  error : ∀ n, (0, n) ∈ h.log ↔ n = "Error"
  owned : ∀ n i, h.side.constructors.get n = .own i → (i, n) ∈ h.log ∧ n ≠ ""
  /-- Only the entry of 'Error' can have been overwritten. -/
  entered : ∀ i n, (i, n) ∈ h.log → n ≠ "" →
    h.side.constructors.get n = .own i ∨
      i = 0 ∧ ∃ k, k ≠ 0 ∧ h.side.constructors.get n = .own k

theorem Inv.name_unique {h : History Data Value Err} (inv : Inv h) {i : ℕ} {n n' : String}
    (hn : (i, n) ∈ h.log) (hn' : (i, n') ∈ h.log) : n = n' :=
  (Prod.mk.inj (List.inj_on_of_nodup_map inv.once hn hn' rfl)).2

/-- The three outcomes of `reg_constructor` in the history. -/
theorem register_cases (h : History Data Value Err) (r : Registration Data Value Err) :
    h.register r = h ∨
    (∃ fits, h.register r =
      ⟨⟨h.side.typeConstructor ++ [r.fn], h.side.constructors, fits⟩, h.log⟩) ∨
    (r.effectiveName = "" ∧ ∃ fits, h.register r =
      ⟨⟨h.side.typeConstructor ++ [r.fn], h.side.constructors, fits⟩,
        h.log ++ [(h.side.typeConstructor.length, "")]⟩) ∨
    (r.effectiveName ≠ "" ∧ h.side.isReged r.effectiveName = false ∧ ∃ fits, h.register r =
      ⟨⟨h.side.typeConstructor ++ [r.fn],
          h.side.constructors.set r.effectiveName h.side.typeConstructor.length, fits⟩,
        h.log ++ [(h.side.typeConstructor.length, r.effectiveName)]⟩) := by
  by_cases room : h.side.typeConstructor.length + 1 < 0x100000000
  · by_cases named : r.effectiveName = ""
    · refine .inr (.inr (.inl ⟨named, ?_, ?_⟩))
      · rwa [List.length_append, List.length_singleton]
      · simp [History.register, regConstructor, room, named]
    · cases reged : h.side.isReged r.effectiveName
      · refine .inr (.inr (.inr ⟨named, rfl, ?_, ?_⟩))
        · rwa [List.length_append, List.length_singleton]
        · simp [History.register, regConstructor, room, named, reged]
      · refine .inr (.inl ⟨?_, ?_⟩)
        · rwa [List.length_append, List.length_singleton]
        · simp [History.register, regConstructor, room, named, reged]
  · exact .inl (by simp [History.register, regConstructor, room])

theorem wrapContext_nil (errorConstructor : Data → Except Err Value) :
    ∃ fits, wrapContext errorConstructor [] =
      ⟨⟨[errorConstructor], Object.empty.set "Error" 0, fits⟩, [(0, "Error")]⟩ :=
  ⟨Nat.one_lt_succ_succ _, rfl⟩

theorem inv_error (errorConstructor : Data → Except Err Value) :
    Inv (wrapContext errorConstructor []) := by
  obtain ⟨fits, start⟩ := wrapContext_nil errorConstructor
  rw [start]
  have only : ∀ n i, (Object.empty.set "Error" 0).get n = .own i → i = 0 ∧ n = "Error" := by
    intro n i found
    by_cases hn : n = "Error"
    · rw [hn, Object.get_set_self] at found
      exact ⟨(Found.own.inj found).symm, hn⟩
    · rw [Object.get_set_of_ne _ hn, Object.get, Object.empty] at found
      simp only [List.lookup_nil] at found
      split at found <;> cases found
  refine ⟨fun i n known => ?_, List.nodup_singleton _, fun n => ?_, fun n i found => ?_,
    fun i n known _ => ?_⟩
  · obtain ⟨rfl, -⟩ := Prod.mk.inj (List.mem_singleton.mp known)
    exact Nat.one_pos
  · simp
  · obtain ⟨rfl, rfl⟩ := only n i found
    exact ⟨List.mem_singleton.mpr rfl, by decide⟩
  · obtain ⟨rfl, rfl⟩ := Prod.mk.inj (List.mem_singleton.mp known)
    exact .inl (Object.get_set_self _ _ _)

/-- A new entry of the log gets an id of its own. -/
theorem Inv.grown {h : History Data Value Err} (inv : Inv h) (m : String) :
    (∀ i n, (i, n) ∈ h.log ++ [(h.side.typeConstructor.length, m)] →
      i < h.side.typeConstructor.length + 1) ∧
    ((h.log ++ [(h.side.typeConstructor.length, m)]).map Prod.fst).Nodup ∧
    ∀ n, (0, n) ∈ h.log ++ [(h.side.typeConstructor.length, m)] ↔ n = "Error" := by
  have pos : 0 < h.side.typeConstructor.length := inv.within 0 "Error" ((inv.error "Error").mpr rfl)
  refine ⟨fun i n known => ?_, ?_, fun n => ?_⟩
  · rcases List.mem_append.mp known with known | new
    · exact Nat.lt_succ_of_lt (inv.within i n known)
    · rw [(Prod.mk.inj (List.mem_singleton.mp new)).1]
      exact Nat.lt_succ_self _
  · rw [List.map_append]
    refine List.Nodup.append inv.once (List.nodup_singleton _) ?_
    intro i old new
    obtain ⟨e, he, rfl⟩ := List.mem_map.mp old
    have last : e.1 = h.side.typeConstructor.length := by simpa using new
    exact absurd (inv.within e.1 e.2 he) (last ▸ Nat.lt_irrefl _)
  · rw [List.mem_append, inv.error, or_iff_left]
    intro new
    exact absurd (Prod.mk.inj (List.mem_singleton.mp new)).1 (Nat.ne_of_lt pos)

theorem Inv.register {h : History Data Value Err} (inv : Inv h) (r : Registration Data Value Err) :
    Inv (h.register r) := by
  rcases register_cases h r with e | ⟨fits, e⟩ | ⟨-, fits, e⟩ | ⟨named, free, fits, e⟩
  · rw [e]
    exact inv
  · rw [e]
    refine ⟨fun i n known => ?_, inv.once, inv.error, inv.owned, inv.entered⟩
    rw [List.length_append]
    exact Nat.lt_add_right _ (inv.within i n known)
  · rw [e]
    obtain ⟨within, once, error⟩ := inv.grown ""
    refine ⟨?_, once, error, fun n i found => ?_, fun i n known hn => ?_⟩
    · simpa using within
    · obtain ⟨known, hn⟩ := inv.owned n i found
      exact ⟨List.mem_append_left _ known, hn⟩
    · rcases List.mem_append.mp known with known | new
      · exact inv.entered i n known hn
      · exact absurd (Prod.mk.inj (List.mem_singleton.mp new)).2 hn
  · rw [e]
    obtain ⟨within, once, error⟩ := inv.grown r.effectiveName
    have pos : h.side.typeConstructor.length ≠ 0 :=
      Nat.pos_iff_ne_zero.mp (inv.within 0 "Error" ((inv.error "Error").mpr rfl))
    refine ⟨?_, once, error, fun n i found => ?_, fun i n known hn => ?_⟩
    · simpa using within
    · by_cases same : n = r.effectiveName
      · rw [same, Object.get_set_self] at found
        rw [← Found.own.inj found, same]
        exact ⟨List.mem_append_right _ (List.mem_singleton.mpr rfl), named⟩
      · rw [Object.get_set_of_ne _ same] at found
        obtain ⟨known, hn⟩ := inv.owned n i found
        exact ⟨List.mem_append_left _ known, hn⟩
    · by_cases same : n = r.effectiveName
      · subst same
        rw [Object.get_set_self]
        rcases List.mem_append.mp known with known | new
        · -- The name was taken by the id 0, which counts as free.
          have zero : i = 0 := by
            rcases inv.entered i _ known hn with found | ⟨zero, -⟩
            · simpa [Side.isReged, found] using free
            · exact zero
          exact .inr ⟨zero, _, pos, rfl⟩
        · rw [(Prod.mk.inj (List.mem_singleton.mp new)).1]
          exact .inl rfl
      · rw [Object.get_set_of_ne _ same]
        rcases List.mem_append.mp known with known | new
        · exact inv.entered i n known hn
        · exact absurd (Prod.mk.inj (List.mem_singleton.mp new)).2 same

theorem inv_wrapContext (errorConstructor : Data → Except Err Value)
    (rs : List (Registration Data Value Err)) : Inv (wrapContext errorConstructor rs) := by
  have steps : ∀ (rs : List (Registration Data Value Err)) (h : History Data Value Err), Inv h →
      Inv (rs.foldl History.register h) := by
    intro rs
    induction rs with
    | nil => exact fun h inv => inv
    | cons r rs ih => exact fun h inv => ih _ (inv.register r)
  exact steps rs _ (inv_error errorConstructor)

/-! ### The two forms -/

/-- The range test of `send`. -/
def Side.inRange (s : Side Data Value Err) (ref : TypeRef) : Bool :=
  !(ref.toNumber.lt (.finite 0) || ref.toNumber.ge (.finite s.typeConstructor.length))

theorem falsy_id {k : ℤ} (hk : k ≠ 0) : (TypeRef.id k).falsy = none := if_neg hk

theorem falsy_name {n : String} (hn : n ≠ "") : (TypeRef.name n).falsy = none := if_neg hn

section Send

variable {s : Side Data Value Err} {ref : TypeRef} {name : String} {data : Data}

theorem send_eq_ok (truthy : ref.falsy = none) {w : Wire Data} :
    send s name data ref = .ok w ↔
      s.inRange ref = true ∧ ∃ id, s.cidOf ref.toKey = some id ∧ w = ⟨name, data, .id id⟩ := by
  simp only [send, truthy, Side.inRange]
  cases out : ref.toNumber.lt (.finite 0) || ref.toNumber.ge (.finite s.typeConstructor.length)
  · cases found : s.cidOf ref.toKey with
    | none => simp
    | some id =>
        simp only [Bool.false_eq_true, if_false, Except.ok.injEq, Bool.not_false, true_and,
          Option.some.injEq, exists_eq_left']
        exact eq_comm
  · simp

theorem rejected_iff (truthy : ref.falsy = none) :
    Rejected s name data ref ↔ s.inRange ref = true → s.cidOf ref.toKey = none := by
  constructor
  · rintro ⟨err, rejected⟩ inRange
    cases found : s.cidOf ref.toKey with
    | none => rfl
    | some id =>
        have accepted : send s name data ref = .ok ⟨name, data, .id id⟩ :=
          (send_eq_ok truthy).mpr ⟨inRange, id, found, rfl⟩
        exact nomatch accepted.symm.trans rejected
  · intro missing
    cases sent : send s name data ref with
    | error err => exact ⟨err, sent⟩
    | ok w =>
        obtain ⟨inRange, id, found, -⟩ := (send_eq_ok truthy).mp sent
        exact nomatch (missing inRange).symm.trans found

theorem cidOf_eq_some {key : String} {id : ℕ} :
    s.cidOf key = some id ↔ s.constructors.get key = .own id := by
  unfold Side.cidOf
  split
  · next found => rw [found, Option.some.injEq, Found.own.injEq]
  · next other => exact iff_of_false (by simp) (other id)

theorem inRange_id {k : ℤ} :
    s.inRange (.id k) = true ↔ 0 ≤ k ∧ k < s.typeConstructor.length := by
  have lower : ((k : ℚ) < 0) ↔ k < 0 := Int.cast_lt_zero
  have upper : ((k : ℚ) < (s.typeConstructor.length : ℚ)) ↔ k < s.typeConstructor.length := by
    exact_mod_cast Iff.rfl
  simp [Side.inRange, TypeRef.toNumber, Number.lt, Number.ge, upper]

theorem inRange_of_toNumber {i : ℕ} (value : ref.toNumber = .finite i)
    (within : i < s.typeConstructor.length) : s.inRange ref = true := by
  simp [Side.inRange, value, Number.lt, Number.ge, within]

/-- A message with the id of a constructor is delivered by it. -/
theorem delivers_id {i : ℕ} (within : i < s.typeConstructor.length) :
    Delivers s i ⟨name, data, .id i⟩ := by
  have at' : s.typeConstructor[i]? = some s.typeConstructor[i] := List.getElem?_eq_getElem within
  refine ⟨_, at', ?_⟩
  simp only [recv, Side.constructorAt, at']

end Send

theorem Inv.agree_of_error {h : History Data Value Err} (inv : Inv h)
    (first : ∀ k, (k, "Error") ∈ h.log → k = 0) (name : String) (data : Data) :
    FormsAgree h.side 0 "Error" name data := by
  have entry := (inv.error "Error").mpr rfl
  have found : h.side.constructors.get "Error" = .own 0 := by
    rcases inv.entered 0 "Error" entry (by decide) with found | ⟨-, k, hk, found⟩
    · exact found
    · exact absurd (first k (inv.owned _ _ found).1) hk
  have delivers : Delivers h.side 0 ⟨name, data, .id 0⟩ := delivers_id (inv.within 0 _ entry)
  refine ⟨⟨name, data, .id 0⟩, ⟨name, data, .id 0⟩, rfl, ?_, rfl, rfl, rfl, delivers, delivers⟩
  refine (send_eq_ok (falsy_name (by decide))).mpr ⟨?_, 0, cidOf_eq_some.mpr found, rfl⟩
  -- 'Error' is not a number, and no comparison with it is true.
  have nan : Js.toNumber "Error" = .nan := rfl
  simp [Side.inRange, TypeRef.toNumber, nan, Number.lt, Number.ge]

theorem Inv.agree_of_numeral {h : History Data Value Err} (inv : Inv h) {i : ℕ}
    (entry : (i, toString i) ∈ h.log) (name : String) (data : Data) :
    FormsAgree h.side i (toString i) name data := by
  have within := inv.within i _ entry
  have some := toString_ne_empty i
  have pos : i ≠ 0 := by
    rintro rfl
    exact absurd ((inv.error _).mp entry) (by decide)
  have found : h.side.constructors.get (toString i) = .own i :=
    (inv.entered i _ entry some).resolve_right fun zero => pos zero.1
  have number : Js.toNumber (toString i) = .finite i :=
    toNumber_toString (within.trans (h.side.fits.trans (by decide)))
  have delivers : Delivers h.side i ⟨name, data, .id i⟩ := delivers_id within
  refine ⟨⟨name, data, .id i⟩, ⟨name, data, .id i⟩, ?_, ?_, rfl, rfl, rfl, delivers, delivers⟩
  · refine (send_eq_ok (falsy_id (by exact_mod_cast pos))).mpr ⟨?_, i, cidOf_eq_some.mpr found, rfl⟩
    exact inRange_of_toNumber (by simp [TypeRef.toNumber]) within
  · refine (send_eq_ok (falsy_name some)).mpr ⟨?_, i, cidOf_eq_some.mpr found, rfl⟩
    exact inRange_of_toNumber number within

/-- Where both forms agree, the constructor is registered under the numeral of its id,
or it is the one of 'Error' and has kept its entry. -/
theorem Inv.of_agree {h : History Data Value Err} (inv : Inv h) {i : ℕ} {n name : String}
    {data : Data} (entry : (i, n) ∈ h.log) (named : n ≠ "")
    (agree : FormsAgree h.side i n name data) :
    (i = 0 ∧ ∀ k, (k, "Error") ∈ h.log → k = 0) ∨ n = toString i := by
  obtain ⟨w, w', byId, byName, cids, -⟩ := agree
  obtain ⟨-, j', found', rfl⟩ := (send_eq_ok (falsy_name named)).mp byName
  have found' := cidOf_eq_some.mp found'
  by_cases zero : i = 0
  · subst zero
    obtain rfl := (inv.error n).mp entry
    obtain rfl := Except.ok.inj byId
    obtain rfl : 0 = j' := Cid.id.inj cids
    refine .inl ⟨rfl, fun k known => ?_⟩
    rcases inv.entered k _ known named with found | ⟨zero, -⟩
    · exact Found.own.inj (found.symm.trans found')
    · exact zero
  · obtain ⟨-, j, found, rfl⟩ := (send_eq_ok (falsy_id (by exact_mod_cast zero))).mp byId
    obtain rfl : j = j' := Cid.id.inj cids
    have kept := (inv.entered i n entry named).resolve_right fun first => zero first.1
    obtain rfl : i = j := Found.own.inj (kept.symm.trans found')
    exact .inr (inv.name_unique entry (inv.owned _ _ (cidOf_eq_some.mp found)).1)

/-- An id that was never registered is rejected, unless its numeral is a name. -/
theorem Inv.rejected_id_iff {h : History Data Value Err} (inv : Inv h) {k : ℤ}
    (unknown : ∀ e ∈ h.log, (e.1 : ℤ) ≠ k) (name : String) (data : Data) :
    Rejected h.side name data (.id k) ↔
      ¬ (0 < k ∧ k < h.side.typeConstructor.length ∧ ∃ j, (j, toString k) ∈ h.log) := by
  have nonzero : k ≠ 0 := by
    rintro rfl
    exact unknown _ ((inv.error "Error").mpr rfl) rfl
  rw [rejected_iff (falsy_id nonzero), inRange_id]
  constructor
  · rintro missing ⟨positive, below, j, known⟩
    have none := missing ⟨positive.le, below⟩
    obtain ⟨m, rfl⟩ := Int.eq_ofNat_of_zero_le positive.le
    obtain ⟨id, found⟩ : ∃ id, h.side.constructors.get (toString m) = .own id := by
      rcases inv.entered j _ known (toString_ne_empty m) with found | ⟨-, j', -, found⟩
      · exact ⟨j, found⟩
      · exact ⟨j', found⟩
    exact nomatch none.symm.trans (cidOf_eq_some.mpr found)
  · intro missing ⟨nonneg, below⟩
    cases found : h.side.cidOf (TypeRef.id k).toKey with
    | none => rfl
    | some id =>
        have known := (inv.owned _ id (cidOf_eq_some.mp found)).1
        exact absurd ⟨lt_of_le_of_ne nonneg (Ne.symm nonzero), below, id, known⟩ missing

theorem Inv.rejected_name_iff {h : History Data Value Err} (inv : Inv h) {n : String}
    (unknown : ∀ e ∈ h.log, e.2 ≠ n) (name : String) (data : Data) :
    Rejected h.side name data (.name n) ↔ n ≠ "" := by
  constructor
  · rintro ⟨err, rejected⟩ rfl
    cases rejected
  · intro named
    refine (rejected_iff (falsy_name named)).mpr fun _ => ?_
    cases found : h.side.cidOf (TypeRef.name n).toKey with
    | none => rfl
    | some id => exact absurd rfl (unknown _ (inv.owned n id (cidOf_eq_some.mp found)).1)

/-- **Both forms of the constructor argument agree** for a registered constructor if and
only if its name is the numeral of its id, or it is the constructor of 'Error' and no
other was registered under this name. An id that was never registered is rejected if
and only if no constructor is registered under its numeral while it is in the range of
the table; a name that was never registered, if and only if it is not empty. -/
theorem typed_messages_agree_iff {Data Value Err : Type}
    (errorConstructor : Data → Except Err Value)
    (rs : List (Registration Data Value Err)) (name : String) (data : Data) :
    (∀ i n, (i, n) ∈ (wrapContext errorConstructor rs).log → n ≠ "" →
      (FormsAgree (wrapContext errorConstructor rs).side i n name data ↔
        (i = 0 ∧ ∀ k, (k, "Error") ∈ (wrapContext errorConstructor rs).log → k = 0) ∨
          n = toString i)) ∧
    (∀ k : ℤ, (∀ e ∈ (wrapContext errorConstructor rs).log, (e.1 : ℤ) ≠ k) →
      (Rejected (wrapContext errorConstructor rs).side name data (.id k) ↔
        ¬ (0 < k ∧ k < (wrapContext errorConstructor rs).side.typeConstructor.length ∧
          ∃ j, (j, toString k) ∈ (wrapContext errorConstructor rs).log))) ∧
    ∀ n, (∀ e ∈ (wrapContext errorConstructor rs).log, e.2 ≠ n) →
      (Rejected (wrapContext errorConstructor rs).side name data (.name n) ↔ n ≠ "") := by
  have inv := inv_wrapContext errorConstructor rs
  generalize wrapContext errorConstructor rs = h at inv
  refine ⟨fun i n entry named => ⟨inv.of_agree entry named, ?_⟩,
    fun k unknown => inv.rejected_id_iff unknown name data,
    fun n unknown => inv.rejected_name_iff unknown name data⟩
  rintro (⟨rfl, first⟩ | rfl)
  · obtain rfl := (inv.error n).mp entry
    exact inv.agree_of_error first name data
  · exact inv.agree_of_numeral entry name data

/-- A constructor 'Point' of id 1 is not found by its id; and the empty name, under which
nothing is registered, is accepted. -/
theorem id_rejected :
    ¬ FormsAgree (wrapContext (fun _ : Unit => (.ok () : Except Unit Unit))
        [⟨fun _ => .ok (), "Point", ""⟩]).side 1 "Point" "m" () ∧
      ¬ Rejected (wrapContext (fun _ : Unit => (.ok () : Except Unit Unit))
        [⟨fun _ => .ok (), "Point", ""⟩]).side "m" () (.name "") := by
  constructor
  · intro agree
    have entry : (1, "Point") ∈ (wrapContext (fun _ : Unit => (.ok () : Except Unit Unit))
        [⟨fun _ => .ok (), "Point", ""⟩]).log := .tail _ (.head _)
    rcases (inv_wrapContext _ _).of_agree entry (by decide) agree with ⟨zero, -⟩ | numeral
    · cases zero
    · exact absurd numeral (by decide)
  · rintro ⟨err, rejected⟩
    cases rejected

end ThreadJs.Message
