import Mathlib.Data.List.Sort
import ThreadJs.Lib.Utf8

/-!
Native serialisation (`serialize.cc`): `js_save` copies a JavaScript value into a
tree of `JData` objects, `js_load` builds a value from the tree.

A string value is stored with its length, and the key of a property as a C string.
The class of a node is chosen by asking the value for its types in a fixed order.
-/

namespace ThreadJs.Serialize

/-! ### JavaScript values -/

/-- A JavaScript number: an integer that is an Int32 or a Uint32, or any other
double, `-0` and `NaN` among them. -/
inductive Number (D : Type) where
  | int (n : Int) (range : -0x80000000 ≤ n ∧ n < 0x100000000)
  | other (d : D)
  deriving DecidableEq

/-- `v8::RegExp::Flags`. -/
structure RegExpFlags where
  global : Bool
  ignoreCase : Bool
  multiline : Bool
  deriving DecidableEq

/-- The values that scripts pass around. Doubles that are no small integers are
taken from `D`. -/
inductive JsValue (D : Type) where
  | undefined
  | null
  | boolean (b : Bool)
  | booleanObject (b : Bool)
  | string (s : String)
  | stringObject (s : String)
  | regExp (source : String) (flags : RegExpFlags)
  | number (x : Number D)
  | numberObject (x : Number D)
  | date (time : Number D)
  /-- The elements, where `none` is a hole, and the named properties. -/
  | array (elems : List (Option (JsValue D))) (props : List (String × JsValue D))
  | function
  | symbol
  /-- The own enumerable properties in the order they were made, and the enumerable
  properties of the prototypes. -/
  | object (own inherited : List (String × JsValue D))

/-- The classes `JUndefined`, `JNull`, and so on. -/
inductive Tag where
  | undefined
  | null
  | boolean
  | booleanObject
  | string
  | stringObject
  | regExp
  | int32
  | uint32
  | number
  | numberObject
  | date
  | array
  | function
  | object
  deriving DecidableEq

variable {D : Type}

namespace Number

def isInt32 : Number D → Bool
  | .int n _ => n < 0x80000000
  | .other _ => false

def isUint32 : Number D → Bool
  | .int n _ => 0 ≤ n
  | .other _ => false

/-- `Integer::New`. -/
def ofInt32 (value : Int32) : Number D :=
  .int value.toInt ⟨value.le_toInt, lt_trans value.toInt_lt (by decide)⟩

/-- `Integer::NewFromUnsigned`. -/
def ofUint32 (value : UInt32) : Number D :=
  .int value.toNat ⟨by omega, by have := value.toNat_lt; omega⟩

def int32Value : Number D → Int32
  | .int n _ => Int32.ofInt n
  | .other _ => 0

def uint32Value : Number D → UInt32
  | .int n _ => UInt32.ofNat n.toNat
  | .other _ => 0

end Number

/-- The tests `v->IsUndefined()`, `v->IsNull()`, and so on. -/
def JsValue.is (v : JsValue D) (T : Tag) : Bool :=
  match T, v with
  | .undefined, .undefined | .null, .null | .boolean, .boolean _
  | .booleanObject, .booleanObject _ | .string, .string _ | .stringObject, .stringObject _
  | .regExp, .regExp _ _ | .number, .number _ | .numberObject, .numberObject _
  | .date, .date _ | .array, .array _ _ | .function, .function => true
  | .int32, .number x => x.isInt32
  | .uint32, .number x => x.isUint32
  | .object, .booleanObject _ | .object, .stringObject _ | .object, .regExp _ _
  | .object, .numberObject _ | .object, .date _ | .object, .array _ _ | .object, .function
  | .object, .object _ _ => true
  | _, _ => false

/-! ### Property names -/

/-- What `GetPropertyNames` yields: array indices are numbers. -/
inductive Name where
  | index (n : Nat)
  | string (s : String)
  deriving DecidableEq

/-- The array index that a key spells. -/
def indexOf? (key : String) : Option Nat :=
  key.toNat?.filter fun n => toString n = key && n < 0xFFFFFFFF

def Name.key : Name → String
  | .index n => toString n
  | .string s => s

/-- Indices come first and in ascending order. -/
def names (keys : List String) : List Name :=
  ((keys.filterMap indexOf?).insertionSort (· ≤ ·)).map .index ++
    (keys.filter fun k => (indexOf? k).isNone).map .string

/-- `GetPropertyNames`: the own names, then those of the prototypes that are not
hidden by them. -/
def getPropertyNames (own inherited : List (String × JsValue D)) : List Name :=
  names (own.map Prod.fst) ++
    names ((inherited.map Prod.fst).filter fun k => k ∉ own.map Prod.fst)

/-- `Object::Set` on the properties of an object. -/
def define {V : Type} (props : List (String × V)) (entry : String × V) : List (String × V) :=
  if entry.1 ∈ props.map Prod.fst then
    props.map fun p => if p.1 = entry.1 then entry else p
  else props ++ [entry]

/-! ### Saved data -/

inductive JData (D : Type) where
  | undefined
  | null
  | function
  | boolean (value : Bool)
  | booleanObject (value : Bool)
  | string (value : List UInt8) (len : Nat)
  | stringObject (value : List UInt8) (len : Nat)
  | regExp (value : List UInt8) (len : Nat) (flags : RegExpFlags)
  | int32 (value : Int32)
  | uint32 (value : UInt32)
  | number (value : Number D)
  | numberObject (value : Number D)
  | date (value : Number D)
  | array (value : List (JData D))
  /-- `name` and `value`, entry by entry. -/
  | object (entries : List (List UInt8 × JData D))

/-- The bytes that `v8val_to_char` writes, a NUL byte at the end. -/
def v8valToChar (s : String) : List UInt8 := Utf8.encode s ++ [0]

/-- `String::NewFromUtf8`, with a length or for a C string. -/
def newFromUtf8 (value : List UInt8) : Option Nat → String
  | some len => Utf8.decode (value.take len)
  | none => Utf8.decode (Utf8.untilNul value)

/-- The bytes of `name[i]`; an index is printed with `%lld`. -/
def Name.toChar : Name → List UInt8
  | .index n => v8valToChar (toString n)
  | .string s => v8valToChar s

/-- The order in which `create_data_with_type` asks. -/
def typeOrder : List Tag :=
  [.undefined, .null, .boolean, .booleanObject, .string, .stringObject, .regExp, .int32, .uint32,
    .number, .numberObject, .date, .array, .function, .object]

/-- The class chosen for `v`. -/
def typeOf (v : JsValue D) : Option Tag := typeOrder.find? v.is

/-- The method `set` of the class chosen for `v`, given the saved elements and
properties of `v`. -/
def set (v : JsValue D) (elems : List (JData D)) (props : List (String × JData D)) : JData D :=
  match typeOf v, v with
  | some .undefined, _ => .undefined
  | some .null, _ => .null
  | some .boolean, .boolean b => .boolean b
  | some .booleanObject, .booleanObject b => .booleanObject b
  | some .string, .string s => .string (v8valToChar s) (v8valToChar s).length
  | some .stringObject, .stringObject s => .stringObject (v8valToChar s) (v8valToChar s).length
  | some .regExp, .regExp source flags =>
      .regExp (v8valToChar source) (v8valToChar source).length flags
  | some .int32, .number x => .int32 x.int32Value
  | some .uint32, .number x => .uint32 x.uint32Value
  | some .number, .number x => .number x
  | some .numberObject, .numberObject x => .numberObject x
  | some .date, .date time => .date time
  | some .array, _ => .array elems
  | some .function, _ => .function
  | some .object, .object own inherited =>
      .object ((getPropertyNames own inherited).map fun name =>
        (name.toChar, (props.lookup name.key).getD .undefined))
  | _, _ => .null

mutual

/-- `create_data_with_type`. -/
def createDataWithType : JsValue D → JData D
  | .array elems props => set (.array elems props) (createElems elems) []
  | .object own inherited =>
      set (.object own inherited) [] (createProps own ++ createProps inherited)
  | v => set v [] []

/-- `arr->Get(i)`, saved; a hole reads as undefined. -/
def createElems : List (Option (JsValue D)) → List (JData D)
  | [] => []
  | some v :: elems => createDataWithType v :: createElems elems
  | none :: elems => .undefined :: createElems elems

/-- `obj->Get(k)`, saved. -/
def createProps : List (String × JsValue D) → List (String × JData D)
  | [] => []
  | (k, v) :: props => (k, createDataWithType v) :: createProps props

end

mutual

def JData.restore : JData D → JsValue D
  | .undefined => .undefined
  | .null | .function => .null
  | .boolean value | .booleanObject value => .boolean value
  | .string value len | .stringObject value len => .string (newFromUtf8 value (some (len - 1)))
  | .regExp value len flags => .regExp (newFromUtf8 value (some (len - 1))) flags
  | .int32 value => .number (.ofInt32 value)
  | .uint32 value => .number (.ofUint32 value)
  | .number value | .numberObject value => .number value
  | .date value => .date value
  | .array value => .array (restoreElems value) []
  | .object entries => .object ((restoreEntries entries).foldl define []) []

def restoreElems : List (JData D) → List (Option (JsValue D))
  | [] => []
  | d :: value => some d.restore :: restoreElems value

def restoreEntries : List (List UInt8 × JData D) → List (String × JsValue D)
  | [] => []
  | (name, d) :: entries => (newFromUtf8 name none, d.restore) :: restoreEntries entries

end

def jsSave (v : JsValue D) : JData D := createDataWithType v

def jsLoad (d : JData D) : JsValue D := d.restore

end ThreadJs.Serialize
