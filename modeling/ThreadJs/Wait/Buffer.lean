import ThreadJs.Lib.Json.Print
import ThreadJs.Lib.Utf8

/-!
The event that `thread.wait` sends (`lib/context.js`, `main.cc`, `data.h`).

`j_wait` copies the JSON text into a buffer of 128 bytes on the stack. `WriteUtf8` keeps to
the buffer and stops before a character that does not fit; but the NUL that follows is put
behind the place that the whole text would have needed. `delivered_iff` says for which
texts all goes well.
-/

namespace ThreadJs.Wait

open JsonText Utf8

/-- The JSON text that `wait` builds; `name` is empty where it is left out, and `data` is
`none` where it is undefined. -/
def waitText (name : List Char) (data : Option Tree) : String :=
  let name := if name = [] then "_thread_locked".toList else name
  String.ofList <| print <| .obj <|
    ("name".toList, .str name) :: (data.map fun d => ("data".toList, d)).toList

/-- `sizeof(eventdata)`. -/
def capacity : Nat := 128

/-- The bytes that `WriteUtf8` puts into a buffer: whole characters while they fit, and a NUL
after the last one if there is room. -/
def writeUtf8 : (room : Nat) → List Char → List UInt8
  | room, [] => if 0 < room then [0] else []
  | room, c :: cs =>
      let bytes := String.utf8EncodeChar c
      if bytes.length ≤ room then bytes ++ writeUtf8 (room - bytes.length) cs else []

/-- Consecutive bytes with the places where they go. -/
def places : (start : Nat) → List UInt8 → List (Nat × UInt8)
  | _, [] => []
  | i, b :: bytes => (i, b) :: places (i + 1) bytes

/-- What `j_wait` writes, counted from the start of `eventdata`. -/
def jWaitWrites (text : String) : List (Nat × UInt8) :=
  places 0 (writeUtf8 capacity text.toList) ++ [((encode text).length + 1, 0)]

/-- `eventdata` when it is handed to `sendEvent`. It has not been initialised. -/
def eventdata (initial : Vector UInt8 capacity) (text : String) : List UInt8 :=
  (jWaitWrites text).foldl (fun buffer w => buffer.set w.1 w.2) initial.toList

/-- `EventData(const char*)`: the bytes up to the first NUL, and a NUL. -/
def eventData (src : List UInt8) : List UInt8 := untilNul src ++ [0]

/-- `EventData::getData`. -/
def getData (data : List UInt8) : String := decode (untilNul data)

/-- A text gets through `j_wait` to the main thread. -/
structure Delivered (initial : Vector UInt8 capacity) (text : String) : Prop where
  inBounds : ∀ w ∈ jWaitWrites text, w.1 < capacity
  terminated : 0 ∈ eventdata initial text
  intact : getData (eventData (eventdata initial text)) = text

/-! ### The copy -/

/-- A text that fits is copied whole, with its NUL. -/
theorem writeUtf8_eq {cs : List Char} {room : Nat}
    (fits : (cs.flatMap String.utf8EncodeChar).length < room) :
    writeUtf8 room cs = cs.flatMap String.utf8EncodeChar ++ [0] := by
  induction cs generalizing room with
  | nil => exact if_pos fits
  | cons c cs ih =>
      rw [List.flatMap_cons, List.length_append] at fits
      rw [writeUtf8, List.flatMap_cons, List.append_assoc, if_pos (by omega), ih (by omega)]

theorem lt_of_mem_places {w : Nat × UInt8} {bytes : List UInt8} {start : Nat}
    (h : w ∈ places start bytes) : w.1 < start + bytes.length := by
  induction bytes generalizing start with
  | nil => cases h
  | cons b bytes ih =>
      rw [List.length_cons]
      rcases List.mem_cons.mp h with rfl | later
      · exact Nat.lt_add_of_pos_right (Nat.succ_pos _)
      · have := ih later
        omega

/-- Consecutive bytes replace what stood in their places. -/
theorem foldl_places (bytes front back : List UInt8) (room : bytes.length ≤ back.length) :
    (places front.length bytes).foldl (fun buffer w => buffer.set w.1 w.2) (front ++ back) =
      front ++ bytes ++ back.drop bytes.length := by
  induction bytes generalizing front back with
  | nil => simp [places]
  | cons b bytes ih =>
      cases back with
      | nil => cases room
      | cons a back =>
          have rest := ih (front ++ [b]) back (Nat.le_of_succ_le_succ room)
          have put : (front ++ a :: back).set front.length b = front ++ [b] ++ back := by simp
          rw [List.length_append] at rest
          rw [places, List.foldl_cons, put]
          simpa using rest

/-- The buffer begins with the text and a NUL. -/
theorem eventdata_eq (initial : Vector UInt8 capacity) {text : String}
    (short : (encode text).length + 1 < capacity) :
    ∃ rest, eventdata initial text = encode text ++ 0 :: rest := by
  have copied : writeUtf8 capacity text.toList = encode text ++ [0] :=
    writeUtf8_eq (Nat.lt_of_succ_lt short)
  have whole := foldl_places (encode text ++ [0]) [] initial.toList (by simp; omega)
  rw [List.nil_append, List.nil_append] at whole
  rw [eventdata, jWaitWrites, copied, List.foldl_append]
  change (places 0 _).foldl _ _ = _ at whole
  rw [whole, List.append_assoc]
  refine ⟨(initial.toList.drop (encode text ++ [0]).length).set 0 0, ?_⟩
  simp [List.set_append_right]

/-- A text without U+0000 comes through a buffer that it ends in. -/
theorem getData_eventData {text : String} (noNul : '\x00' ∉ text.toList) (rest : List UInt8) :
    getData (eventData (encode text ++ 0 :: rest)) = text := by
  rw [eventData, untilNul_encode noNul, getData, decode_untilNul, cut_eq_self noNul]

theorem nul_notMem_waitText (name : List Char) (data : Option Tree) :
    '\x00' ∉ (waitText name data).toList := by
  rw [waitText, String.toList_ofList]
  exact nul_notMem_print _

/-- **The event of a `wait` is written inside the buffer, terminated and received as it was
exactly if its JSON text takes at most 126 bytes.** -/
theorem delivered_iff (initial : Vector UInt8 capacity) (name : List Char) (data : Option Tree) :
    Delivered initial (waitText name data) ↔ (encode (waitText name data)).length ≤ 126 := by
  constructor
  · intro delivered
    have last := delivered.inBounds _ (List.mem_append_right _ (List.mem_singleton.mpr rfl))
    exact Nat.le_of_lt_succ (Nat.lt_of_succ_lt_succ last)
  · intro short
    have room : (encode (waitText name data)).length + 1 < capacity :=
      Nat.lt_of_le_of_lt (Nat.succ_le_succ short) (by decide)
    obtain ⟨rest, content⟩ := eventdata_eq initial room
    refine ⟨fun w written => ?_, ?_, ?_⟩
    · rcases List.mem_append.mp written with copied | last
      · have copy : writeUtf8 capacity (waitText name data).toList =
            encode (waitText name data) ++ [0] := writeUtf8_eq (Nat.lt_of_succ_lt room)
        have place := lt_of_mem_places copied
        rw [copy, Nat.zero_add, List.length_append, List.length_singleton] at place
        exact Nat.lt_trans place room
      · rw [List.mem_singleton.mp last]
        exact room
    · rw [content]
      exact List.mem_append_right _ List.mem_cons_self
    · rw [content]
      exact getData_eventData (nul_notMem_waitText name data) rest

/-- The text for a name of 116 letters takes 127 bytes, and the last zero is written behind the
buffer. -/
theorem wait_writes_outside :
    ¬ Delivered (Vector.replicate capacity 0) (waitText (List.replicate 116 'a') none) := by
  intro delivered
  have last := delivered.inBounds _ (List.mem_append_right _ (List.mem_singleton.mpr rfl))
  have length : (encode (waitText (List.replicate 116 'a') none)).length = 127 := by
    decide +kernel
  rw [length] at last
  exact absurd last (by decide)

end ThreadJs.Wait
