import ThreadJs.Lib.Json.Chars
import ThreadJs.Lib.Json.Print
import ThreadJs.Wait.Buffer
import ThreadJs.Mailbox.Connection

/-!
The messages between two threads, from `send` to `_recv` (`context.js`, `data.h`, `main.cc`).

`send` writes the name, the data and the constructor's id into a JSON text, `EventData` keeps
it as a C string of UTF-8, `getData` makes a string of it again, and `_recv` parses that. With
the mailboxes in between the threads are two parties that pass each other what they meant.

* `threads_refine_parties` — every run of the threads is one of the parties, in which each
  message is received once and in order.
* `at_rest_all_received` — the threads come to rest if the parties do, and then, while neither side
  is torn down, all that was sent has been received.
-/

namespace ThreadJs.Message

open JsonText Utf8 Machine Mailbox Parties

/-- What `send` has to say: `name`, `data` and the id of the constructor. A member that is
undefined has no place in the text. -/
structure Envelope where
  name : List Char
  data : Option Tree
  cid : Option Numeral

/-- The members that `_recv` reads. -/
structure Parsed where
  name : Option JsonText.Value
  data : Option JsonText.Value
  cid : Option JsonText.Value

def Envelope.tree (m : Envelope) : Tree :=
  .obj <| ("name".toList, .str m.name) :: (m.data.map fun d => ("data".toList, d)).toList ++
    (m.cid.map fun n => ("cid".toList, .num n)).toList

/-- `JSON.stringify` of the three. -/
def Envelope.text (m : Envelope) : String := String.ofList (print m.tree)

/-- What `_recv` is to read. -/
def Envelope.view (m : Envelope) : Parsed where
  name := some (.str (units m.name))
  data := m.data.map Tree.value
  cid := m.cid.map fun n => .num (units n.text)

/-- `getData` and the beginning of `_recv`; `none` is the exception of `JSON.parse`. -/
def read (event : List UInt8) : Option Parsed :=
  (parse (units (Wait.getData event).toList)).map fun obj =>
    ⟨obj.get (units "name".toList), obj.get (units "data".toList), obj.get (units "cid".toList)⟩

/-- `v8val_to_char` in `EventData`. -/
def Envelope.event (m : Envelope) : List UInt8 := encode m.text ++ [0]

theorem read_event (m : Envelope) : read m.event = some m.view := by
  have noNul : '\x00' ∉ m.text.toList := by
    rw [Envelope.text, String.toList_ofList]
    exact nul_notMem_print _
  have back : Wait.getData m.event = m.text := by
    rw [Wait.getData, Envelope.event, decode_untilNul, cut_eq_self noNul]
  have parsed : parse (units m.text.toList) = some m.tree.value := by
    rw [Envelope.text, String.toList_ofList, parse_print]
  rw [read, back, parsed, Option.map_some]
  obtain ⟨name, data, cid⟩ := m
  cases data with
  | none => cases cid with
    | none => rfl
    | some n => rfl
  | some d => cases cid with
    | none => rfl
    | some n => rfl

/-- The messages as C strings of JSON. -/
def json : Codec Envelope (List UInt8) (Option Parsed) where
  encode := Envelope.event
  decode := read
  view := fun m => some m.view
  decode_encode := read_event

variable {σ ι : Steady.Side → Type}
  (party : ∀ side, Parties.Party (σ side) (ι side) Envelope (Option Parsed))
  (part : ∀ side, σ side) (before : Steady.Side → List Envelope)

/-- **Two threads, whatever JavaScript they run, are two parties with queues**: at every moment
of every interleaving of their locks, pushes, wake-ups and calls of `_recv` there is a run of
the parties that has brought them where the threads are; and what the events received by then
say, followed by what is on its way, is what has been sent. -/
theorem threads_refine_parties (as : List (Connection.Action ι)) :
    Always (Connection.step party json)
      (fun s => (∃ bs, run (Connection.network party json).step
          (start part fun side => (before side).map fun m => some m.view) bs =
            some (Connection.abs json s)) ∧
        ∀ side, (s.box side).received.map read ++ (Connection.abs json s).queue side =
          (Connection.abs json s).sent side)
      (Connection.opened json part before) as := by
  apply always_iff.mpr
  intro pre _ s hs
  have reached := Connection.reached part before hs
  exact ⟨reached.abstract,
    reached.of_inductive (fun _ _ _ h hs => Parties.InOrder.step h hs) (inOrder_start part _)⟩

/-- **The threads come to rest if the parties do, and then everything has been received**, while
neither side is torn down: if the parties cannot answer each other's messages for ever, the threads
cannot go on for ever by themselves; and where neither can go on, the events received say all that
has been sent. -/
theorem at_rest_all_received (as : List (Connection.Action ι)) :
    Always (Connection.step party json)
      (fun s => (Ends (Connection.network party json).step Parties.Action.delivers
            (Connection.abs json s) →
          Ends (Connection.step party json) Connection.Action.inner s) ∧
        (AtRest (Connection.step party json) Connection.Action.inner s →
          ∀ side, (s.box side).received.map read = (Connection.abs json s).sent side))
      (Connection.opened json part before) as := by
  apply always_iff.mpr
  intro pre _ s hs
  refine ⟨Connection.ends_of_deliver party json, fun rests side => ?_⟩
  have reached := Connection.reached part before hs
  have whole := reached.of_inductive (fun _ _ _ h hs => Parties.InOrder.step h hs)
    (inOrder_start part _) side
  rw [Connection.queue_of_atRest rests reached.flowing side, List.append_nil] at whole
  exact whole

end ThreadJs.Message
