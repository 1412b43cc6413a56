import Mathlib.Logic.Function.Basic
import ThreadJs.Lib.Machine

/-!
Parties that send each other messages, and the texts of the messages.

Every party has a queue from which it takes the messages in order. In one turn it acts by
itself or handles a message, and sends messages to its peer; what it sends is not yet what the
peer gets to see, since a message is written into a text and read again.

* `InOrder.step` — what a party has handled, followed by what is on its way to it, is what has
  been sent to it.
* `step_cases` — a step is a turn of one party.
-/

namespace Parties

open Machine

variable {I S W R : Type} {σ ι : I → Type}

/-- How messages are written and read. -/
structure Codec (S W R : Type) where
  encode : S → W
  decode : W → R
  /-- What the reader sees. -/
  view : S → R
  decode_encode : ∀ m, decode (encode m) = view m

/-- A party acts, where it is able to, or handles a message. -/
structure Party (σ ι S R : Type) where
  act : σ → ι → Option (σ × List S)
  receive : σ → R → σ × List S

structure Network (I : Type) (σ ι : I → Type) (S R : Type) where
  peer : I → I
  party : ∀ i, Party (σ i) (ι i) S R
  view : S → R

@[ext]
structure State (σ : I → Type) (R : Type) where
  part : ∀ i, σ i
  /-- What is on its way to a party. -/
  queue : I → List R
  handled : I → List R
  /-- All that was sent to a party. -/
  sent : I → List R

inductive Action (ι : I → Type) where
  | act (i : I) (a : ι i)
  | deliver (i : I)

/-- A message is handled. -/
def Action.delivers {ι : I → Type} : Action ι → Prop
  | .act _ _ => False
  | .deliver _ => True

/-- The messages `queue` were sent before the beginning. -/
def start (part : ∀ i, σ i) (queue : I → List R) : State σ R := ⟨part, queue, fun _ => [], queue⟩

/-- Nothing is lost, doubled or taken out of turn. -/
def InOrder (s : State σ R) : Prop := ∀ i, s.handled i ++ s.queue i = s.sent i

theorem InOrder.isPrefix {s : State σ R} (h : InOrder s) (i : I) : s.handled i <+: s.sent i :=
  ⟨s.queue i, h i⟩

theorem inOrder_start (part : ∀ i, σ i) (queue : I → List R) : InOrder (start part queue) :=
  fun _ => rfl

variable [DecidableEq I]

/-- A party arrives in a new state and sends messages. -/
def State.turn (s : State σ R) (i peer : I) (part : σ i) (out : List R) : State σ R :=
  { s with
    part := Function.update s.part i part
    queue := Function.update s.queue peer (s.queue peer ++ out)
    sent := Function.update s.sent peer (s.sent peer ++ out) }

/-- A party takes the first message from its queue. -/
def State.take (s : State σ R) (i : I) (m : R) (rest : List R) : State σ R :=
  { s with
    queue := Function.update s.queue i rest
    handled := Function.update s.handled i (s.handled i ++ [m]) }

def Network.step (N : Network I σ ι S R) (s : State σ R) : Action ι → Option (State σ R)
  | .act i a =>
      ((N.party i).act (s.part i) a).map fun r => s.turn i (N.peer i) r.1 (r.2.map N.view)
  | .deliver i =>
      match s.queue i with
      | [] => none
      | m :: rest =>
          let r := (N.party i).receive (s.part i) m
          some ((s.take i m rest).turn i (N.peer i) r.1 (r.2.map N.view))

variable {N : Network I σ ι S R} {s t : State σ R}

theorem step_cases {a : Action ι} (hs : N.step s a = some t) :
    (∃ i x part out, a = .act i x ∧ (N.party i).act (s.part i) x = some (part, out) ∧
      t = s.turn i (N.peer i) part (out.map N.view)) ∨
    ∃ i m rest part out, a = .deliver i ∧ s.queue i = m :: rest ∧
      (N.party i).receive (s.part i) m = (part, out) ∧
      t = (s.take i m rest).turn i (N.peer i) part (out.map N.view) := by
  cases a with
  | act i x =>
      obtain ⟨⟨part, out⟩, acted, rfl⟩ := Option.map_eq_some_iff.mp hs
      exact .inl ⟨i, x, part, out, rfl, acted, rfl⟩
  | deliver i =>
      simp only [Network.step] at hs
      split at hs
      · cases hs
      · next m rest waiting =>
          obtain rfl := Option.some.inj hs
          exact .inr ⟨i, m, rest, _, _, rfl, waiting, rfl, rfl⟩

/-! ### The queues -/

theorem InOrder.turn (h : InOrder s) (i peer : I) (part : σ i) (out : List R) :
    InOrder (s.turn i peer part out) := by
  intro j
  by_cases same : j = peer
  · subst same
    simp only [State.turn, Function.update_self]
    rw [← List.append_assoc, h j]
  · simp only [State.turn, Function.update_of_ne same]
    exact h j

theorem InOrder.take (h : InOrder s) {i : I} {m : R} {rest : List R}
    (waiting : s.queue i = m :: rest) : InOrder (s.take i m rest) := by
  intro j
  by_cases same : j = i
  · subst same
    simp only [State.take, Function.update_self]
    rw [List.append_assoc, List.singleton_append, ← waiting, h j]
  · simp only [State.take, Function.update_of_ne same]
    exact h j

theorem InOrder.step {a : Action ι} (h : InOrder s) (hs : N.step s a = some t) : InOrder t := by
  rcases step_cases hs with ⟨i, x, part, out, -, -, rfl⟩ |
    ⟨i, m, rest, part, out, -, waiting, -, rfl⟩
  · exact h.turn i _ part _
  · exact (h.take waiting).turn i _ part _

end Parties
