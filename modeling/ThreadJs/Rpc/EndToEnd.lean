import ThreadJs.Rpc.Remote

/-!
Calls of library functions, from the proxy to the callback.

Over the mailboxes, the texts and the messages of all sorts the two threads do what `Rpc.step`
says of calls and replies (`Explained`), so that its invariants hold of them.

* `remote_calls_correlated` — each call has its function run once, in the order of the calls and
  on its arguments, and its callback is called with its own replies.
* `remote_calls_complete` — where the threads are at rest, and neither is torn down, no call and no
  reply is left.
-/

namespace ThreadJs.Rpc.Remote

open JsonText Machine Mailbox Message Parties
open Message.Boot (isNamed view isNamed_view isNamed_view_of_ne)

/-! ### Messages -/

/-- The data of a call, when they have arrived. -/
def Request.datum (q : Request) : Datum := some q.data.value

theorem callOf_message (q : Request) : callOf (view q.message) = some q.datum :=
  if_pos ((isNamed_view q.message directCall).mpr rfl)

theorem callOf_other (m : Other) : callOf (view m.val) = none :=
  if_neg (Bool.eq_false_iff.mp (isNamed_view_of_ne m.property))

theorem ridOf_datum (q : Request) : ridOf q.datum = q.rid := by
  have found : member q.datum "rid" = some (.num (units (natural q.rid).text)) := rfl
  rw [ridOf, found]
  exact toNat_natural q.rid

theorem eventName_view (m : Envelope) : eventName (view m) = m.name := chars_units m.name

theorem keyNumber_key (k : ℕ) : keyNumber (key k).toList = some k := by
  have digits : (key k).toList.drop backCall.length = Nat.toDigits 10 k := by
    rw [key, String.toList_append, Js.toList_toString]
    exact List.drop_left
  rw [keyNumber, digits, Nat.ofDigitChars_ten_toDigits]
  exact if_pos rfl

theorem replyOf_message (k : ℕ) (err ret : Option Tree) : replyOf (view (replyMessage k err ret)) =
    some (k, ⟨err.map Tree.value, ret.map Tree.value⟩) := by
  have data : replyData (view (replyMessage k err ret)) =
      ⟨err.map Tree.value, ret.map Tree.value⟩ := by
    cases err with
    | none => cases ret with
      | none => rfl
      | some t => rfl
    | some t => cases ret with
      | none => rfl
      | some t' => rfl
  have name : eventName (view (replyMessage k err ret)) = (key k).toList := eventName_view _
  rw [replyOf, name, keyNumber_key, data]
  rfl

theorem replyOf_foreign (m : Foreign) : replyOf (view m.val) = none := by
  have other : keyNumber m.val.name = none := by
    unfold keyNumber
    refine if_neg fun same => ?_
    have foreign := m.property
    rw [same, String.ofList_toList, isBackCall_key] at foreign
    cases foreign
  rw [replyOf, eventName_view, other]
  rfl

/-- A message under the name of a call is a reply to it. -/
def Honest (m : Option Parsed) : Prop :=
  replyOf m = none → isBackCall (String.ofList (eventName m)) = false

theorem honest_foreign (m : Foreign) : Honest (view m.val) := by
  intro _
  rw [eventName_view]
  exact m.property

theorem honest_reply (k : ℕ) (err ret : Option Tree) : Honest (view (replyMessage k err ret)) := by
  intro none
  rw [replyOf_message] at none
  cases none

/-- The calls among the messages. -/
def callsIn (rs : List (Option Parsed)) : List Datum := rs.filterMap callOf

def repliesIn (rs : List (Option Parsed)) : List (ℕ × Reply Datum) := rs.filterMap replyOf

theorem callsIn_append (rs rs' : List (Option Parsed)) :
    callsIn (rs ++ rs') = callsIn rs ++ callsIn rs' :=
  List.filterMap_append

theorem repliesIn_append (rs rs' : List (Option Parsed)) :
    repliesIn (rs ++ rs') = repliesIn rs ++ repliesIn rs' :=
  List.filterMap_append

variable {User υ μ ι κ Φ : Type}

theorem callsIn_messages (o : Op User) (id : ℕ) :
    callsIn ((o.messages id).map view) = (o.requests id).map Request.datum := by
  cases o with
  | call c multiple =>
      exact List.filterMap_cons_some (callOf_message ⟨c, id + 1⟩)
  | plain c => exact List.filterMap_cons_some (callOf_message ⟨c, 0⟩)
  | send m => exact List.filterMap_cons_none (callOf_other m)
  | unbind | on | off | emit | ret | throw => rfl

/-! ### The thread -/

/-- The calls go on, by what leaves their names alone, to a state with the property. -/
abbrev CallsLead [DecidableEq User] (r : State User Datum) (P : State User Datum → Prop) : Prop :=
  Leads (only step Respects) r P

theorem callsLead_step [DecidableEq User] {r r' : State User Datum} {a : Rpc.Action User Datum}
    {P : State User Datum → Prop} (hs : step r a = some r') (respects : Respects a) (h : P r') :
    CallsLead r P :=
  .of_step (only_eq_some.mpr ⟨respects, hs⟩) h

/-- The thread goes from `T` to `T'` and sends `out`, and the state of both sides goes from `r`
to `r'`. -/
structure Turned (T T' : Thread υ User) (r r' : State User Datum) (out : List Envelope) : Prop where
  half : Half T'.state r'
  toThread : r'.toThread = r.toThread
  started : r'.started = r.started
  given : ∀ k, given k r'.log = given k r.log
  toMain : r'.toMain = r.toMain ++ (callsIn (out.map view)).filterMap numberOf
  made : T'.made.map Request.datum = T.made.map Request.datum ++ callsIn (out.map view)

/-- The calls with a callback are counted from 1 on. -/
def Numbered (T : Thread υ User) : Prop :=
  (T.made.map Request.datum).filterMap numberOf = (List.range T.state.id).map Nat.succ

variable {T T' T'' : Thread υ User} {r r' r'' : State User Datum} {out out' : List Envelope}

theorem Turned.refl (half : Half T.state r) : Turned T T r r [] where
  half := half
  toThread := rfl
  started := rfl
  given := fun _ => rfl
  toMain := (List.append_nil _).symm
  made := (List.append_nil _).symm

theorem Turned.trans (h : Turned T T' r r' out) (h' : Turned T' T'' r' r'' out') :
    Turned T T'' r r'' (out ++ out') where
  half := h'.half
  toThread := h'.toThread.trans h.toThread
  started := h'.started.trans h.started
  given := fun k => (h'.given k).trans (h.given k)
  toMain := by
    rw [h'.toMain, h.toMain, List.map_append, callsIn_append, List.filterMap_append,
      List.append_assoc]
  made := by rw [h'.made, h.made, List.map_append, callsIn_append, List.append_assoc]

theorem numberOf_datum (q : Request) :
    numberOf q.datum = if 0 < q.rid then some q.rid else none := by
  rw [numberOf, ridOf_datum]

theorem isOwn_action {o : Op User} {a : Rpc.Action User Datum} (h : o.action = some a) :
    a.isOwn = true := by
  cases o with
  | plain | send => cases h
  | call | unbind | on | off | emit | ret | throw =>
      obtain rfl := Option.some.inj h
      rfl

theorem respects_action {o : Op User} {a : Rpc.Action User Datum} (h : o.action = some a) :
    Respects a := by
  cases o with
  | plain | send => cases h
  | call | unbind | ret | throw =>
      obtain rfl := Option.some.inj h
      trivial
  | on name | off name | emit name =>
      obtain rfl := Option.some.inj h
      exact name.property

theorem numbers_op (o : Op User) (id : ℕ) : ((o.requests id).map Request.datum).filterMap numberOf =
    match o with
    | .call .. => [id + 1]
    | _ => [] := by
  cases o with
  | call c multiple =>
      exact List.filterMap_cons_some ((numberOf_datum ⟨c, id + 1⟩).trans (if_pos id.succ_pos))
  | plain c => exact List.filterMap_cons_none (numberOf_datum ⟨c, 0⟩)
  | send | unbind | on | off | emit | ret | throw => rfl

section Execution

variable [DecidableEq User]

/-- What the code does to the emitter, where it is possible. -/
theorem op_cases (T : Thread υ User) (o : Op User) : (T.op o).1.state = T.state ∨
    ∃ a, o.action = some a ∧ step T.state a = some (T.op o).1.state := by
  unfold Thread.op
  cases action : o.action with
  | none => exact .inl rfl
  | some a =>
      rw [Option.bind_some]
      cases hs : step T.state a with
      | none => exact .inl rfl
      | some p => exact .inr ⟨a, rfl, hs⟩

/-- Only calls are counted. -/
theorem op_keeps {o : Op User} (noCall : ∀ c multiple, o ≠ .call c multiple) :
    (T.op o).1.state.toMain = T.state.toMain ∧ (T.op o).1.state.id = T.state.id := by
  rcases op_cases T o with same | ⟨a, action, hs⟩
  · rw [same]
    exact ⟨rfl, rfl⟩
  · refine step_keeps (isOwn_action action) (fun multiple same => ?_) hs
    subst same
    cases o with
    | call c => exact noCall c _ rfl
    | plain | send | unbind | on | off | emit | ret | throw => cases action

theorem Numbered.op (h : Numbered T) (o : Op User) : Numbered (T.op o).1 := by
  have made : (T.op o).1.made = T.made ++ o.requests T.state.id := rfl
  rw [Numbered, made, List.map_append, List.filterMap_append, h, numbers_op]
  by_cases call : ∃ c multiple, o = .call c multiple
  · obtain ⟨c, multiple, rfl⟩ := call
    exact (List.map_append ..).symm.trans (congrArg _ List.range_succ.symm)
  · have keeps := op_keeps (T := T) fun c multiple same => call ⟨c, multiple, same⟩
    rw [keeps.2]
    cases o with
    | call c multiple => exact absurd ⟨c, multiple, rfl⟩ call
    | plain | send | unbind | on | off | emit | ret | throw => exact List.append_nil _

theorem Numbered.exec (h : Numbered T) (os : List (Op User)) : Numbered (T.exec os).1 := by
  induction os generalizing T with
  | nil => exact h
  | cons o os ih => exact ih (h.op o)

/-- One thing that the code of the thread does. -/
theorem turned_op (half : Half T.state r) (o : Op User) :
    CallsLead r fun r' => Turned T (T.op o).1 r r' (T.op o).2 := by
  -- The messages are those of the calls.
  have calls : callsIn ((T.op o).2.map view) = (o.requests T.state.id).map Request.datum :=
    callsIn_messages o T.state.id
  have made : (T.op o).1.made.map Request.datum =
      T.made.map Request.datum ++ callsIn ((T.op o).2.map view) := by
    rw [calls, ← List.map_append]
    rfl
  by_cases call : ∃ c multiple, o = .call c multiple
  · obtain ⟨c, multiple, rfl⟩ := call
    obtain ⟨r', hr', moves, toThread⟩ := half.step (a := .call multiple) rfl rfl
    obtain ⟨sent, alone, both⟩ := moves.toMain
    refine callsLead_step hr' trivial
      ⟨moves.half, toThread, moves.started, moves.given, ?_, made⟩
    rw [both, calls, numbers_op, List.append_cancel_left alone]
  · have keeps := op_keeps (T := T) fun c multiple same => call ⟨c, multiple, same⟩
    have none : (callsIn ((T.op o).2.map view)).filterMap numberOf = [] := by
      rw [calls, numbers_op]
      cases o with
      | call c multiple => exact absurd ⟨c, multiple, rfl⟩ call
      | plain | send | unbind | on | off | emit | ret | throw => rfl
    rcases op_cases T o with same | ⟨a, action, hs⟩
    · refine .refl ⟨same ▸ half, rfl, rfl, fun _ => rfl, ?_, made⟩
      rw [none, List.append_nil]
    · obtain ⟨r', hr', moves, toThread⟩ := half.step (isOwn_action action) hs
      obtain ⟨sent, alone, both⟩ := moves.toMain
      refine callsLead_step hr' (respects_action action)
        ⟨moves.half, toThread, moves.started, moves.given, ?_, made⟩
      rw [both, none, List.self_eq_append_right.mp (keeps.1.symm.trans alone)]

theorem turned_exec (half : Half T.state r) (os : List (Op User)) :
    CallsLead r fun r' => Turned T (T.exec os).1 r r' (T.exec os).2 := by
  induction os generalizing T r with
  | nil => exact .refl (.refl half)
  | cons o os ih =>
      exact (turned_op half o).trans fun r₁ first => (ih first.half).imp fun r₂ => first.trans

/-- The callbacks that still run throw. -/
theorem leads_throw (r : State User Datum) :
    CallsLead r fun r' => r' = { r with frames := [] } := by
  obtain ⟨E, id, multiple, frames, toMain, started, toThread, log, others⟩ := r
  induction frames with
  | nil => exact .refl rfl
  | cons f frames ih => exact (Leads.of_step (a := .throw) rfl rfl).trans fun r hr => hr ▸ ih

/-- A turn of the thread. -/
theorem turned_turn (half : Half T.state r) (P : Script υ κ User) (done : υ × List (Op User)) :
    CallsLead r fun r' => Turned T (T.turn P done).1 r r' (T.turn P done).2 := by
  refine (turned_exec (T := { T with user := done.1 }) half done.2).trans fun r₁ turned => ?_
  have first : Turned T ({ T with user := done.1 }.exec done.2).1 r r₁
      ({ T with user := done.1 }.exec done.2).2 :=
    ⟨turned.half, turned.toThread, turned.started, turned.given, turned.toMain, turned.made⟩
  refine (leads_throw r₁).imp fun r₂ hr₂ => first.trans ?_
  subst hr₂
  have silent : callsIn (((if ({ T with user := done.1 }.exec done.2).1.state.frames.isEmpty then []
      else [P.report.val]) : List Envelope).map view) = [] := by
    split
    · rfl
    · exact List.filterMap_cons_none (callOf_other P.report)
  refine ⟨turned.half.pop [], rfl, rfl, fun _ => rfl, ?_, ?_⟩
  · rw [silent]
    exact (List.append_nil _).symm
  · rw [silent]
    exact (List.append_nil _).symm

/-- A message gets to the listeners of the thread, and `rest` is still on its way. -/
structure Delivered (T : Thread υ User) (m : Option Parsed) (rest : List (Option Parsed))
    (r r' : State User Datum) : Prop where
  half : Half (T.deliver m) r'
  toThread : r'.toThread = repliesIn rest
  started : r'.started = r.started
  toMain : r'.toMain = r.toMain
  given : ∀ k, given k r'.log = given k r.log

theorem deliver_spec (half : Half T.state r) (idle : T.state.frames = []) {m : Option Parsed}
    (honest : Honest m) {rest : List (Option Parsed)}
    (arrived : r.toThread = repliesIn (m :: rest)) :
    (T.deliver m).id = T.state.id ∧ CallsLead r (Delivered T m rest r) := by
  have delivered : ∀ {p r'}, T.deliver m = p → p.toMain = T.state.toMain →
      Moves T.state r p r' → r'.toThread = repliesIn rest → Delivered T m rest r r' := by
    rintro p r' rfl same moves toThread
    obtain ⟨sent, alone, both⟩ := moves.toMain
    rw [List.self_eq_append_right.mp (same.symm.trans alone), List.append_nil] at both
    exact ⟨moves.half, toThread, moves.started, both, moves.given⟩
  cases reply : replyOf m with
  | some x =>
      obtain ⟨k, x⟩ := x
      have first : r.toThread = (k, x) :: repliesIn rest :=
        arrived.trans (List.filterMap_cons_some reply)
      obtain ⟨p, hp, sameMain, sameId⟩ := exists_recv idle k x
      have now : T.deliver m = p := by
        rw [Thread.deliver, reply]
        exact congrArg (Option.getD · T.state) hp
      obtain ⟨r', hr', moves, toThread⟩ := half.recv idle first hp
      exact ⟨now ▸ sameId, callsLead_step hr' trivial
        (delivered now sameMain moves toThread)⟩
  | none =>
      have later : r.toThread = repliesIn rest := arrived.trans (List.filterMap_cons_none reply)
      have hp : step T.state (.emit (String.ofList (eventName m)) (replyData m)) =
          some (T.deliver m) := by
        rw [Thread.deliver, reply]
        rfl
      obtain ⟨sameMain, sameId⟩ :=
        step_keeps (a := .emit (String.ofList (eventName m)) (replyData m)) rfl
          (fun _ => by simp) hp
      obtain ⟨r', hr', moves, toThread⟩ := half.step rfl hp
      exact ⟨sameId, callsLead_step hr' (honest reply)
        (delivered rfl sameMain moves (toThread.trans later))⟩

end Execution

/-! ### The main side -/

/-- The replies of a call. -/
def Main.replies (M : Main Φ μ) (k : ℕ) : List (Reply Datum) := inFlight k M.given

structure Agrees (M : Main Φ μ) (r : State User Datum) : Prop where
  started : r.started = M.started
  given : ∀ k, given k r.log = M.replies k

variable {M : Main Φ μ}

theorem replies_answer (rid : ℕ) (err ret : Option Tree) (k : ℕ) :
    (M.answer rid err ret).replies k = M.replies k ++
      if rid = k then [⟨err.map Tree.value, ret.map Tree.value⟩] else [] := by
  rw [Main.replies, Main.answer, inFlight, List.filterMap_append, ← inFlight, ← Main.replies]
  congr 1
  split
  · next same => exact List.filterMap_cons_some (if_pos same)
  · next other => exact List.filterMap_cons_none (if_neg other)

theorem exec_keeps (M : Main Φ μ) (es : List Effect) : (M.exec es).1.handled = M.handled ∧
    (M.exec es).1.ran = M.ran := by
  induction es generalizing M with
  | nil => exact ⟨rfl, rfl⟩
  | cons e es ih =>
      cases e with
      | send m => exact ih M
      | next rid err ret =>
          rw [Main.exec]
          split
          · exact ih (M.answer rid err ret)
          · exact ih M

/-- What the main side sends under the name of a call is a reply to it. -/
theorem honest_exec (M : Main Φ μ) (es : List Effect) :
    ∀ m ∈ (M.exec es).2.map view, Honest m := by
  induction es generalizing M with
  | nil => exact fun m hm => absurd hm List.not_mem_nil
  | cons e es ih =>
      cases e with
      | send m =>
          intro m' hm
          rcases List.mem_cons.mp hm with rfl | hm
          · exact honest_foreign m
          · exact ih M m' hm
      | next rid err ret =>
          rw [Main.exec]
          split
          · intro m hm
            rcases List.mem_cons.mp hm with rfl | hm
            · exact honest_reply rid err ret
            · exact ih _ m hm
          · exact ih M

theorem honest_receive (L : Library Φ μ ι) (M : Main Φ μ) (m : Option Parsed) :
    ∀ m' ∈ (M.receive L m).2.map view, Honest m' := by
  unfold Main.receive
  split
  · unfold Main.directCall
    dsimp only
    split
    · exact honest_exec _ _
    · exact honest_exec _ _
  · exact honest_exec _ _

theorem honest_append {rs rs' : List (Option Parsed)} (h : ∀ m ∈ rs, Honest m)
    (h' : ∀ m ∈ rs', Honest m) : ∀ m ∈ rs ++ rs', Honest m := fun m hm =>
  (List.mem_append.mp hm).elim (h m) (h' m)

variable [DecidableEq User] {p : State User Datum}

/-- The main side has come to `M` and has sent `out`, with these calls on their way. -/
structure Answered (p : State User Datum) (M : Main Φ μ) (toMain : List ℕ)
    (r r' : State User Datum) (out : List Envelope) : Prop where
  half : Half p r'
  agrees : Agrees M r'
  toMain : r'.toMain = toMain
  toThread : r'.toThread = r.toThread ++ repliesIn (out.map view)

/-- The program of the main side goes on. -/
theorem answered_exec (half : Half p r) (agrees : Agrees M r) (es : List Effect) :
    CallsLead r fun r' => Answered p (M.exec es).1 r.toMain r r' (M.exec es).2 := by
  induction es generalizing M r with
  | nil => exact .refl ⟨half, agrees, rfl, (List.append_nil _).symm⟩
  | cons e es ih =>
      cases e with
      | send m =>
          refine (ih half agrees).imp fun r' h => ⟨h.half, h.agrees, h.toMain, h.toThread.trans ?_⟩
          exact congrArg _ (List.filterMap_cons_none (replyOf_foreign m)).symm
      | next rid err ret =>
          rw [Main.exec]
          split
          · next started =>
              obtain ⟨r₁, hr₁, half₁, toMain₁, started₁, toThread₁, given₁⟩ :=
                half.next (agrees.started ▸ started) ⟨err.map Tree.value, ret.map Tree.value⟩
              have agrees₁ : Agrees (M.answer rid err ret) r₁ :=
                ⟨started₁.trans agrees.started,
                  fun k => by rw [given₁, agrees.given, replies_answer]⟩
              refine (callsLead_step hr₁ trivial rfl).trans ?_
              rintro _ rfl
              refine (ih half₁ agrees₁).imp fun r' h =>
                ⟨h.half, h.agrees, h.toMain.trans toMain₁, ?_⟩
              rw [h.toThread, toThread₁, List.append_assoc]
              congr 1
              exact (List.filterMap_cons_some (replyOf_message rid err ret)).symm
          · exact ih half agrees

/-- A call is taken from those on their way. -/
theorem answered_start (half : Half p r) (agrees : Agrees M r) {d : Datum} {ds : List Datum}
    (toMain : r.toMain = (d :: ds).filterMap numberOf) {N : Main Φ μ}
    (started : N.started = M.started ++ (numberOf d).toList) (given : N.given = M.given) :
    CallsLead r fun r' => Answered p N (ds.filterMap numberOf) r r' [] := by
  have replies : ∀ k, N.replies k = M.replies k := fun k => by
    rw [Main.replies, Main.replies, given]
  cases number : numberOf d with
  | none =>
      rw [List.filterMap_cons_none number] at toMain
      rw [number] at started
      refine .refl ⟨half, ⟨?_, fun k => (agrees.given k).trans (replies k).symm⟩, toMain,
        (List.append_nil _).symm⟩
      rw [agrees.started, started]
      exact (List.append_nil _).symm
  | some k =>
      rw [List.filterMap_cons_some number] at toMain
      rw [number] at started
      obtain ⟨r', hr', half', toMain', started', toThread', given'⟩ := half.start toMain
      refine callsLead_step hr' trivial ⟨half', ⟨?_, fun j => ?_⟩, toMain', ?_⟩
      · rw [started', agrees.started, started]
        rfl
      · rw [given', agrees.given, replies]
      · exact toThread'.trans (List.append_nil _).symm

/-- A message gets to the listeners of the main side. -/
theorem answered_receive (L : Library Φ μ ι) (half : Half p r) (agrees : Agrees M r)
    {m : Option Parsed} {rest : List (Option Parsed)}
    (toMain : r.toMain = (callsIn (m :: rest)).filterMap numberOf) :
    (M.receive L m).1.handled = M.handled ++ (callOf m).toList ∧
    (M.receive L m).1.ran = M.ran ++ ((callOf m).bind L.target).toList ∧
    CallsLead r fun r' => Answered p (M.receive L m).1 ((callsIn rest).filterMap numberOf) r r'
      (M.receive L m).2 := by
  unfold Main.receive
  cases call : callOf m with
  | none =>
      dsimp only
      have later : callsIn (m :: rest) = callsIn rest := List.filterMap_cons_none call
      rw [later] at toMain
      obtain ⟨handled, ran⟩ := exec_keeps { M with user := (L.receive M.user m).1 }
        (L.receive M.user m).2
      refine ⟨handled.trans (List.append_nil _).symm, ran.trans (List.append_nil _).symm, ?_⟩
      rw [← toMain]
      exact answered_exec (M := { M with user := (L.receive M.user m).1 }) half
        ⟨agrees.started, agrees.given⟩ (L.receive M.user m).2
  | some d =>
      have first : callsIn (m :: rest) = d :: callsIn rest := List.filterMap_cons_some call
      rw [first] at toMain
      -- What the function does, or the report that there is none.
      have done : ∀ (N : Main Φ μ) es, N.started = M.started ++ (numberOf d).toList →
          N.given = M.given → CallsLead r fun r' =>
            Answered p (N.exec es).1 ((callsIn rest).filterMap numberOf) r r' (N.exec es).2 := by
        intro N es started given
        refine (answered_start half agrees toMain started given).trans fun r₁ begun => ?_
        refine (answered_exec begun.half begun.agrees es).imp fun r' h =>
          ⟨h.half, h.agrees, h.toMain.trans begun.toMain, ?_⟩
        rw [h.toThread, begun.toThread]
        exact congrArg (· ++ _) (List.append_nil _)
      dsimp only
      rw [Option.bind_some, Library.target]
      unfold Main.directCall
      cases found : find L.libs (nameOf (member d "ns")) (nameOf (member d "name")) with
      | error text =>
          dsimp only
          obtain ⟨handled, ran⟩ := exec_keeps { M with
            handled := M.handled ++ [d]
            started := M.started ++ (numberOf d).toList }
            [.next (ridOf d) (some (.str text.toList)) none]
          exact ⟨handled, ran.trans (List.append_nil _).symm, done _ _ rfl rfl⟩
      | ok func =>
          dsimp only
          exact ⟨(exec_keeps _ _).1, (exec_keeps _ _).2, done _ _ rfl rfl⟩

/-! ### Both -/

/-- The two threads and the state of their calls. -/
structure Linked (L : Library Φ μ ι) (M : Main Φ μ) (T : Thread υ User)
    (atSub atMain : List (Option Parsed)) (r : State User Datum) : Prop where
  half : Half T.state r
  numbered : Numbered T
  agrees : Agrees M r
  toThread : r.toThread = repliesIn atSub
  toMain : r.toMain = (callsIn atMain).filterMap numberOf
  handled : M.handled ++ callsIn atMain = T.made.map Request.datum
  ran : M.ran = M.handled.filterMap L.target
  honest : ∀ m ∈ atSub, Honest m

/-- Between two turns. -/
structure Sim (L : Library Φ μ ι) (M : Main Φ μ) (T : Thread υ User)
    (atSub atMain : List (Option Parsed)) (r : State User Datum) : Prop
    extends Linked L M T atSub atMain r where
  idle : T.state.frames = []

/-- The calls so far have led to a state that the threads are in. -/
def Explained (L : Library Φ μ ι) (M : Main Φ μ) (T : Thread υ User)
    (atSub atMain : List (Option Parsed)) : Prop :=
  CallsLead (Rpc.init : State User Datum) (Sim L M T atSub atMain)

variable {L : Library Φ μ ι} {P : Script υ κ User} {atSub atMain : List (Option Parsed)}

theorem explained_begun (m : μ) (u : υ) (ms : List Foreign) :
    Explained L (⟨m, [], [], [], []⟩ : Main Φ μ) (⟨u, Rpc.init, []⟩ : Thread υ User)
      (ms.map fun m => view m.val) [] := by
  refine .refl ⟨⟨.init, rfl, ⟨rfl, fun _ => rfl⟩, ?_, rfl, rfl, rfl, ?_⟩, rfl⟩
  · refine (List.filterMap_eq_nil_iff.mpr ?_).symm
    intro m hm
    obtain ⟨m, -, rfl⟩ := List.mem_map.mp hm
    exact replyOf_foreign m
  · intro m hm
    obtain ⟨m, -, rfl⟩ := List.mem_map.mp hm
    exact honest_foreign m

/-- A turn of the thread. -/
theorem Linked.turn (h : Linked L M T atSub atMain r) (done : υ × List (Op User)) :
    CallsLead r (Sim L M (T.turn P done).1 atSub (atMain ++ (T.turn P done).2.map view)) := by
  refine (turned_turn h.half P done).imp fun r' turned =>
    ⟨⟨turned.half, h.numbered.exec (T := { T with user := done.1 }) done.2, ?_,
      turned.toThread.trans h.toThread, ?_, ?_, h.ran, h.honest⟩, rfl⟩
  · exact ⟨turned.started.trans h.agrees.started,
      fun k => (turned.given k).trans (h.agrees.given k)⟩
  · rw [turned.toMain, h.toMain, callsIn_append, List.filterMap_append]
  · rw [turned.made, callsIn_append, ← List.append_assoc, h.handled]

theorem Explained.turn (h : Explained L M T atSub atMain) (done : υ × List (Op User)) :
    Explained L M (T.turn P done).1 atSub (atMain ++ (T.turn P done).2.map view) :=
  h.trans fun _ sim => sim.toLinked.turn done

/-- The thread gets a message. -/
theorem Explained.received {m : Option Parsed} (h : Explained L M T (m :: atSub) atMain) :
    Explained L M (T.receive P m).1 atSub (atMain ++ (T.receive P m).2.map view) := by
  refine h.trans fun r sim => ?_
  obtain ⟨sameId, leads⟩ :=
    deliver_spec sim.half sim.idle (sim.honest m List.mem_cons_self) sim.toThread
  refine leads.trans fun r' delivered => ?_
  have linked : Linked L M { T with state := T.deliver m } atSub atMain r' := by
    refine ⟨delivered.half, ?_, ?_, delivered.toThread, delivered.toMain.trans sim.toMain,
      sim.handled, sim.ran, fun m hm => sim.honest m (List.mem_cons_of_mem _ hm)⟩
    · rw [Numbered, sameId]
      exact sim.numbered
    · exact ⟨delivered.started.trans sim.agrees.started,
        fun k => (delivered.given k).trans (sim.agrees.given k)⟩
  exact linked.turn _

/-- The main side gets a message. -/
theorem Explained.handled {m : Option Parsed} (h : Explained L M T atSub (m :: atMain)) :
    Explained L (M.receive L m).1 T (atSub ++ (M.receive L m).2.map view) atMain := by
  refine h.trans fun r sim => ?_
  obtain ⟨handled, ran, leads⟩ := answered_receive L sim.half sim.agrees sim.toMain
  refine leads.imp fun r' answered =>
    ⟨⟨answered.half, sim.numbered, answered.agrees, ?_, answered.toMain, ?_, ?_,
      honest_append sim.honest (honest_receive L M m)⟩, sim.idle⟩
  · rw [answered.toThread, sim.toThread, repliesIn_append]
  · rw [handled, List.append_assoc, ← sim.handled]
    congr 1
    cases call : callOf m with
    | none => exact (List.filterMap_cons_none call).symm
    | some d => exact (List.filterMap_cons_some call).symm
  · rw [ran, handled, List.filterMap_append, sim.ran]
    congr 1
    cases callOf m with
    | none => rfl
    | some d =>
        rw [Option.bind_some, Option.toList_some]
        cases target : L.target d with
        | none => exact (List.filterMap_cons_none (l := []) target).symm
        | some func => exact (List.filterMap_cons_some (l := []) target).symm

/-- The other code of the main side acts. -/
theorem Explained.acted (h : Explained L M T atSub atMain) (m : μ) (es : List Effect) :
    Explained L ({ M with user := m }.exec es).1 T
      (atSub ++ ({ M with user := m }.exec es).2.map view) atMain := by
  refine h.trans fun r sim => ?_
  obtain ⟨handled, ran⟩ := exec_keeps { M with user := m } es
  have agrees : Agrees { M with user := m } r := ⟨sim.agrees.started, sim.agrees.given⟩
  refine (answered_exec sim.half agrees es).imp fun r' answered =>
    ⟨⟨answered.half, sim.numbered, answered.agrees, ?_, answered.toMain.trans sim.toMain, ?_, ?_,
      honest_append sim.honest (honest_exec _ es)⟩, sim.idle⟩
  · rw [answered.toThread, sim.toThread, repliesIn_append]
  · rw [handled]
    exact sim.handled
  · rw [ran, handled]
    exact sim.ran

/-! ### Runs -/

def Good (L : Library Φ μ ι) (t : Parties.State (Part Φ μ υ User) (Option Parsed)) : Prop :=
  Explained L (t.part .main) (t.part .sub) (t.queue .sub) (t.queue .main)

theorem Good.step {t u : Parties.State (Part Φ μ υ User) (Option Parsed)}
    {a : Parties.Action (Input ι κ)} (h : Good L t)
    (hs : (Connection.network (party L P) json).step t a = some u) : Good L u := by
  unfold Good at h ⊢
  rcases Connection.network_cases hs with ⟨side, i, out, rfl, acted, other, queue, sent⟩ |
    ⟨side, m, rest, out, rfl, queued, received, other, popped, sent⟩
  · cases side with
    | main =>
        obtain ⟨done, -, turn⟩ := Option.map_eq_some_iff.mp acted
        obtain ⟨now, sends⟩ := Prod.mk.inj turn
        simp only [Steady.Side.peer] at other sent
        rw [other, queue, sent, ← now, ← sends]
        exact h.acted done.1 done.2
    | sub =>
        obtain ⟨done, -, turn⟩ := Option.map_eq_some_iff.mp acted
        obtain ⟨now, sends⟩ := Prod.mk.inj turn
        simp only [Steady.Side.peer] at other sent
        rw [other, queue, sent, ← now, ← sends]
        exact h.turn done
  · cases side with
    | main =>
        rw [queued] at h
        obtain ⟨now, sends⟩ : (Main.receive L (t.part .main) m).1 = u.part .main ∧
          (Main.receive L (t.part .main) m).2 = out := Prod.mk.inj received
        simp only [Steady.Side.peer] at other sent
        rw [other, popped, sent, ← now, ← sends]
        exact h.handled
    | sub =>
        rw [queued] at h
        obtain ⟨now, sends⟩ : ((t.part .sub).receive P m).1 = u.part .sub ∧
          ((t.part .sub).receive P m).2 = out := Prod.mk.inj received
        simp only [Steady.Side.peer] at other sent
        rw [other, popped, sent, ← now, ← sends]
        exact h.received

theorem good_reached {m : μ} {u : υ} {ms : List Foreign}
    {s : Connection.State (Part Φ μ υ User) Envelope (List UInt8)}
    (h : Connection.Reached (party L P) json (begun m u) (before ms) s) :
    Good L (Connection.abs json s) := by
  refine h.of_inductive (fun _ _ _ h hs => Good.step h hs) ?_
  have begins : Explained L _ (⟨u, Rpc.init, []⟩ : Thread υ User) _ _ := explained_begun m u ms
  rw [← Function.comp_def view, ← List.map_map] at begins
  exact begins

/-- The function that a request asks for, on its arguments. -/
def Request.run (L : Library Φ μ ι) (q : Request) : Option (Run Φ) :=
  match find L.libs (q.ns.elim "null" String.ofList) (String.ofList q.name) with
  | .error _ => none
  | .ok func => some ⟨func, some (Tree.obj (indexed 0 q.args)).value, q.args.length⟩

theorem nameOf_ns (q : Request) :
    nameOf (member q.datum "ns") = q.ns.elim "null" String.ofList := by
  have found : member q.datum "ns" = some (q.ns.elim Tree.null Tree.str).value := rfl
  rw [found]
  cases q.ns with
  | none => rfl
  | some ns => exact congrArg String.ofList (chars_units ns)

theorem nameOf_name (q : Request) : nameOf (member q.datum "name") = String.ofList q.name :=
  congrArg String.ofList (chars_units q.name)

theorem target_datum (L : Library Φ μ ι) (q : Request) : L.target q.datum = q.run L := by
  have len : lenOf (member q.datum "len") = q.args.length := toNat_natural q.args.length
  rw [Library.target, nameOf_ns, nameOf_name, len]
  rfl

theorem natural_injective {i j : ℕ} (same : units (natural i).text = units (natural j).text) :
    i = j := by
  rw [← toNat_natural i, same, toNat_natural]

/-- The arguments by their indices. -/
theorem lookup_indexed (as : List (Option Tree)) (i j : ℕ) :
    (memberValues (indexed i as)).reverse.lookup (units (natural j).text) =
      if i ≤ j then ((as[j - i]?).join).map Tree.value else none := by
  induction as generalizing i with
  | nil => simp [indexed, memberValues]
  | cons a as ih =>
      have later : (if i + 1 ≤ j then ((as[j - (i + 1)]?).join).map Tree.value else none) =
          if i ≤ j ∧ i ≠ j then (((a :: as)[j - i]?).join).map Tree.value else none := by
        by_cases after : i + 1 ≤ j
        · rw [if_pos after, if_pos (by omega), show j - i = j - (i + 1) + 1 by omega,
            List.getElem?_cons_succ]
        · rw [if_neg after, if_neg (by omega)]
      cases a with
      | none =>
          rw [indexed, ih, later]
          by_cases here : i = j
          · subst here
            simp
          · simp [here]
      | some t =>
          rw [indexed, memberValues, List.reverse_cons, List.lookup_append, ih, later]
          by_cases here : i = j
          · subst here
            simp
          · have miss : (units (natural j).text == units (natural i).text) = false :=
              beq_eq_false_iff_ne.mpr fun same => here (natural_injective same).symm
            simp [here, List.lookup_cons, miss]

/-- A function gets the arguments of the call. -/
theorem arg_run {L : Library Φ μ ι} {q : Request} {f : Run Φ} (h : q.run L = some f) :
    f.len = q.args.length ∧ ∀ i, f.arg i = ((q.args[i]?).join).map Tree.value := by
  unfold Request.run at h
  split at h
  · cases h
  · obtain rfl := Option.some.inj h
    exact ⟨rfl, fun i => lookup_indexed q.args 0 i⟩

/-- Functions and callbacks are in step with the calls. -/
structure Correlated (L : Library Φ μ ι) (M : Main Φ μ) (T : Thread υ User) : Prop where
  /-- The functions run once for each call, in the order of the calls. -/
  ran : M.ran <+: T.made.filterMap (Request.run L)
  intact : ∀ q ∈ T.made, ∀ f, q.run L = some f →
    f.len = q.args.length ∧ ∀ i, f.arg i = ((q.args[i]?).join).map Tree.value
  /-- Every call with a callback has a number of its own. -/
  numbered : Numbered T
  arrived : ∀ k, delivered k T.state.log <+: M.replies k
  /-- A callback is called with the first reply to its own call. -/
  single : ∀ k, T.state.multiple k = false →
    invoked k T.state.log = (delivered k T.state.log).take 1
  multiple : ∀ k, T.state.multiple k = true → invoked k T.state.log = deliveredBefore k T.state.log
  /-- Calls that are answered or unbound do not count as listeners. -/
  count : (∀ k, 1 ≤ k → k ≤ T.state.id → T.state.isOpen k = false) →
    T.state.emitter.listenerCount none = T.state.others

theorem Explained.inv (h : Explained L M T atSub atMain) : ∃ r, Inv r ∧ Sim L M T atSub atMain r :=
  h.of_inductive (fun _ _ _ h hs => h.step (only_eq_some.mp hs).1 (only_eq_some.mp hs).2) inv_init

theorem Explained.correlated (h : Explained L M T atSub atMain) : Correlated L M T := by
  obtain ⟨r, inv, sim⟩ := h.inv
  have made : M.handled <+: T.made.map Request.datum := ⟨_, sim.handled⟩
  have ran := made.filterMap L.target
  simp only [List.filterMap_map, Function.comp_def, target_datum, ← sim.ran] at ran
  refine ⟨ran, fun q _ f hf => arg_run hf, sim.numbered, fun k => ?_, fun k single => ?_,
    fun k multiple => ?_, fun closed => ?_⟩
  · refine ⟨inFlight k r.toThread, ?_⟩
    rw [← sim.half.log, delivered_threadLog, ← sim.agrees.given]
    exact (inv.channel k).symm
  · rw [← sim.half.multiple] at single
    rw [← sim.half.log, invoked_threadLog, delivered_threadLog]
    exact inv.single k single
  · rw [← sim.half.multiple] at multiple
    rw [← sim.half.log, invoked_threadLog, deliveredBefore_threadLog]
    exact inv.multiple k multiple
  · rw [← sim.half.emitter, ← sim.half.others]
    refine inv.correlated.count fun k one le => ?_
    rw [sim.half.isOpen]
    exact closed k one (sim.half.id ▸ le)

/-- Every call has had its function run, and every reply has arrived. -/
structure Complete (L : Library Φ μ ι) (M : Main Φ μ) (T : Thread υ User) : Prop where
  ran : M.ran = T.made.filterMap (Request.run L)
  single : ∀ k, T.state.multiple k = false → invoked k T.state.log = (M.replies k).take 1
  multiple : ∀ k, T.state.multiple k = true → isUnbound k T.state.log = false →
    invoked k T.state.log = M.replies k

/-- All calls have arrived, each with a number of its own. -/
theorem Explained.all (h : Explained L M T [] []) :
    M.handled = T.made.map Request.datum ∧ (M.handled.filterMap numberOf).Nodup := by
  obtain ⟨as, r, -, sim⟩ := h
  have all := (List.append_nil _).symm.trans sim.handled
  refine ⟨all, ?_⟩
  rw [all, sim.numbered]
  exact List.nodup_range.map Nat.succ_injective

theorem Explained.complete (h : Explained L M T [] []) : Complete L M T := by
  have correlated := h.correlated
  have made := h.all.1
  obtain ⟨r, inv, sim⟩ := h.inv
  have arrived : ∀ k, delivered k T.state.log = M.replies k := by
    intro k
    have whole := inv.channel k
    rw [sim.toThread] at whole
    rw [← sim.half.log, delivered_threadLog, ← sim.agrees.given]
    exact (whole.trans (List.append_nil _)).symm
  refine ⟨?_, fun k single => ?_, fun k multiple bound => ?_⟩
  · rw [sim.ran, made]
    simp only [List.filterMap_map, Function.comp_def, target_datum]
  · rw [correlated.single k single, arrived]
  · rw [correlated.multiple k multiple, deliveredBefore_of_not_unbound bound, arrived]

/-- The listeners of the thread send nothing. -/
def Script.Passive (P : Script υ κ User) : Prop :=
  ∀ (T : Thread υ User) r, (T.receive P r).2 = []

theorem ends_deliver (passive : P.Passive)
    (t : Parties.State (Part Φ μ υ User) (Option Parsed)) :
    Ends (Connection.network (party L P) json).step Parties.Action.delivers t := by
  refine Ends.of_descends (fun t => ((t.queue .main).length, (t.queue .sub).length)) ?_ t
  intro t a u delivers hs
  rcases Connection.network_cases hs with ⟨side, i, out, rfl, -⟩ |
    ⟨side, m, rest, out, -, queued, received, -, popped, sent⟩
  · exact delivers.elim
  · cases side with
    | main =>
        rw [queued, popped]
        exact Prod.Lex.left _ _ (Nat.lt_succ_self _)
    | sub =>
        have silent : out = [] := by
          rw [← passive (t.part .sub) m]
          exact (congrArg Prod.snd received).symm
        have same : u.queue .main = t.queue .main := by
          rw [silent] at sent
          exact sent.trans (List.append_nil _)
        rw [same, queued, popped]
        exact Prod.Lex.right _ (Nat.lt_succ_self _)

variable (L P) (m : μ) (u : υ) (ms : List Foreign)

end ThreadJs.Rpc.Remote
