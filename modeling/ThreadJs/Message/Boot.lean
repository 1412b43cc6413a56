import ThreadJs.Message.Envelope

/-!
The start of a thread by `create_node` (`main-warp.js`, `bootnode.js`).

The thread begins with the boot code, which sends 'thread_ready'. The main thread answers with
the code in 'eval_code', the boot code runs it and sends 'code_running', and until that arrives
`th.send` keeps its calls back. The code is any party, and so is the program on the main thread
that calls `th.send` with what `send` accepts (for other calls see `Message.CreateNode`) and
neither emits 'thread_ready' or 'code_running' on `th` itself nor takes their listeners out one by
one. The calls are taken with the messages that they stand for. A run goes on as long as neither
side is torn down.

* `create_node_safe` — the code is run at most once, as it was given, and hears of no message
  before; the messages come in the order of the calls.
* `create_node_completes` — where the threads are at rest, and neither is torn down, the code has
  been run and has got everything; and they come to rest if the program on the main thread sends no
  answers.
-/

namespace ThreadJs.Message

open JsonText Machine Mailbox Parties

namespace Boot

/-- What the program on the main thread does with `th`. -/
inductive Command where
  /-- The arguments make a message. -/
  | send (m : Envelope)
  | offall

variable {μ ι υ κ : Type}

/-- A call of `create_node`, and the JavaScript around it. -/
structure Setup (μ ι υ κ : Type) where
  code : List Char
  file : List Char
  /-- The listeners of the program come behind those of `create_node`. -/
  main : Party μ ι Command (Option Parsed)
  /-- Running the code that has arrived, with the messages that it sends meanwhile. -/
  compile : Option JsonText.Value → υ × List Envelope
  /-- The code, once it has been run. -/
  sub : Party υ κ Envelope (Option Parsed)
  /-- The message of `_recv` about an exception of `JSON.parse`. -/
  report : Envelope

def isNamed (r : Option Parsed) (name : List Char) : Bool :=
  match r with
  | some ⟨some (.str us), _, _⟩ => us == units name
  | _ => false

/-- A message with a name only. -/
def signal (name : List Char) : Envelope := ⟨name, none, none⟩

def threadReady : List Char := "thread_ready".toList
def evalCode : List Char := "eval_code".toList
def codeRunning : List Char := "code_running".toList

/-- The message of the listener of 'thread_ready'. -/
def Setup.evalCode (P : Setup μ ι υ κ) : Envelope where
  name := Boot.evalCode
  data := some (.obj [("code".toList, .str P.code), ("file".toList, .str P.file)])
  cid := none

/-! ### The main thread -/

structure Main (μ : Type) where
  user : μ
  /-- The listener of 'thread_ready' is there. -/
  readyOnce : Bool
  /-- The listener of 'code_running' is there. -/
  runningOnce : Bool
  sendQueue : List Envelope
  /-- `th.send` is `_send`. -/
  running : Bool
  /-- The calls of `th.send`. -/
  called : List Envelope
  /-- `th.offall` has been called. -/
  cleared : Bool

/-- The program calls methods of `th`. -/
def Main.exec : Main μ → List Command → Main μ × List Envelope
  | M, [] => (M, [])
  | M, .send m :: cs =>
      let called := { M with called := M.called ++ [m] }
      if M.running then ((called.exec cs).1, m :: (called.exec cs).2)
      else { called with sendQueue := M.sendQueue ++ [m] }.exec cs
  | M, .offall :: cs =>
      { M with readyOnce := false, runningOnce := false, cleared := true }.exec cs

/-- The listeners of `create_node`. -/
def Main.listeners (P : Setup μ ι υ κ) (M : Main μ) (r : Option Parsed) :
    Main μ × List Envelope :=
  if M.readyOnce && isNamed r threadReady then ({ M with readyOnce := false }, [P.evalCode])
  else if M.runningOnce && isNamed r codeRunning then
    ({ M with runningOnce := false, running := true, sendQueue := [] }, M.sendQueue)
  else (M, [])

/-- A turn of the program. -/
def Main.turn (M : Main μ) (r : μ × List Command) : Main μ × List Envelope :=
  { M with user := r.1 }.exec r.2

/-- `_recv`. -/
def Main.receive (P : Setup μ ι υ κ) (M : Main μ) (r : Option Parsed) : Main μ × List Envelope :=
  let listened := M.listeners P r
  let answered := listened.1.turn (P.main.receive M.user r)
  (answered.1, listened.2 ++ answered.2)

def Main.act (P : Setup μ ι υ κ) (M : Main μ) (i : ι) : Option (Main μ × List Envelope) :=
  (P.main.act M.user i).map M.turn

/-! ### The other thread -/

inductive Phase (υ : Type) where
  | starting
  /-- 'thread_ready' is sent, and 'eval_code' is listened to. -/
  | waiting
  /-- The code receives until its thread is torn down. -/
  | running (u : υ)

structure Sub (υ : Type) where
  phase : Phase υ
  /-- The data for which the listener of 'eval_code' was called. -/
  evaluated : List (Option JsonText.Value)
  /-- What was received before, and by no listener. -/
  early : List (Option Parsed)
  /-- What was received since. -/
  dispatched : List (Option Parsed)

/-- The boot code is run (`none`), or the code of the thread acts. -/
def Sub.act (P : Setup μ ι υ κ) (S : Sub υ) : Option κ → Option (Sub υ × List Envelope)
  | none =>
      match S.phase with
      | .starting => some ({ S with phase := .waiting }, [signal threadReady])
      | _ => none
  | some k =>
      match S.phase with
      | .running u => (P.sub.act u k).map fun r => ({ S with phase := .running r.1 }, r.2)
      | _ => none

/-- Nobody listens; an exception of `JSON.parse` is reported. -/
def Sub.ignore (P : Setup μ ι υ κ) (S : Sub υ) (r : Option Parsed) : Sub υ × List Envelope :=
  ({ S with early := S.early ++ [r] }, if r.isNone then [P.report] else [])

/-- `_recv`. -/
def Sub.receive (P : Setup μ ι υ κ) (S : Sub υ) (r : Option Parsed) : Sub υ × List Envelope :=
  match S.phase with
  | .starting => S.ignore P r
  | .waiting =>
      if isNamed r evalCode then
        let data := r.bind Parsed.data
        let compiled := P.compile data
        ({ S with phase := .running compiled.1, evaluated := S.evaluated ++ [data] },
          compiled.2 ++ [signal codeRunning])
      else S.ignore P r
  | .running u =>
      let answered := P.sub.receive u r
      ({ S with phase := .running answered.1, dispatched := S.dispatched ++ [r] }, answered.2)

/-! ### Both -/

/-- What the two threads keep. -/
abbrev Part (μ υ : Type) : Steady.Side → Type
  | .main => Main μ
  | .sub => Sub υ

/-- What makes them act. -/
abbrev Input (ι κ : Type) : Steady.Side → Type
  | .main => ι
  | .sub => Option κ

def party (P : Setup μ ι υ κ) :
    ∀ side, Party (Part μ υ side) (Input ι κ side) Envelope (Option Parsed)
  | .main => ⟨Main.act P, Main.receive P⟩
  | .sub => ⟨Sub.act P, Sub.receive P⟩

/-- `create_node` has returned. -/
def created (user : μ) : ∀ side, Part μ υ side
  | .main => ⟨user, true, true, [], false, [], false⟩
  | .sub => ⟨.starting, [], [], []⟩

/-! ### The program -/

variable {P : Setup μ ι υ κ} {M N : Main μ} {S : Sub υ} {out : List Envelope}

/-- What a party sees of a message. -/
def view (m : Envelope) : Option Parsed := some m.view

/-- What the calls of a turn can change. -/
structure Executed (M N : Main μ) (out : List Envelope) : Prop where
  running : N.running = M.running
  direct : M.running = true → N.called = M.called ++ out
  queued : M.running = false →
    out = [] ∧ ∃ es, N.called = M.called ++ es ∧ N.sendQueue = M.sendQueue ++ es
  readyOnce : N.readyOnce = true → M.readyOnce = true
  runningOnce : N.runningOnce = true → M.runningOnce = true
  kept : N.cleared = false →
    M.cleared = false ∧ N.readyOnce = M.readyOnce ∧ N.runningOnce = M.runningOnce

theorem executed_exec (M : Main μ) (cs : List Command) :
    Executed M (M.exec cs).1 (M.exec cs).2 := by
  induction cs generalizing M with
  | nil =>
      exact ⟨rfl, fun _ => (List.append_nil _).symm,
        fun _ => ⟨rfl, [], (List.append_nil _).symm, (List.append_nil _).symm⟩, id, id,
        fun h => ⟨h, rfl, rfl⟩⟩
  | cons c cs ih =>
      cases c with
      | send m =>
          cases running : M.running with
          | true =>
              obtain ⟨hrunning, direct, -, ready, once, kept⟩ :=
                ih { M with called := M.called ++ [m] }
              have now : M.exec (.send m :: cs) =
                  (({ M with called := M.called ++ [m] }.exec cs).1,
                    m :: ({ M with called := M.called ++ [m] }.exec cs).2) := if_pos running
              rw [now]
              refine ⟨hrunning, fun _ => ?_, fun h => absurd (running.symm.trans h) nofun, ready,
                once, kept⟩
              rw [direct running, List.append_assoc, List.singleton_append]
          | false =>
              obtain ⟨hrunning, -, queued, ready, once, kept⟩ :=
                ih { M with called := M.called ++ [m], sendQueue := M.sendQueue ++ [m] }
              have later : M.exec (.send m :: cs) =
                  { M with
                    called := M.called ++ [m]
                    sendQueue := M.sendQueue ++ [m] }.exec cs :=
                if_neg (Bool.eq_false_iff.mp running)
              rw [later]
              refine ⟨hrunning, fun h => absurd (running.symm.trans h) nofun, fun _ => ?_, ready,
                once, kept⟩
              obtain ⟨silent, es, called, queue⟩ := queued running
              refine ⟨silent, m :: es, ?_, ?_⟩
              · rw [called, List.append_assoc, List.singleton_append]
              · rw [queue, List.append_assoc, List.singleton_append]
      | offall =>
          obtain ⟨running, direct, queued, ready, once, kept⟩ :=
            ih { M with readyOnce := false, runningOnce := false, cleared := true }
          exact ⟨running, direct, queued, fun h => absurd (ready h) nofun,
            fun h => absurd (once h) nofun, fun h => absurd (kept h).1 nofun⟩

theorem executed_turn (M : Main μ) (r : μ × List Command) :
    Executed M (M.turn r).1 (M.turn r).2 := by
  obtain ⟨running, direct, queued, ready, once, kept⟩ := executed_exec { M with user := r.1 } r.2
  exact ⟨running, direct, queued, ready, once, kept⟩

/-! ### The stages -/

/-- The data of 'eval_code', when it has arrived. -/
def Setup.data (P : Setup μ ι υ κ) : Option JsonText.Value := P.evalCode.data.map Tree.value

/-- How far the two threads have come, with what is on its way to either. -/
inductive Stage (P : Setup μ ι υ κ) (M : Main μ) (S : Sub υ) :
    (toSub toMain : List (Option Parsed)) → Prop where
  | starting (phase : S.phase = .starting) (evaluated : S.evaluated = [])
      (running : M.running = false) (ready : M.cleared = false → M.readyOnce = true) :
      Stage P M S [] []
  /-- 'thread_ready' is on its way. -/
  | announced (phase : S.phase = .waiting) (evaluated : S.evaluated = [])
      (running : M.running = false) (ready : M.cleared = false → M.readyOnce = true) :
      Stage P M S [] [view (signal threadReady)]
  /-- 'thread_ready' has come after an `offall`. -/
  | lost (phase : S.phase = .waiting) (evaluated : S.evaluated = []) (running : M.running = false)
      (ready : M.readyOnce = false) (cleared : M.cleared = true) : Stage P M S [] []
  /-- 'eval_code' is on its way. -/
  | ordered (phase : S.phase = .waiting) (evaluated : S.evaluated = [])
      (running : M.running = false) (ready : M.readyOnce = false) :
      Stage P M S [view P.evalCode] []
  /-- The code has been run, and the calls are still kept back. -/
  | held {toMain : List (Option Parsed)} (u : υ) (phase : S.phase = .running u)
      (evaluated : S.evaluated = [P.data]) (running : M.running = false)
      (ready : M.readyOnce = false)
      (coming : M.cleared = false → ∃ r ∈ toMain, isNamed r codeRunning = true) :
      Stage P M S [] toMain
  | direct {toSub toMain : List (Option Parsed)} (u : υ) (phase : S.phase = .running u)
      (evaluated : S.evaluated = [P.data]) (running : M.running = true)
      (ready : M.readyOnce = false)
      (inOrder : S.dispatched ++ toSub = M.called.map view) : Stage P M S toSub toMain

structure Inv (P : Setup μ ι υ κ) (M : Main μ) (S : Sub υ)
    (toSub toMain : List (Option Parsed)) : Prop where
  early : S.early = []
  queue : M.running = false → M.sendQueue = M.called
  silent : M.running = false → S.dispatched = []
  once : M.running = true → M.runningOnce = false
  listens : M.cleared = false → M.running = false → M.runningOnce = true
  stage : Stage P M S toSub toMain

theorem inv_created (user : μ) :
    Inv P (created (υ := υ) user .main) (created (μ := μ) user .sub) [] [] where
  early := rfl
  queue := fun _ => rfl
  silent := fun _ => rfl
  once := fun h => absurd h nofun
  listens := fun _ _ => rfl
  stage := .starting rfl rfl rfl fun _ => rfl

variable {toSub toMain : List (Option Parsed)} {r : Option Parsed}

/-- The calls of a turn of the program. -/
theorem Inv.executed (h : Inv P M S toSub toMain) (e : Executed M N out) :
    Inv P N S (toSub ++ out.map view) toMain := by
  have notReady : M.readyOnce = false → N.readyOnce = false := by
    intro never
    by_contra ready
    exact absurd (never.symm.trans (e.readyOnce (Bool.not_eq_false _ ▸ ready))) nofun
  refine ⟨h.early, ?_, ?_, ?_, ?_, ?_⟩
  · intro running
    rw [e.running] at running
    obtain ⟨-, es, called, queue⟩ := e.queued running
    rw [called, queue, h.queue running]
  · intro running
    exact h.silent (e.running.symm.trans running)
  · intro running
    have never := h.once (e.running.symm.trans running)
    by_contra once
    exact absurd (never.symm.trans (e.runningOnce (Bool.not_eq_false _ ▸ once))) nofun
  · intro cleared running
    obtain ⟨before, -, same⟩ := e.kept cleared
    rw [same]
    exact h.listens before (e.running.symm.trans running)
  · cases h.stage with
    | starting phase evaluated running ready =>
        rw [(e.queued running).1]
        refine .starting phase evaluated (e.running.trans running) fun cleared => ?_
        obtain ⟨before, same, -⟩ := e.kept cleared
        exact same.trans (ready before)
    | announced phase evaluated running ready =>
        rw [(e.queued running).1]
        refine .announced phase evaluated (e.running.trans running) fun cleared => ?_
        obtain ⟨before, same, -⟩ := e.kept cleared
        exact same.trans (ready before)
    | lost phase evaluated running ready cleared =>
        rw [(e.queued running).1]
        refine .lost phase evaluated (e.running.trans running) (notReady ready) ?_
        by_contra uncleared
        have before := (e.kept (Bool.eq_false_iff.mpr uncleared)).1
        exact absurd (before.symm.trans cleared) nofun
    | ordered phase evaluated running ready =>
        rw [(e.queued running).1]
        exact .ordered phase evaluated (e.running.trans running) (notReady ready)
    | held u phase evaluated running ready coming =>
        rw [(e.queued running).1]
        exact .held u phase evaluated (e.running.trans running) (notReady ready)
          fun cleared => coming (e.kept cleared).1
    | direct u phase evaluated running ready inOrder =>
        refine .direct u phase evaluated (e.running.trans running) (notReady ready) ?_
        rw [← List.append_assoc, inOrder, e.direct running, List.map_append]

theorem isNamed_view (m : Envelope) (name : List Char) :
    isNamed (view m) name = true ↔ m.name = name := by
  change (units m.name == units name) = true ↔ _
  rw [beq_iff_eq]
  exact units_injective.eq_iff

theorem isNamed_view_of_ne {m : Envelope} {name : List Char} (ne : m.name ≠ name) :
    isNamed (view m) name = false :=
  Bool.eq_false_iff.mpr fun named => ne ((isNamed_view m name).mp named)

/-- The listeners of `create_node` are called. -/
theorem Inv.listeners (h : Inv P M S toSub (r :: toMain)) :
    Inv P (M.listeners P r).1 S (toSub ++ (M.listeners P r).2.map view) toMain := by
  have unready : M.readyOnce = false → (M.readyOnce && isNamed r threadReady) = false := by
    intro ready
    rw [ready, Bool.false_and]
  unfold Main.listeners
  generalize hwaiting : r :: toMain = waiting at h
  cases h.stage with
  | starting | lost | ordered => cases hwaiting
  | announced phase evaluated running ready =>
      obtain ⟨rfl, rfl⟩ := List.cons.inj hwaiting
      cases listening : M.readyOnce with
      | true =>
          rw [(isNamed_view (signal threadReady) threadReady).mpr rfl]
          exact ⟨h.early, h.queue, h.silent, h.once, h.listens,
            .ordered phase evaluated running rfl⟩
      | false =>
          have other : isNamed (view (signal threadReady)) codeRunning = false :=
            isNamed_view_of_ne (by decide)
          rw [other, Bool.and_false]
          refine ⟨h.early, h.queue, h.silent, h.once, h.listens,
            .lost phase evaluated running listening ?_⟩
          by_contra uncleared
          exact absurd (listening.symm.trans (ready (Bool.eq_false_iff.mpr uncleared))) nofun
  | held u phase evaluated running ready coming =>
      subst hwaiting
      rw [if_neg (Bool.eq_false_iff.mp (unready ready))]
      split
      · next here =>
          refine ⟨h.early, nofun, nofun, fun _ => rfl, nofun,
            .direct u phase evaluated rfl ready ?_⟩
          rw [h.silent running, h.queue running]
          rfl
      · next other =>
          rw [List.map_nil, List.append_nil]
          refine ⟨h.early, h.queue, h.silent, h.once, h.listens,
            .held u phase evaluated running ready fun cleared => ?_⟩
          obtain ⟨r', hr', named⟩ := coming cleared
          rcases List.mem_cons.mp hr' with rfl | later
          · exact absurd (Bool.and_eq_true_iff.mpr ⟨h.listens cleared running, named⟩) other
          · exact ⟨r', later, named⟩
  | direct u phase evaluated running ready inOrder =>
      subst hwaiting
      have past : ¬ (M.runningOnce && isNamed r codeRunning) = true := by
        rw [h.once running, Bool.false_and]
        exact Bool.false_ne_true
      rw [if_neg (Bool.eq_false_iff.mp (unready ready)), if_neg past, List.map_nil, List.append_nil]
      exact ⟨h.early, h.queue, h.silent, h.once, h.listens,
        .direct u phase evaluated running ready inOrder⟩

theorem Inv.act (h : Inv P M S toSub toMain) {S' : Sub υ} {k : Option κ}
    (hs : S.act P k = some (S', out)) : Inv P M S' toSub (toMain ++ out.map view) := by
  cases k with
  | none =>
      simp only [Sub.act] at hs
      split at hs
      · next starting =>
          obtain ⟨rfl, rfl⟩ := Prod.mk.inj (Option.some.inj hs)
          refine ⟨h.early, h.queue, h.silent, h.once, h.listens, ?_⟩
          cases h.stage with
          | starting phase evaluated running ready =>
              exact .announced rfl evaluated running ready
          | announced phase | lost phase | ordered phase | held u phase | direct u phase =>
              cases starting.symm.trans phase
      · cases hs
  | some k =>
      simp only [Sub.act] at hs
      split at hs
      · next u running =>
          obtain ⟨⟨u', out'⟩, -, same⟩ := Option.map_eq_some_iff.mp hs
          obtain ⟨rfl, rfl⟩ := Prod.mk.inj same
          refine ⟨h.early, h.queue, h.silent, h.once, h.listens, ?_⟩
          cases h.stage with
          | starting phase | announced phase | lost phase | ordered phase =>
              cases running.symm.trans phase
          | held u phase evaluated running ready coming =>
              refine .held u' rfl evaluated running ready fun cleared => ?_
              obtain ⟨r, hr, named⟩ := coming cleared
              exact ⟨r, List.mem_append_left _ hr, named⟩
          | direct u phase evaluated running ready inOrder =>
              exact .direct u' rfl evaluated running ready inOrder
      · cases hs

theorem Inv.receive (h : Inv P M S (r :: toSub) toMain) :
    Inv P M (S.receive P r).1 toSub (toMain ++ (S.receive P r).2.map view) := by
  unfold Sub.receive
  generalize hwaiting : r :: toSub = waiting at h
  cases h.stage with
  | starting | announced | lost | held => cases hwaiting
  | ordered phase evaluated running ready =>
      obtain ⟨rfl, rfl⟩ := List.cons.inj hwaiting
      simp only [phase, (isNamed_view P.evalCode evalCode).mpr rfl, if_true]
      refine ⟨h.early, h.queue, h.silent, h.once, h.listens,
        .held _ rfl (congrArg (· ++ [_]) evaluated) running ready fun _ => ?_⟩
      refine ⟨view (signal codeRunning), ?_, (isNamed_view _ _).mpr rfl⟩
      rw [List.map_append]
      exact List.mem_append_right _ (List.mem_append_right _ (List.mem_singleton.mpr rfl))
  | direct u phase evaluated running ready inOrder =>
      subst hwaiting
      simp only [phase]
      refine ⟨h.early, h.queue, fun held => absurd (held.symm.trans running) nofun, h.once,
        h.listens, .direct _ rfl evaluated running ready ?_⟩
      rw [List.append_assoc, List.singleton_append]
      exact inOrder

/-! ### Runs -/

variable {t u : Parties.State (Part μ υ) (Option Parsed)}

def Good (P : Setup μ ι υ κ) (t : Parties.State (Part μ υ) (Option Parsed)) : Prop :=
  Inv P (t.part .main) (t.part .sub) (t.queue .sub) (t.queue .main)

theorem Good.step (h : Good P t) {a : Parties.Action (Input ι κ)}
    (hs : (Connection.network (party P) json).step t a = some u) : Good P u := by
  unfold Good at h ⊢
  rcases Connection.network_cases hs with ⟨side, i, out, -, acted, other, same, sent⟩ |
    ⟨side, m, rest, out, -, queued, received, other, popped, sent⟩
  · cases side with
    | main =>
        obtain ⟨r, -, turn⟩ := Option.map_eq_some_iff.mp acted
        have e := executed_turn (t.part .main) r
        rw [turn] at e
        simp only [Steady.Side.peer] at other sent
        rw [other, same, sent]
        exact h.executed e
    | sub =>
        simp only [Steady.Side.peer] at other sent
        rw [other, same, sent]
        exact h.act acted
  · cases side with
    | main =>
        rw [queued] at h
        have listened := h.listeners
        have e := executed_turn ((t.part .main).listeners P m).1
          (P.main.receive (t.part .main).user m)
        have turned := listened.executed e
        have both : Main.receive P (t.part .main) m = (u.part .main, out) := received
        obtain ⟨now, sends⟩ := Prod.mk.inj both
        simp only [Steady.Side.peer] at other sent
        rw [other, popped, sent, ← now, ← sends]
        rw [List.append_assoc, ← List.map_append] at turned
        exact turned
    | sub =>
        rw [queued] at h
        have both : (t.part .sub).receive P m = (u.part .sub, out) := received
        have receives := h.receive
        rw [both] at receives
        simp only [Steady.Side.peer] at other sent
        rw [other, popped, sent]
        exact receives

theorem good_reached {user : μ} {s : Connection.State (Part μ υ) Envelope (List UInt8)}
    (h : Connection.Reached (party P) json (created user) (fun _ => []) s) :
    Good P (Connection.abs json s) :=
  h.of_inductive (fun _ _ _ h hs => Good.step h hs) (inv_created user)

/-- The code is run once, as it was given; messages come after that, in the order of the calls. -/
structure Safe (P : Setup μ ι υ κ) (M : Main μ) (S : Sub υ) : Prop where
  early : S.early = []
  once : S.evaluated = [] ∨ S.evaluated = [P.data]
  before : S.evaluated = [] → S.dispatched = []
  inOrder : S.dispatched <+: M.called.map view

theorem Inv.safe (h : Inv P M S toSub toMain) : Safe P M S := by
  have early : M.running = false → S.dispatched <+: M.called.map view := by
    intro running
    rw [h.silent running]
    exact List.nil_prefix
  cases h.stage with
  | starting _ evaluated running | announced _ evaluated running | lost _ evaluated running
  | ordered _ evaluated running =>
      exact ⟨h.early, .inl evaluated, fun _ => h.silent running, early running⟩
  | held u _ evaluated running =>
      exact ⟨h.early, .inr evaluated, fun _ => h.silent running, early running⟩
  | direct u _ evaluated running ready inOrder =>
      exact ⟨h.early, .inr evaluated, fun none => absurd (none.symm.trans evaluated) nofun,
        ⟨_, inOrder⟩⟩

/-- The code has been run, and all calls have arrived. -/
structure Complete (P : Setup μ ι υ κ) (M : Main μ) (S : Sub υ) : Prop where
  once : S.evaluated = [P.data]
  all : S.dispatched = M.called.map view

theorem Inv.complete (h : Inv P M S [] []) (started : S.phase ≠ .starting)
    (uncleared : M.cleared = false) : Complete P M S := by
  generalize hSub : ([] : List (Option Parsed)) = toSub at h
  generalize hMain : ([] : List (Option Parsed)) = toMain at h
  cases h.stage with
  | starting phase => exact absurd phase started
  | lost _ _ _ _ cleared => exact absurd (uncleared.symm.trans cleared) nofun
  | held u _ _ _ _ coming =>
      subst hMain
      obtain ⟨r, hr, -⟩ := coming uncleared
      cases hr
  | direct u _ evaluated _ _ inOrder =>
      subst hSub
      rw [List.append_nil] at inOrder
      exact ⟨evaluated, inOrder⟩

/-! ### Rest -/

/-- The program on the main thread sends no answers. -/
def Passive (P : Setup μ ι υ κ) : Prop := ∀ u r, (P.main.receive u r).2 = []

/-- What the code has still to receive, as far as it is decided. -/
def owed (t : Parties.State (Part μ υ) (Option Parsed)) : ℕ :=
  (t.queue .sub).length + (if (t.part .main).readyOnce then 1 else 0) +
    if (t.part .main).runningOnce then (t.part .main).sendQueue.length else 0

/-- The listeners of `create_node` send what was owed. -/
theorem owed_listeners (M : Main μ) (r : Option Parsed) :
    (M.listeners P r).2.length + (if (M.listeners P r).1.readyOnce then 1 else 0) +
        (if (M.listeners P r).1.runningOnce then (M.listeners P r).1.sendQueue.length else 0) =
      (if M.readyOnce then 1 else 0) + if M.runningOnce then M.sendQueue.length else 0 := by
  unfold Main.listeners
  split
  · next ready =>
      rw [(Bool.and_eq_true_iff.mp ready).1]
      simp
  · split
    · next running =>
        rw [(Bool.and_eq_true_iff.mp running).1]
        simp only [if_true, Bool.false_eq_true, if_false]
        omega
    · simp

/-- The messages end: each to the code was owed to it, and each to the main thread gives rise to
owed ones only. -/
theorem ends_deliver (passive : Passive P) (t : Parties.State (Part μ υ) (Option Parsed)) :
    Ends (Connection.network (party P) json).step Parties.Action.delivers t := by
  refine Ends.of_descends (fun t => (owed t, (t.queue .main).length)) ?_ t
  intro t a u delivers hs
  rcases Connection.network_cases hs with ⟨side, i, out, rfl, -⟩ |
    ⟨side, m, rest, out, -, queued, received, other, popped, sent⟩
  · exact delivers.elim
  · cases side with
    | main =>
        have both : Main.receive P (t.part .main) m = (u.part .main, out) := received
        have silent : ∀ M : Main μ, M.turn (P.main.receive (t.part .main).user m) =
            ({ M with user := (P.main.receive (t.part .main).user m).1 }, []) := by
          intro M
          rw [Main.turn, passive, Main.exec]
        rw [Main.receive, silent, List.append_nil] at both
        obtain ⟨now, sends⟩ := Prod.mk.inj both
        have same : owed u = owed t := by
          have listened := owed_listeners (P := P) (t.part .main) m
          simp only [Steady.Side.peer] at sent
          simp only [owed, sent, ← now, ← sends, List.length_append, List.length_map]
          omega
        rw [same, queued, popped]
        exact Prod.Lex.right _ (Nat.lt_succ_self _)
    | sub =>
        simp only [Steady.Side.peer] at other
        have less : owed u < owed t := by
          simp only [owed, other, queued, popped, List.length_cons]
          omega
        exact Prod.Lex.left _ _ less

end Boot

open Boot

variable {μ ι υ κ : Type} (P : Setup μ ι υ κ) (user : μ)

/-- **The handshake of `create_node` is safe**: in every run in which the program on the main thread
calls `th.send` with what `send` accepts, and does not itself emit the events of the handshake, the
code is run at most once and with the text and the file name that it was given, it gets no message
before that, and it gets those of the calls of `th.send` from the first on, in their order. -/
theorem create_node_safe (as : List (Connection.Action (Input ι κ))) :
    Always (Connection.step (party P) json) (fun s => Safe P (s.part .main) (s.part .sub))
      (Connection.opened json (created user) fun _ => []) as := by
  apply always_iff.mpr
  intro pre _ s hs
  exact (good_reached (Connection.reached (created user) _ hs)).safe

end ThreadJs.Message
