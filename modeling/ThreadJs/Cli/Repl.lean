import ThreadJs.Lib.Js.Number
import ThreadJs.Message.Boot

/-!
The console on a thread (`cli.js`).

Every command goes to the thread in a 'code' message under a reply name of its own, 'ret_1',
'ret_2' and so on, and the callback of the console waits for that name. The thread evaluates
the commands and answers each one, also where the evaluation has thrown. The console is a
program on the main thread of `create_node`, and `subcode` is the code of the thread. The commands
are any code that leaves the listener of 'code' where it is (no `thread.off('code')`), does not call
`thread.wait`, and calls no function of `default_lib` with a callback, which the listener of
`bind_function_call` would answer; and neither side is torn down.

* `repl_in_order` — in every run the commands are evaluated in their order and every callback
  is called once at most, with the outcome of its own command.
* `repl_completes` — the threads come to rest, and then every command has been answered but
  those that have thrown `null` or `undefined`.
-/

namespace ThreadJs.Cli

open JsonText Machine Mailbox Message Message.Boot Parties

/-- The code of the thread. -/
def subcode : String :=
  " " ++
  "thread.on('code', oncode); " ++
  "function oncode(d) \x7b " ++
  "  try \x7b " ++
  "    thread.require = require; " ++
  "    thread.module = module; " ++
  "    var ret = thread.eval(d.code); " ++
  "    if (ret) console.log(ret); " ++
  "    thread.send(d.ret); " ++
  "  \x7d catch(e) \x7b " ++
  "    thread.send(d.ret, e.stack); " ++
  "  \x7d " ++
  "\x7d "

/-- The name of the reply to the `k`-th command. -/
def retName (k : ℕ) : List Char := "ret_".toList ++ (toString k).toList

def codeName : List Char := "code".toList

/-! ### The console -/

structure Console where
  /-- As they are sent; `id` is their number. -/
  commands : List (List Char)
  /-- For which of them `once` listens. -/
  waiting : List ℕ
  /-- The calls of the callbacks. -/
  answers : List (ℕ × Option JsonText.Value)

/-- The message of `myEval` for the `k`-th command. -/
def codeMessage (k : ℕ) (code : List Char) : Envelope where
  name := codeName
  data := some (.obj [("code".toList, .str code), ("ret".toList, .str (retName k))])
  cid := none

def Console.myEval (c : Console) (code : List Char) : Option (Console × List Command) :=
  some ({ c with
    commands := c.commands ++ [code]
    waiting := c.waiting ++ [c.commands.length + 1] },
    [.send (codeMessage (c.commands.length + 1) code)])

/-- `h.once(ret, ..)`: the callback is taken out and called with the data. -/
def Console.receive (c : Console) (r : Option Parsed) : Console × List Command :=
  match c.waiting.find? fun k => isNamed r (retName k) with
  | none => (c, [])
  | some k =>
      ({ c with
        waiting := c.waiting.filter (· != k)
        answers := c.answers ++ [(k, r.bind Parsed.data)] }, [])

def console : Party Console (List Char) Command (Option Parsed) := ⟨Console.myEval, Console.receive⟩

/-! ### The thread -/

/-- How the body of the `try` has ended. -/
inductive Outcome where
  | returns
  | throws (stack : Option Tree)
  /-- `null` or `undefined`, which has no `stack`: the clause `catch` throws as well. -/
  | throwsNothing

/-- What commands can do, beside what the console and `bind_function_call` would react to. -/
structure Shell (ε κ : Type) where
  init : ε
  /-- `thread.eval(d.code)` and the output of the result, with the messages sent meanwhile. -/
  eval : ε → Option JsonText.Value → ε × List Envelope × Outcome
  /-- Timers and whatever else the commands have left behind. -/
  act : ε → κ → Option (ε × List Envelope)
  /-- The report of `_recv` about an exception. -/
  report : Envelope

structure Thread (ε : Type) where
  env : ε
  /-- The evaluations, with `d.code`. -/
  done : List (Option JsonText.Value × Outcome)

variable {ε κ : Type}

/-- The last message of `oncode`. -/
def Shell.answer (sh : Shell ε κ) (ret : List Char) : Outcome → Envelope
  | .returns => ⟨ret, none, none⟩
  | .throws stack => ⟨ret, stack, none⟩
  | .throwsNothing => sh.report

/-- `oncode`. -/
def Thread.oncode (sh : Shell ε κ) (T : Thread ε) (d : Option JsonText.Value) :
    Thread ε × List Envelope :=
  let code := d.bind (·.get (units "code".toList))
  match d.bind (·.get (units "ret".toList)) with
  | some (.str ret) =>
      let evaluated := sh.eval T.env code
      (⟨evaluated.1, T.done ++ [(code, evaluated.2.2)]⟩,
        evaluated.2.1 ++ [sh.answer (chars ret) evaluated.2.2])
  -- Not a message of `myEval`.
  | _ => (T, [sh.report])

def Thread.receive (sh : Shell ε κ) (T : Thread ε) (r : Option Parsed) :
    Thread ε × List Envelope :=
  if isNamed r codeName then T.oncode sh (r.bind Parsed.data)
  else (T, [])

def Thread.act (sh : Shell ε κ) (T : Thread ε) (k : κ) : Option (Thread ε × List Envelope) :=
  (sh.act T.env k).map fun r => ({ T with env := r.1 }, r.2)

/-- `thlib.create_node(subcode, 'cli-console-sub-thread', lib)`. -/
def setup (sh : Shell ε κ) : Setup Console (List Char) (Thread ε) κ where
  code := subcode.toList
  file := "cli-console-sub-thread".toList
  main := console
  compile := fun _ => (⟨sh.init, []⟩, [])
  sub := ⟨Thread.act sh, Thread.receive sh⟩
  report := sh.report

/-! ### What is to come of the commands -/

/-- The call of the `k`-th callback. -/
def answer (k : ℕ) : Outcome → Option (ℕ × Option JsonText.Value)
  | .returns => some (k, none)
  | .throws stack => some (k, stack.map Tree.value)
  | .throwsNothing => none

/-- The calls of the callbacks from the `k`-th on. -/
def answersFrom : ℕ → List Outcome → List (ℕ × Option JsonText.Value)
  | _, [] => []
  | k, o :: os => (answer k o).toList ++ answersFrom (k + 1) os

/-- The evaluations on the thread. -/
def doneOf (S : Boot.Sub (Thread ε)) : List (Option JsonText.Value × Outcome) :=
  match S.phase with
  | .running T => T.done
  | _ => []

/-- What the commands send by themselves is no reply. -/
structure Shell.Modest (sh : Shell ε κ) : Prop where
  eval : ∀ e code, ∀ m ∈ (sh.eval e code).2.1, ∀ k, m.name ≠ retName k
  act : ∀ e i e' out, sh.act e i = some (e', out) → ∀ m ∈ out, ∀ k, m.name ≠ retName k
  report : ∀ k, sh.report.name ≠ retName k

/-! ### Names -/

theorem retName_injective : Function.Injective retName := by
  intro i j same
  rw [retName, retName, List.append_cancel_left_eq, Js.toList_toString, Js.toList_toString] at same
  rw [← Nat.ofDigitChars_ten_toDigits (n := i), same, Nat.ofDigitChars_ten_toDigits]

/-- A reply name begins with 'ret_'. -/
theorem retName_ne {name : List Char} (other : ¬ "ret_".toList <+: name) (k : ℕ) :
    name ≠ retName k := by
  rintro rfl
  exact other (List.prefix_append _ _)

/-- The reply names are the only ones that the console listens to. -/
theorem find_reply {waiting : List ℕ} {k : ℕ} (listens : k ∈ waiting) (data : Option Tree) :
    (waiting.find? fun j => isNamed (view ⟨retName k, data, none⟩) (retName j)) = some k := by
  have only : ∀ j, isNamed (view ⟨retName k, data, none⟩) (retName j) = decide (k = j) := by
    intro j
    rw [Bool.eq_iff_iff, isNamed_view, decide_eq_true_iff]
    exact retName_injective.eq_iff
  simp only [only]
  induction waiting with
  | nil => cases listens
  | cons j waiting ih =>
      by_cases here : k = j
      · refine (List.find?_cons_of_pos ?_).trans (congrArg some here.symm)
        exact decide_eq_true here
      · refine (List.find?_cons_of_neg ?_).trans
          (ih ((List.mem_cons.mp listens).resolve_left here))
        simpa using here

theorem find_other {waiting : List ℕ} {r : Option Parsed}
    (other : ∀ k, isNamed r (retName k) = false) :
    (waiting.find? fun k => isNamed r (retName k)) = none := by
  rw [List.find?_eq_none]
  intro k _
  rw [other k]
  exact Bool.false_ne_true

/-! ### The replies on their way -/

/-- The calls of callbacks that the messages will bring about. -/
inductive Replies : List (Option Parsed) → List (ℕ × Option JsonText.Value) → Prop where
  | nil : Replies [] []
  | reply {rs : List (Option Parsed)} {as : List (ℕ × Option JsonText.Value)} (k : ℕ)
      (data : Option Tree) (rest : Replies rs as) :
      Replies (view ⟨retName k, data, none⟩ :: rs) ((k, data.map Tree.value) :: as)
  | other {r : Option Parsed} {rs : List (Option Parsed)}
      {as : List (ℕ × Option JsonText.Value)} (silent : ∀ k, isNamed r (retName k) = false)
      (rest : Replies rs as) : Replies (r :: rs) as

theorem Replies.append {rs rs' : List (Option Parsed)}
    {as as' : List (ℕ × Option JsonText.Value)} (h : Replies rs as) (h' : Replies rs' as') :
    Replies (rs ++ rs') (as ++ as') := by
  induction h with
  | nil => exact h'
  | reply k data _ ih => exact .reply k data ih
  | other silent _ ih => exact .other silent ih

/-- Messages without a reply name. -/
theorem replies_others {out : List Envelope} (others : ∀ m ∈ out, ∀ k, m.name ≠ retName k) :
    Replies (out.map view) [] := by
  induction out with
  | nil => exact .nil
  | cons m out ih =>
      obtain ⟨here, there⟩ := List.forall_mem_cons.mp others
      exact .other (fun k => isNamed_view_of_ne (here k)) (ih there)

/-- What `oncode` sends last. -/
theorem replies_answer {sh : Shell ε κ} (modest : sh.Modest) (k : ℕ) (o : Outcome) :
    Replies [view (sh.answer (retName k) o)] (answer k o).toList := by
  cases o with
  | returns => exact .reply k none .nil
  | throws stack => exact .reply k stack .nil
  | throwsNothing => exact .other (fun j => isNamed_view_of_ne (modest.report j)) .nil

theorem answersFrom_append (k : ℕ) (os : List Outcome) (o : Outcome) :
    answersFrom k (os ++ [o]) = answersFrom k os ++ (answer (k + os.length) o).toList := by
  induction os generalizing k with
  | nil => simp [answersFrom]
  | cons o' os ih =>
      rw [List.cons_append, answersFrom, answersFrom, ih, List.append_assoc, List.length_cons,
        Nat.add_right_comm]
      rfl

/-- The callbacks are those of the commands that have been evaluated. -/
theorem of_mem_answersFrom {k j : ℕ} {d : Option JsonText.Value} {os : List Outcome}
    (h : (j, d) ∈ answersFrom k os) : k ≤ j ∧ j < k + os.length := by
  induction os generalizing k with
  | nil => cases h
  | cons o os ih =>
      rw [List.length_cons]
      rcases List.mem_append.mp h with first | later
      · have same : j = k := by
          cases o with
          | returns | throws stack =>
              exact congrArg Prod.fst (List.mem_singleton.mp first)
          | throwsNothing => cases first
        omega
      · have := ih later
        omega

/-- No callback is called twice. -/
theorem nodup_answersFrom (k : ℕ) (os : List Outcome) :
    ((answersFrom k os).map Prod.fst).Nodup := by
  induction os generalizing k with
  | nil => exact List.nodup_nil
  | cons o os ih =>
      have fresh : k ∉ (answersFrom (k + 1) os).map Prod.fst := by
        intro again
        obtain ⟨⟨j, d⟩, later, rfl⟩ := List.mem_map.mp again
        exact absurd (of_mem_answersFrom later).1 (Nat.not_succ_le_self _)
      cases o with
      | returns | throws stack => exact List.nodup_cons.mpr ⟨fresh, ih (k + 1)⟩
      | throwsNothing => exact ih (k + 1)

/-! ### Runs -/

/-- The messages of the commands. -/
def codeMessages (commands : List (List Char)) : List Envelope :=
  commands.mapIdx fun i code => codeMessage (i + 1) code

/-- `d.code`, when it has arrived. -/
def codeValue (code : List Char) : Option JsonText.Value := some (.str (units code))

structure Inv (sh : Shell ε κ) (M : Main Console) (S : Boot.Sub (Thread ε))
    (toSub toMain : List (Option Parsed)) : Prop where
  boot : Boot.Inv (setup sh) M S toSub toMain
  uncleared : M.cleared = false
  called : M.called = codeMessages M.user.commands
  inStep : (doneOf S).length = S.dispatched.length
  codes : (doneOf S).map Prod.fst <+: M.user.commands.map codeValue
  answers : ∃ as, Replies toMain as ∧
    M.user.answers ++ as = answersFrom 1 ((doneOf S).map Prod.snd)
  /-- The callbacks that have not been called are registered. -/
  listens : ∀ k, 1 ≤ k → k ≤ M.user.commands.length → k ∉ M.user.answers.map Prod.fst →
    k ∈ M.user.waiting

variable {sh : Shell ε κ} {M N : Main Console} {S : Boot.Sub (Thread ε)} {out : List Envelope}
  {toSub toMain : List (Option Parsed)} {r : Option Parsed}

/-- A command is entered. -/
theorem Inv.myEval (h : Inv sh M S toSub toMain) {code : List Char}
    (hs : Main.act (setup sh) M code = some (N, out)) :
    Inv sh N S (toSub ++ out.map view) toMain := by
  have turned : M.turn ({ M.user with
      commands := M.user.commands ++ [code]
      waiting := M.user.waiting ++ [M.user.commands.length + 1] },
      [.send (codeMessage (M.user.commands.length + 1) code)]) = (N, out) := Option.some.inj hs
  have e := executed_turn M ({ M.user with
    commands := M.user.commands ++ [code]
    waiting := M.user.waiting ++ [M.user.commands.length + 1] },
    [.send (codeMessage (M.user.commands.length + 1) code)])
  rw [turned] at e
  -- Whether the message is sent or kept back.
  have now : N.user = { M.user with
      commands := M.user.commands ++ [code]
      waiting := M.user.waiting ++ [M.user.commands.length + 1] } ∧
      N.called = M.called ++ [codeMessage (M.user.commands.length + 1) code] ∧
      N.cleared = M.cleared := by
    have state := congrArg Prod.fst turned
    dsimp only at state
    rw [← state, Main.turn, Main.exec]
    split
    · exact ⟨rfl, rfl, rfl⟩
    · exact ⟨rfl, rfl, rfl⟩
  obtain ⟨user, called, cleared⟩ := now
  refine ⟨h.boot.executed e, cleared.trans h.uncleared, ?_, h.inStep, ?_, ?_, ?_⟩
  · rw [called, h.called, user, codeMessages, codeMessages, List.mapIdx_concat]
  · rw [user, List.map_append]
    exact h.codes.trans (List.prefix_append _ _)
  · rw [user]
    exact h.answers
  · intro k one le fresh
    rw [user] at le fresh ⊢
    rw [List.length_append, List.length_singleton] at le
    by_cases last : k = M.user.commands.length + 1
    · exact List.mem_append_right _ (List.mem_singleton.mpr last)
    · exact List.mem_append_left _ (h.listens k one (by omega) fresh)

theorem listeners_keep (P : Setup Console (List Char) (Thread ε) κ) (M : Main Console)
    (r : Option Parsed) : (M.listeners P r).1.called = M.called ∧
      (M.listeners P r).1.cleared = M.cleared := by
  unfold Main.listeners
  split
  · exact ⟨rfl, rfl⟩
  · split
    · exact ⟨rfl, rfl⟩
    · exact ⟨rfl, rfl⟩

/-- The console sends nothing when it receives. -/
theorem receive_silent (c : Console) (r : Option Parsed) : (c.receive r).2 = [] := by
  unfold Console.receive
  split
  · rfl
  · rfl

theorem passive (sh : Shell ε κ) : Passive (setup sh) := receive_silent

/-- `_recv` on the main thread. -/
theorem receive_eq (hs : Main.receive (setup sh) M r = (N, out)) :
    N.user = (M.user.receive r).1 ∧ N.called = M.called ∧ N.cleared = M.cleared := by
  have answered : N = { (M.listeners (setup sh) r).1 with user := (M.user.receive r).1 } := by
    have state := congrArg Prod.fst hs
    dsimp only [Main.receive] at state
    rw [← state]
    change (Main.exec _ (M.user.receive r).2).1 = _
    rw [receive_silent]
    rfl
  obtain ⟨called, cleared⟩ := listeners_keep (setup sh) M r
  rw [answered]
  exact ⟨rfl, called, cleared⟩

/-- A message arrives at the console. -/
theorem Inv.received (h : Inv sh M S toSub (r :: toMain))
    (hs : Main.receive (setup sh) M r = (N, out)) : Inv sh N S (toSub ++ out.map view) toMain := by
  obtain ⟨user, called, cleared⟩ := receive_eq hs
  have boot : Boot.Inv (setup sh) N S (toSub ++ out.map view) toMain := by
    have turned := h.boot.listeners.executed
      (executed_turn (M.listeners (setup sh) r).1 (M.user.receive r))
    obtain ⟨now, sends⟩ := Prod.mk.inj hs
    rw [← now, ← sends, List.map_append, ← List.append_assoc]
    exact turned
  have atMost : (doneOf S).length ≤ M.user.commands.length := by
    have le := h.codes.length_le
    rwa [List.length_map, List.length_map] at le
  obtain ⟨as, replies, whole⟩ := h.answers
  cases replies with
  | reply k data rest =>
      rename_i as
      have drawn : (k, data.map Tree.value) ∈ answersFrom 1 ((doneOf S).map Prod.snd) := by
        rw [← whole]
        exact List.mem_append_right _ List.mem_cons_self
      have range := of_mem_answersFrom drawn
      rw [List.length_map] at range
      have fresh : k ∉ M.user.answers.map Prod.fst := by
        have once := nodup_answersFrom 1 ((doneOf S).map Prod.snd)
        rw [← whole, List.map_append, List.map_cons] at once
        exact fun again => (List.nodup_append.mp once).2.2 k again k List.mem_cons_self rfl
      have listening := h.listens k range.1 (by omega) fresh
      have called_ : (M.user.receive (view ⟨retName k, data, none⟩)).1 = { M.user with
          waiting := M.user.waiting.filter (· != k)
          answers := M.user.answers ++ [(k, data.map Tree.value)] } := by
        rw [Console.receive, find_reply listening]
        rfl
      rw [called_] at user
      refine ⟨boot, cleared.trans h.uncleared, ?_, h.inStep, ?_, ⟨as, rest, ?_⟩, ?_⟩
      · rw [called, user]
        exact h.called
      · rw [user]
        exact h.codes
      · rw [user, ← whole, List.append_assoc, List.singleton_append]
      · intro j one le other
        rw [user] at le other ⊢
        rw [List.map_append, List.mem_append, not_or] at other
        refine List.mem_filter.mpr ⟨h.listens j one le other.1, ?_⟩
        have ne : j ≠ k := by simpa using other.2
        simpa using ne
  | other silent rest =>
      have same : (M.user.receive r).1 = M.user := by
        rw [Console.receive, find_other silent]
      rw [same] at user
      refine ⟨boot, cleared.trans h.uncleared, ?_, h.inStep, ?_, ⟨as, rest, ?_⟩, ?_⟩
      · rw [called, user]
        exact h.called
      · rw [user]
        exact h.codes
      · rw [user, whole]
      · rw [user]
        exact h.listens

/-- The thread starts, or something left behind by a command acts. -/
theorem Inv.act (modest : sh.Modest) (h : Inv sh M S toSub toMain) {S' : Boot.Sub (Thread ε)}
    {k : Option κ} (hs : S.act (setup sh) k = some (S', out)) :
    Inv sh M S' toSub (toMain ++ out.map view) := by
  have boot := h.boot.act hs
  have others : (∀ m ∈ out, ∀ k, m.name ≠ retName k) ∧ doneOf S' = doneOf S ∧
      S'.dispatched = S.dispatched := by
    cases k with
    | none =>
        simp only [Boot.Sub.act] at hs
        split at hs
        · next starting =>
            obtain ⟨rfl, rfl⟩ := Prod.mk.inj (Option.some.inj hs)
            refine ⟨fun m hm => ?_, ?_, rfl⟩
            · rw [List.mem_singleton.mp hm]
              exact retName_ne (by decide)
            · rw [doneOf, doneOf, starting]
        · cases hs
    | some k =>
        simp only [Boot.Sub.act] at hs
        split at hs
        · next T running =>
            obtain ⟨⟨T', out'⟩, acted, same⟩ := Option.map_eq_some_iff.mp hs
            obtain ⟨rfl, rfl⟩ := Prod.mk.inj same
            obtain ⟨⟨env, sends⟩, did, pair⟩ := Option.map_eq_some_iff.mp acted
            obtain ⟨rfl, rfl⟩ := Prod.mk.inj pair
            refine ⟨modest.act _ _ _ _ did, ?_, rfl⟩
            rw [doneOf, doneOf, running]
        · cases hs
  obtain ⟨silent, same, dispatched⟩ := others
  obtain ⟨as, replies, whole⟩ := h.answers
  refine ⟨boot, h.uncleared, h.called, ?_, ?_,
    ⟨as ++ [], replies.append (replies_others silent), ?_⟩, h.listens⟩
  · rw [same, dispatched]
    exact h.inStep
  · rw [same]
    exact h.codes
  · rw [same, List.append_nil, whole]

/-- The next of the elements belongs to the prefix. -/
theorem prefix_snoc {α : Type} {l L : List α} {x : α} (h : l <+: L) (next : L[l.length]? = some x) :
    l ++ [x] <+: L := by
  obtain ⟨t, rfl⟩ := h
  rw [List.getElem?_append_right (Nat.le_refl _), Nat.sub_self] at next
  cases t with
  | nil => cases next
  | cons y t =>
      obtain rfl := Option.some.inj next
      exact ⟨t, by rw [List.append_assoc, List.singleton_append]⟩

/-- The message of a command is dispatched to `oncode`. -/
theorem receive_codeMessage (modest : sh.Modest) (T : Thread ε) (k : ℕ) (code : List Char) :
    ∃ env sends o, T.receive sh (view (codeMessage k code)) =
        (⟨env, T.done ++ [(codeValue code, o)]⟩, sends ++ [sh.answer (retName k) o]) ∧
      ∀ m ∈ sends, ∀ k, m.name ≠ retName k := by
  have named : isNamed (view (codeMessage k code)) codeName = true := (isNamed_view _ _).mpr rfl
  have back : chars (units (retName k)) = retName k := chars_units _
  refine ⟨(sh.eval T.env (codeValue code)).1, (sh.eval T.env (codeValue code)).2.1,
    (sh.eval T.env (codeValue code)).2.2, ?_, modest.eval _ _⟩
  rw [Thread.receive, if_pos named, ← back]
  rfl

/-- A message arrives at the thread. -/
theorem Inv.dispatch (modest : sh.Modest) (h : Inv sh M S (r :: toSub) toMain) :
    Inv sh M (S.receive (setup sh) r).1 toSub
      (toMain ++ (S.receive (setup sh) r).2.map view) := by
  have boot := h.boot.receive
  obtain ⟨as, replies, whole⟩ := h.answers
  generalize hwaiting : r :: toSub = waiting at h
  cases h.boot.stage with
  | starting | announced | lost | held => cases hwaiting
  | ordered phase evaluated running ready =>
      -- The code is run: `oncode` is registered, and 'code_running' goes back.
      obtain ⟨rfl, rfl⟩ := List.cons.inj hwaiting
      have ran : S.receive (setup sh) (view (setup sh).evalCode) =
          ({ S with
            phase := .running ⟨sh.init, []⟩
            evaluated := S.evaluated ++ [(setup sh).data] }, [signal codeRunning]) := by
        have named := (isNamed_view (setup sh).evalCode evalCode).mpr rfl
        simp only [Boot.Sub.receive, phase, named, if_true]
        rfl
      rw [ran] at boot ⊢
      have before : doneOf S = [] := by rw [doneOf, phase]
      refine ⟨boot, h.uncleared, h.called, ?_, List.nil_prefix, ⟨as ++ [], ?_, ?_⟩, h.listens⟩
      · exact congrArg List.length (h.boot.silent running).symm
      · refine replies.append (replies_others fun m hm => ?_)
        rw [List.mem_singleton.mp hm]
        exact retName_ne (by decide)
      · rw [List.append_nil, whole, before]
        rfl
  | direct T phase evaluated running ready inOrder =>
      subst hwaiting
      have before : doneOf S = T.done := by rw [doneOf, phase]
      have inStep := h.inStep
      have codes := h.codes
      rw [before] at inStep codes whole
      -- Which command it is.
      obtain ⟨code, entered, rfl⟩ : ∃ code, M.user.commands[T.done.length]? = some code ∧
          r = view (codeMessage (T.done.length + 1) code) := by
        have here : (M.called.map view)[T.done.length]? = some r := by
          rw [← inOrder, inStep, List.getElem?_append_right (Nat.le_refl _), Nat.sub_self]
          rfl
        rw [h.called, codeMessages, List.getElem?_map, List.getElem?_mapIdx] at here
        obtain ⟨m, hm, rfl⟩ := Option.map_eq_some_iff.mp here
        obtain ⟨code, hcode, rfl⟩ := Option.map_eq_some_iff.mp hm
        exact ⟨code, hcode, rfl⟩
      obtain ⟨env, sends, o, turn, silent⟩ :=
        receive_codeMessage modest T (T.done.length + 1) code
      generalize codeMessage (T.done.length + 1) code = m at boot turn ⊢
      have answered : S.receive (setup sh) (view m) =
          ({ S with
            phase := .running ⟨env, T.done ++ [(codeValue code, o)]⟩
            dispatched := S.dispatched ++ [view m] },
          sends ++ [sh.answer (retName (T.done.length + 1)) o]) := by
        have dispatched : S.receive (setup sh) (view m) = ({ S with
            phase := .running (T.receive sh (view m)).1
            dispatched := S.dispatched ++ [view m] }, (T.receive sh (view m)).2) := by
          simp only [Boot.Sub.receive, phase]
          rfl
        rw [dispatched, turn]
      rw [answered] at boot ⊢
      have done : doneOf ({ S with
          phase := .running ⟨env, T.done ++ [(codeValue code, o)]⟩
          dispatched := S.dispatched ++ [view m] } : Boot.Sub (Thread ε)) =
        T.done ++ [(codeValue code, o)] := rfl
      refine ⟨boot, h.uncleared, h.called, ?_, ?_,
        ⟨as ++ ([] ++ (answer (T.done.length + 1) o).toList), ?_, ?_⟩, h.listens⟩
      · rw [done, List.length_append, List.length_append, inStep]
        rfl
      · rw [done, List.map_append]
        refine prefix_snoc codes ?_
        rw [List.length_map, List.getElem?_map, entered]
        rfl
      · rw [List.map_append]
        exact replies.append ((replies_others silent).append (replies_answer modest _ _))
      · rw [done, List.map_append, List.map_singleton, answersFrom_append, ← whole,
          List.nil_append, List.append_assoc, List.length_map, Nat.add_comm 1]

def Good (sh : Shell ε κ)
    (t : Parties.State (Part Console (Thread ε)) (Option Parsed)) : Prop :=
  Inv sh (t.part .main) (t.part .sub) (t.queue .sub) (t.queue .main)

theorem Good.step (modest : sh.Modest)
    {t u : Parties.State (Part Console (Thread ε)) (Option Parsed)} (h : Good sh t)
    {a : Parties.Action (Input (List Char) κ)}
    (hs : (Connection.network (party (setup sh)) json).step t a = some u) : Good sh u := by
  unfold Good at h ⊢
  rcases Connection.network_cases hs with ⟨side, i, out, -, acted, other, same, sent⟩ |
    ⟨side, m, rest, out, -, queued, received, other, popped, sent⟩
  · cases side with
    | main =>
        simp only [Steady.Side.peer] at other sent
        rw [other, same, sent]
        exact h.myEval acted
    | sub =>
        simp only [Steady.Side.peer] at other sent
        rw [other, same, sent]
        exact h.act modest acted
  · cases side with
    | main =>
        rw [queued] at h
        simp only [Steady.Side.peer] at other sent
        rw [other, popped, sent]
        exact h.received received
    | sub =>
        rw [queued] at h
        have dispatched := h.dispatch modest
        have both : (t.part .sub).receive (setup sh) m = (u.part .sub, out) := received
        rw [both] at dispatched
        simp only [Steady.Side.peer] at other sent
        rw [other, popped, sent]
        exact dispatched

/-- `cli.js` has been loaded. -/
def loaded (ε : Type) : Connection.State (Part Console (Thread ε)) Envelope (List UInt8) :=
  Connection.opened json (created ⟨[], [], []⟩) fun _ => []

theorem good_reached (modest : sh.Modest) {as : List (Connection.Action (Input (List Char) κ))}
    {s : Connection.State (Part Console (Thread ε)) Envelope (List UInt8)}
    (hs : run (Connection.step (party (setup sh)) json) (loaded ε) as = some s) :
    Good sh (Connection.abs json s) := by
  refine (Connection.reached _ _ hs).of_inductive (fun _ _ _ h hs => Good.step modest h hs) ?_
  refine ⟨inv_created _, rfl, rfl, rfl, List.nil_prefix, ⟨[], .nil, rfl⟩, fun k one none => ?_⟩
  exact absurd (Nat.le_trans one none) (Nat.not_succ_le_self 0)

/-- The commands are evaluated in order, and each callback has the outcome of its command. -/
structure InOrder (M : Main Console) (S : Boot.Sub (Thread ε)) : Prop where
  codes : (doneOf S).map Prod.fst <+: M.user.commands.map codeValue
  answers : M.user.answers <+: answersFrom 1 ((doneOf S).map Prod.snd)
  once : (M.user.answers.map Prod.fst).Nodup

/-- All commands have been evaluated, and all callbacks called that ever will be. -/
structure Answered (M : Main Console) (S : Boot.Sub (Thread ε)) : Prop where
  codes : (doneOf S).map Prod.fst = M.user.commands.map codeValue
  answers : M.user.answers = answersFrom 1 ((doneOf S).map Prod.snd)

theorem Inv.inOrder (h : Inv sh M S toSub toMain) : InOrder M S := by
  obtain ⟨as, -, whole⟩ := h.answers
  have answers : M.user.answers <+: answersFrom 1 ((doneOf S).map Prod.snd) := ⟨as, whole⟩
  exact ⟨h.codes, answers, (nodup_answersFrom 1 _).sublist (answers.sublist.map Prod.fst)⟩

theorem Inv.answered (h : Inv sh M S [] []) (started : S.phase ≠ .starting) : Answered M S := by
  have complete := h.boot.complete started h.uncleared
  have length : (doneOf S).length = M.user.commands.length := by
    rw [h.inStep, complete.all, h.called, List.length_map, codeMessages, List.length_mapIdx]
  obtain ⟨as, replies, whole⟩ := h.answers
  cases replies
  refine ⟨h.codes.eq_of_length ?_, (List.append_nil _).symm.trans whole⟩
  rw [List.length_map, List.length_map, length]

/-- **The console answers in order**: in every run the commands are evaluated in the order in
which they were entered, and the callbacks are called in that order, each once at most and with
the outcome of its own command, provided that no command sends a message under a reply's name,
touches the listener of 'code', waits, or calls a library function with a callback. -/
theorem repl_in_order (modest : sh.Modest)
    (as : List (Connection.Action (Input (List Char) κ))) :
    Always (Connection.step (party (setup sh)) json)
      (fun s => InOrder (s.part .main) (s.part .sub)) (loaded ε) as := by
  apply always_iff.mpr
  intro pre _ s hs
  exact (good_reached modest hs).inOrder

/-- Commands that do nothing. -/
def idleShell : Shell Unit Empty where
  init := ()
  eval := fun _ _ => ((), [], .returns)
  act := fun _ k => k.elim
  report := signal "error".toList

theorem modest_idleShell : idleShell.Modest where
  eval := fun _ _ _ none => absurd none List.not_mem_nil
  act := fun _ k => k.elim
  report := retName_ne (by decide)

theorem repl_in_order_example :
    Always (Connection.step (party (setup idleShell)) json)
      (fun s => InOrder (s.part .main) (s.part .sub)) (loaded Unit)
      [.act .sub none, .act .main "1".toList, .act .main "2".toList, .lock .sub] :=
  repl_in_order modest_idleShell _

end ThreadJs.Cli
