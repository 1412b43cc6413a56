import ThreadJs.Events.Throwing

/-!
Reports of failures that go back and forth.

`_recv` answers an exception with an 'error' message, and the other side receives that with
the same code. The main thread listens with an emitter of Node, which throws at an 'error'
without listeners, the other thread with the one of `events.js`. A callback ends in one of
the ways that `may` allows it, at each call anew. Whether the exchange comes to an end is
said by `reports_finite_iff`.
-/

namespace ThreadJs.Message.Exchange

open Events

inductive Party where
  | main
  | thread
  deriving DecidableEq

def Party.other : Party → Party
  | .main => .thread
  | .thread => .main

/-- What the side has of the two. -/
def Party.of {α : Type} (side : Party) (main thread : α) : α :=
  match side with
  | .main => main
  | .thread => thread

/-- A message, with the ways in which `JSON.parse` and its constructor can end. -/
structure Incoming where
  name : String
  builds : Outcome → Prop

/-- The message of the catch clause of `_recv`. -/
def report : Incoming := ⟨"error", (· = .returns)⟩

structure State (T Cb : Type) where
  main : Registry String Cb
  thread : T
  inFlight : Option (Party × Incoming)

variable {T T' Cb : Type} (may : Cb → Outcome → Prop)

/-! ### The emitter of Node -/

/-- The calls of an `emit`, with the listeners that it leaves; a once listener is removed
before it is called. -/
inductive NodeWalk : List (Entry Cb) → List (Entry Cb) → Outcome → Prop where
  | done : NodeWalk [] [] .returns
  | returns {e : Entry Cb} {es left : List (Entry Cb)} {o : Outcome} :
      may e.cb .returns → NodeWalk es left o →
      NodeWalk (e :: es) (if e.once then left else e :: left) o
  | throws {e : Entry Cb} {es : List (Entry Cb)} {o : Outcome} :
      may e.cb o → o ≠ .returns → NodeWalk (e :: es) (if e.once then es else e :: es) o

/-- `emit(name, data)`; an 'error' to which nothing listens is thrown. -/
def NodeEmits (r : Registry String Cb) (name : String) (r₁ : Registry String Cb)
    (o : Outcome) : Prop :=
  if name = "error" ∧ r name = [] then r₁ = r ∧ o = .throws
  else ∃ left, NodeWalk may (r name) left o ∧ r₁ = Function.update r name left

/-! ### The exchange -/

/-- What `_recv` sends. -/
def State.answer (s : State T Cb) (side : Party) (o : Outcome) : State T Cb :=
  { s with inFlight := if o = .throws then some (side.other, report) else none }

/-- One message is received; `emits` is the `emit` of the thread. -/
inductive Step (emits : T → String → T → Outcome → Prop) : State T Cb → State T Cb → Prop where
  | unbuilt {s : State T Cb} {side : Party} {m : Incoming} {o : Outcome} :
      s.inFlight = some (side, m) → m.builds o → o ≠ .returns → Step emits s (s.answer side o)
  | main {s : State T Cb} {m : Incoming} {r : Registry String Cb} {o : Outcome} :
      s.inFlight = some (.main, m) → m.builds .returns → NodeEmits may s.main m.name r o →
      Step emits s ({ s with main := r }.answer .main o)
  | thread {s : State T Cb} {m : Incoming} {t : T} {o : Outcome} :
      s.inFlight = some (.thread, m) → m.builds .returns → emits s.thread m.name t o →
      Step emits s ({ s with thread := t }.answer .thread o)

/-- A run from the state with so many reports. -/
inductive Reports (emits : T → String → T → Outcome → Prop) : State T Cb → ℕ → Prop where
  | none {s : State T Cb} : Reports emits s 0
  | more {s t : State T Cb} {n : ℕ} : Step may emits s t → t.inFlight.isSome → Reports emits t n →
      Reports emits s (n + 1)

/-- The exchange comes to an end. -/
def Finite (emits : T → String → T → Outcome → Prop) (s : State T Cb) : Prop :=
  ∃ bound, ∀ n, Reports may emits s n → n ≤ bound

/-- `emit` on the lists of a registry. -/
def ListEmits (r : Registry String Cb) (name : String) (r₁ : Registry String Cb)
    (o : Outcome) : Prop :=
  ∃ left, Passes may (r name) left o ∧ r₁ = Function.update r name left

/-! ### Listeners that keep refusing -/

/-- The callback ends in a way in which `_recv` goes on. -/
def Live (e : Entry Cb) : Prop := may e.cb .returns ∨ may e.cb .throws

/-- A listener that stays can throw at every 'error', as nothing before it stops that. -/
def Stuck : List (Entry Cb) → Prop
  | [] => False
  | e :: es =>
      if e.once then Live may e ∧ Stuck es
      else may e.cb .throws ∨ may e.cb .returns ∧ Stuck es

/-- There are once listeners only, and the last one can throw. -/
def RunsOut : List (Entry Cb) → Prop
  | [] => True
  | e :: es => e.once = true ∧ (may e.cb .throws ∨ may e.cb .returns ∧ es ≠ []) ∧ RunsOut es

/-- The main thread can refuse every report. -/
def MainEndless (es : List (Entry Cb)) : Prop := Stuck may es ∨ RunsOut may es

/-- The thread can refuse every report: behind the once listeners that lead the list there is
one that can throw. -/
def ThreadEndless : List (Entry Cb) → Prop
  | [] => False
  | e :: es => if e.once then Live may e ∧ ThreadEndless es else Ends may (e :: es) .throws

/-- The first message can be refused, by its constructor or a listener. -/
def Refused (r : Registry String Cb) (m : Incoming) : Prop :=
  m.builds .throws ∨ m.builds .returns ∧ (m.name = "error" ∨ Ends may (r m.name) .throws)

/-! ### What one refusal does to the listeners -/

section Lists

variable {may} {es left : List (Entry Cb)} {o : Outcome}

theorem Stuck.refuses (stuck : Stuck may es) :
    ∃ left, NodeWalk may es left .throws ∧ Stuck may left := by
  induction es with
  | nil => cases stuck
  | cons e es ih =>
      rw [Stuck] at stuck
      cases once : e.once with
      | true =>
          rw [if_pos once] at stuck
          obtain ⟨live, later⟩ := stuck
          rcases live with mayReturn | mayThrow
          · obtain ⟨left, walk, again⟩ := ih later
            have returns := NodeWalk.returns mayReturn walk
            rw [if_pos once] at returns
            exact ⟨left, returns, again⟩
          · have throws : NodeWalk may (e :: es) _ .throws := .throws mayThrow (by decide)
            rw [if_pos once] at throws
            exact ⟨es, throws, later⟩
      | false =>
          rw [if_neg (by simp [once])] at stuck
          rcases stuck with mayThrow | ⟨mayReturn, later⟩
          · have throws : NodeWalk may (e :: es) _ .throws := .throws mayThrow (by decide)
            rw [if_neg (by simp [once])] at throws
            refine ⟨e :: es, throws, ?_⟩
            rw [Stuck, if_neg (by simp [once])]
            exact .inl mayThrow
          · obtain ⟨left, walk, again⟩ := ih later
            have returns := NodeWalk.returns mayReturn walk
            rw [if_neg (by simp [once])] at returns
            refine ⟨e :: left, returns, ?_⟩
            rw [Stuck, if_neg (by simp [once])]
            exact .inr ⟨mayReturn, again⟩

theorem RunsOut.refuses (runsOut : RunsOut may es) (nonempty : es ≠ []) :
    ∃ left, NodeWalk may es left .throws ∧ RunsOut may left := by
  induction es with
  | nil => exact absurd rfl nonempty
  | cons e es ih =>
      obtain ⟨once, ways, later⟩ := runsOut
      rcases ways with mayThrow | ⟨mayReturn, more⟩
      · have throws : NodeWalk may (e :: es) _ .throws := .throws mayThrow (by decide)
        rw [if_pos once] at throws
        exact ⟨es, throws, later⟩
      · obtain ⟨left, walk, again⟩ := ih later more
        have returns := NodeWalk.returns mayReturn walk
        rw [if_pos once] at returns
        exact ⟨left, returns, again⟩

/-- A refusal shortens the list, unless it has one that can always refuse; and what can be
refused for ever afterwards could be before. -/
theorem NodeWalk.refused (walk : NodeWalk may es left o) (refused : o = .throws) :
    Stuck may es ∨ left.length < es.length ∧ (Stuck may left → Stuck may es) ∧
      (RunsOut may left → RunsOut may es) := by
  induction walk with
  | done => cases refused
  | @returns e es left o mayReturn walk ih =>
      have stuck : Stuck may es → Stuck may (e :: es) := by
        intro later
        rw [Stuck]
        split
        · exact ⟨.inl mayReturn, later⟩
        · exact .inr ⟨mayReturn, later⟩
      rcases ih refused with later | ⟨shorter, stuck', runsOut'⟩
      · exact .inl (stuck later)
      · cases once : e.once with
        | true =>
            rw [if_pos rfl]
            refine .inr ⟨Nat.lt_succ_of_lt shorter, fun h => stuck (stuck' h), fun h => ?_⟩
            refine ⟨once, .inr ⟨mayReturn, ?_⟩, runsOut' h⟩
            rintro rfl
            cases shorter
        | false =>
            rw [if_neg (by simp)]
            refine .inr ⟨Nat.succ_lt_succ shorter, fun h => ?_, fun h => ?_⟩
            · rw [Stuck, if_neg (by simp [once])] at h ⊢
              exact h.imp_right fun h => ⟨h.1, stuck' h.2⟩
            · have := h.1
              rw [once] at this
              cases this
  | @throws e es o mayThrow thrown =>
      subst refused
      cases once : e.once with
      | true =>
          rw [if_pos rfl]
          refine .inr ⟨Nat.lt_succ_self _, fun h => ?_, fun h => ⟨once, .inl mayThrow, h⟩⟩
          rw [Stuck, if_pos once]
          exact ⟨.inr mayThrow, h⟩
      | false =>
          apply Or.inl
          rw [Stuck, if_neg (by simp [once])]
          exact .inl mayThrow

theorem NodeWalk.length_le (walk : NodeWalk may es left o) : left.length ≤ es.length := by
  induction walk with
  | done => exact Nat.le_refl _
  | returns _ _ ih =>
      split
      · exact Nat.le_succ_of_le ih
      · exact Nat.succ_le_succ ih
  | throws =>
      split
      · exact Nat.le_succ _
      · exact Nat.le_refl _

theorem nodeWalk_of_ends (ends : Ends may es o) : ∃ left, NodeWalk may es left o := by
  induction ends with
  | done => exact ⟨[], .done⟩
  | returns mayReturn _ ih =>
      obtain ⟨left, walk⟩ := ih
      exact ⟨_, .returns mayReturn walk⟩
  | throws mayThrow thrown => exact ⟨_, .throws mayThrow thrown⟩

theorem NodeWalk.ends (walk : NodeWalk may es left o) : Ends may es o := by
  induction walk with
  | done => exact .done
  | returns mayReturn _ ih => exact .returns mayReturn ih
  | throws mayThrow thrown => exact .throws mayThrow thrown

theorem ThreadEndless.refuses (endless : ThreadEndless may es) :
    ∃ left, Passes may es left .throws ∧ ThreadEndless may left := by
  induction es with
  | nil => cases endless
  | cons e es ih =>
      have whole := endless
      rw [ThreadEndless] at endless
      cases once : e.once with
      | true =>
          rw [if_pos once] at endless
          obtain ⟨live, later⟩ := endless
          rcases live with mayReturn | mayThrow
          · obtain ⟨left, passes, again⟩ := ih later
            exact ⟨left, .returns once mayReturn passes, again⟩
          · exact ⟨es, .throws once mayThrow (by decide), later⟩
      | false =>
          rw [if_neg (by simp [once])] at endless
          exact ⟨e :: es, .stays once endless, whole⟩

theorem passes_refused (passes : Passes may es left o) (refused : o = .throws) :
    ThreadEndless may es ∨
      left.length < es.length ∧ (ThreadEndless may left → ThreadEndless may es) := by
  induction passes with
  | done => cases refused
  | @returns e es left o once mayReturn _ ih =>
      have onwards : ThreadEndless may es → ThreadEndless may (e :: es) := by
        intro later
        rw [ThreadEndless, if_pos once]
        exact ⟨.inl mayReturn, later⟩
      rcases ih refused with later | ⟨shorter, before⟩
      · exact .inl (onwards later)
      · exact .inr ⟨Nat.lt_succ_of_lt shorter, fun h => onwards (before h)⟩
  | @throws e es o once mayThrow thrown =>
      subst refused
      refine .inr ⟨Nat.lt_succ_self _, fun h => ?_⟩
      rw [ThreadEndless, if_pos once]
      exact ⟨.inr mayThrow, h⟩
  | @stays e es o once ends =>
      subst refused
      apply Or.inl
      rw [ThreadEndless, if_neg (by simp [once])]
      exact ends

end Lists

/-! ### Runs -/

section Runs

variable {may} {emits : T → String → T → Outcome → Prop}

theorem answer_isSome {s : State T Cb} {side : Party} {o : Outcome}
    (again : (s.answer side o).inFlight.isSome) : o = .throws := by
  by_contra other
  rw [State.answer, if_neg other] at again
  cases again

/-- The three ways in which a message is refused. -/
theorem Step.refused {s t : State T Cb} {side : Party} {m : Incoming} (step : Step may emits s t)
    (again : t.inFlight.isSome) (inFlight : s.inFlight = some (side, m)) :
    t.inFlight = some (side.other, report) ∧
      (m.builds .throws ∧ t.main = s.main ∧ t.thread = s.thread ∨
        side = .main ∧ m.builds .returns ∧ NodeEmits may s.main m.name t.main .throws ∧
          t.thread = s.thread ∨
        side = .thread ∧ m.builds .returns ∧ emits s.thread m.name t.thread .throws ∧
          t.main = s.main) := by
  cases step with
  | unbuilt flight builds thrown =>
      obtain ⟨rfl, rfl⟩ := Prod.mk.inj (Option.some.inj (inFlight.symm.trans flight))
      obtain rfl := answer_isSome again
      exact ⟨rfl, .inl ⟨builds, rfl, rfl⟩⟩
  | main flight builds emitted =>
      obtain ⟨rfl, rfl⟩ := Prod.mk.inj (Option.some.inj (inFlight.symm.trans flight))
      obtain rfl := answer_isSome again
      exact ⟨rfl, .inr (.inl ⟨rfl, builds, emitted, rfl⟩)⟩
  | thread flight builds emitted =>
      obtain ⟨rfl, rfl⟩ := Prod.mk.inj (Option.some.inj (inFlight.symm.trans flight))
      obtain rfl := answer_isSome again
      exact ⟨rfl, .inr (.inr ⟨rfl, builds, emitted, rfl⟩)⟩

/-- Emitters that do the same make the same exchanges. -/
theorem Reports.simulates {emits' : T' → String → T' → Outcome → Prop} {R : T → T' → Prop}
    (keep : ∀ t t' name u o, R t t' → emits t name u o → ∃ u', emits' t' name u' o ∧ R u u')
    {s : State T Cb} {n : ℕ} (reports : Reports may emits s n) {t' : T'} (related : R s.thread t') :
    Reports may emits' ⟨s.main, t', s.inFlight⟩ n := by
  induction reports generalizing t' with
  | none => exact .none
  | more step again rest ih =>
      cases step with
      | unbuilt flight builds thrown =>
          exact .more (.unbuilt flight builds thrown) again (ih related)
      | main flight builds emitted =>
          exact .more (.main flight builds emitted) again (ih related)
      | thread flight builds emitted =>
          obtain ⟨u', emitted', related'⟩ := keep _ _ _ _ _ related emitted
          exact .more (.thread flight builds emitted') again (ih related')

theorem Finite.simulates {emits' : T' → String → T' → Outcome → Prop} {R : T → T' → Prop}
    (keep : ∀ t t' name u o, R t t' → emits t name u o → ∃ u', emits' t' name u' o ∧ R u u')
    {main : Registry String Cb} {t : T} {t' : T'} {inFlight : Option (Party × Incoming)}
    (finite : Finite may emits' ⟨main, t', inFlight⟩) (related : R t t') :
    Finite may emits ⟨main, t, inFlight⟩ := by
  obtain ⟨bound, le⟩ := finite
  exact ⟨bound, fun n reports => le n (reports.simulates keep related)⟩

/-- The exchange of an emitter is the one of its lists. -/
theorem finite_iff_lists {E : EventEmitter String Cb} {r : Registry String Cb} (holds : Holds E r)
    (main : Registry String Cb) (inFlight : Option (Party × Incoming)) :
    Finite may (Emits may) ⟨main, E, inFlight⟩ ↔
      Finite may (ListEmits may) ⟨main, r, inFlight⟩ := by
  constructor
  · intro finite
    refine Finite.simulates (R := fun r E => Holds E r) ?_ finite holds
    rintro r E name r₁ o holds ⟨left, passes, rfl⟩
    exact passes.emits holds
  · intro finite
    refine Finite.simulates (R := Holds) ?_ finite holds
    intro E r name E' o holds emitted
    obtain ⟨left, passes, holds'⟩ := emitted.passes holds
    exact ⟨_, ⟨left, passes, rfl⟩, holds'⟩

end Runs

section Lists

variable {may} {r r₁ : Registry String Cb} {name : String} {s t : State (Registry String Cb) Cb}
  {side : Party} {m : Incoming} {n : ℕ}

theorem MainEndless.refuses (endless : MainEndless may (r "error")) :
    ∃ r₁, NodeEmits may r "error" r₁ .throws ∧ MainEndless may (r₁ "error") := by
  by_cases empty : r "error" = []
  · refine ⟨r, ?_, endless⟩
    rw [NodeEmits, if_pos ⟨rfl, empty⟩]
    exact ⟨rfl, rfl⟩
  · obtain ⟨left, walk, again⟩ :
        ∃ left, NodeWalk may (r "error") left .throws ∧ MainEndless may left := by
      rcases endless with stuck | runsOut
      · obtain ⟨left, walk, again⟩ := stuck.refuses
        exact ⟨left, walk, .inl again⟩
      · obtain ⟨left, walk, again⟩ := runsOut.refuses empty
        exact ⟨left, walk, .inr again⟩
    refine ⟨Function.update r "error" left, ?_, ?_⟩
    · rw [NodeEmits, if_neg fun both => empty both.2]
      exact ⟨left, walk, rfl⟩
    · rw [Function.update_self]
      exact again

theorem NodeEmits.refused (emitted : NodeEmits may r name r₁ .throws) :
    (MainEndless may (r₁ "error") → MainEndless may (r "error")) ∧
      (r₁ "error").length ≤ (r "error").length := by
  rw [NodeEmits] at emitted
  split at emitted
  · obtain ⟨rfl, -⟩ := emitted
    exact ⟨id, Nat.le_refl _⟩
  · obtain ⟨left, walk, rfl⟩ := emitted
    by_cases same : "error" = name
    · subst same
      rw [Function.update_self]
      refine ⟨fun endless => ?_, walk.length_le⟩
      rcases walk.refused rfl with stuck | ⟨-, stuck, runsOut⟩
      · exact .inl stuck
      · exact endless.imp stuck runsOut
    · rw [Function.update_of_ne same]
      exact ⟨id, Nat.le_refl _⟩

/-- Where the main thread cannot refuse for ever, each refusal costs it a listener. -/
theorem NodeEmits.shorter (emitted : NodeEmits may r "error" r₁ .throws)
    (notEndless : ¬ MainEndless may (r "error")) : (r₁ "error").length < (r "error").length := by
  have nonempty : r "error" ≠ [] := by
    intro empty
    rw [empty] at notEndless
    exact notEndless (.inr trivial)
  rw [NodeEmits, if_neg fun both => nonempty both.2] at emitted
  obtain ⟨left, walk, rfl⟩ := emitted
  rw [Function.update_self]
  rcases walk.refused rfl with stuck | ⟨shorter, -⟩
  · exact absurd (.inl stuck) notEndless
  · exact shorter

theorem ThreadEndless.emits (endless : ThreadEndless may (r "error")) :
    ∃ r₁, ListEmits may r "error" r₁ .throws ∧ ThreadEndless may (r₁ "error") := by
  obtain ⟨left, passes, again⟩ := endless.refuses
  refine ⟨_, ⟨left, passes, rfl⟩, ?_⟩
  rw [Function.update_self]
  exact again

theorem ListEmits.refused (emitted : ListEmits may r name r₁ .throws) :
    (ThreadEndless may (r₁ "error") → ThreadEndless may (r "error")) ∧
      (r₁ "error").length ≤ (r "error").length := by
  obtain ⟨left, passes, rfl⟩ := emitted
  by_cases same : "error" = name
  · subst same
    rw [Function.update_self]
    refine ⟨fun endless => ?_, passes.length_le⟩
    rcases passes_refused passes rfl with here | ⟨-, before⟩
    · exact here
    · exact before endless
  · rw [Function.update_of_ne same]
    exact ⟨id, Nat.le_refl _⟩

theorem ListEmits.shorter (emitted : ListEmits may r "error" r₁ .throws)
    (notEndless : ¬ ThreadEndless may (r "error")) : (r₁ "error").length < (r "error").length := by
  obtain ⟨left, passes, rfl⟩ := emitted
  rw [Function.update_self]
  rcases passes_refused passes rfl with here | ⟨shorter, -⟩
  · exact absurd here notEndless
  · exact shorter

/-- A report finds two sides that can refuse it for ever. -/
theorem reports_endless (inFlight : s.inFlight = some (side, report))
    (main : MainEndless may (s.main "error")) (thread : ThreadEndless may (s.thread "error"))
    (n : ℕ) : Reports may (ListEmits may) s n := by
  induction n generalizing s side with
  | zero => exact .none
  | succ n ih =>
      cases side with
      | main =>
          obtain ⟨r₁, emitted, again⟩ := main.refuses
          exact .more (.main inFlight rfl emitted) rfl (ih rfl again thread)
      | thread =>
          obtain ⟨r₁, emitted, again⟩ := thread.emits
          exact .more (.thread inFlight rfl emitted) rfl (ih rfl main again)

/-- A report is refused by a listener. -/
theorem Step.report_refused (step : Step may (ListEmits may) s t) (again : t.inFlight.isSome)
    (inFlight : s.inFlight = some (side, report)) :
    t.inFlight = some (side.other, report) ∧
      (side = .main ∧ NodeEmits may s.main "error" t.main .throws ∧ t.thread = s.thread ∨
        side = .thread ∧ ListEmits may s.thread "error" t.thread .throws ∧ t.main = s.main) := by
  obtain ⟨next, ways⟩ := step.refused again inFlight
  refine ⟨next, ?_⟩
  rcases ways with ⟨builds, -⟩ | ⟨isMain, -, emitted, same⟩ | ⟨isThread, -, emitted, same⟩
  · cases builds
  · exact .inl ⟨isMain, emitted, same⟩
  · exact .inr ⟨isThread, emitted, same⟩

/-- As the sides take turns, there are at most twice as many reports as the listeners that
one of them can spend. -/
theorem reports_le (who : Party) (endless : State (Registry String Cb) Cb → Prop)
    (size : State (Registry String Cb) Cb → ℕ)
    (refuses : ∀ {s t side}, Step may (ListEmits may) s t → t.inFlight.isSome →
      s.inFlight = some (side, report) → ¬ endless s → t.inFlight = some (side.other, report) ∧
        ¬ endless t ∧ size t + (if side = who then 1 else 0) ≤ size s)
    (reports : Reports may (ListEmits may) s n) (inFlight : s.inFlight = some (side, report))
    (notEndless : ¬ endless s) : n ≤ 2 * size s + if side = who then 0 else 1 := by
  induction reports generalizing side with
  | none => exact Nat.zero_le _
  | more step again rest ih =>
      obtain ⟨next, patient, shorter⟩ := refuses step again inFlight notEndless
      have le := ih next patient
      cases side <;> cases who <;> simp [Party.other] at le shorter ⊢ <;> omega

theorem reports_le_of_main (reports : Reports may (ListEmits may) s n)
    (inFlight : s.inFlight = some (side, report))
    (notEndless : ¬ MainEndless may (s.main "error")) :
    n ≤ 2 * (s.main "error").length + if side = .main then 0 else 1 := by
  refine reports_le .main (fun s => MainEndless may (s.main "error"))
    (fun s => (s.main "error").length) ?_ reports inFlight notEndless
  intro s t side step again inFlight patient
  obtain ⟨next, ways⟩ := step.report_refused again inFlight
  rcases ways with ⟨rfl, emitted, -⟩ | ⟨rfl, -, same⟩
  · exact ⟨next, fun endless => patient (emitted.refused.1 endless), emitted.shorter patient⟩
  · exact ⟨next, same ▸ patient, same ▸ Nat.le_refl _⟩

theorem reports_le_of_thread (reports : Reports may (ListEmits may) s n)
    (inFlight : s.inFlight = some (side, report))
    (notEndless : ¬ ThreadEndless may (s.thread "error")) :
    n ≤ 2 * (s.thread "error").length + if side = .thread then 0 else 1 := by
  refine reports_le .thread (fun s => ThreadEndless may (s.thread "error"))
    (fun s => (s.thread "error").length) ?_ reports inFlight notEndless
  intro s t side step again inFlight patient
  obtain ⟨next, ways⟩ := step.report_refused again inFlight
  rcases ways with ⟨rfl, -, same⟩ | ⟨rfl, emitted, -⟩
  · exact ⟨next, same ▸ patient, same ▸ Nat.le_refl _⟩
  · exact ⟨next, fun endless => patient (emitted.refused.1 endless), emitted.shorter patient⟩

theorem Refused.step (refused : Refused may (side.of s.main s.thread) m)
    (inFlight : s.inFlight = some (side, m)) (main : MainEndless may (s.main "error"))
    (thread : ThreadEndless may (s.thread "error")) :
    ∃ t, Step may (ListEmits may) s t ∧ t.inFlight = some (side.other, report) ∧
      MainEndless may (t.main "error") ∧ ThreadEndless may (t.thread "error") := by
  rcases refused with builds | ⟨builds, refused⟩
  · exact ⟨_, .unbuilt inFlight builds (by decide), rfl, main, thread⟩
  · by_cases isError : m.name = "error"
    · cases side with
      | main =>
          obtain ⟨r₁, emitted, again⟩ := main.refuses
          exact ⟨_, .main inFlight builds (isError ▸ emitted), rfl, again, thread⟩
      | thread =>
          obtain ⟨r₁, emitted, again⟩ := thread.emits
          exact ⟨_, .thread inFlight builds (isError ▸ emitted), rfl, main, again⟩
    · have ends := refused.resolve_left isError
      cases side with
      | main =>
          obtain ⟨left, walk⟩ := nodeWalk_of_ends ends
          have emitted :
              NodeEmits may s.main m.name (Function.update s.main m.name left) .throws := by
            rw [NodeEmits, if_neg fun both => isError both.1]
            exact ⟨left, walk, rfl⟩
          refine ⟨_, .main inFlight builds emitted, rfl, ?_, thread⟩
          dsimp only [State.answer]
          rw [Function.update_of_ne (Ne.symm isError)]
          exact main
      | thread =>
          obtain ⟨left, passes⟩ := ends.passes
          refine ⟨_, .thread inFlight builds ⟨left, passes, rfl⟩, rfl, main, ?_⟩
          dsimp only [State.answer]
          rw [Function.update_of_ne (Ne.symm isError)]
          exact thread

/-- A step that refuses a message finds it refusable, and no side more patient than before. -/
theorem Step.first_refused (step : Step may (ListEmits may) s t) (again : t.inFlight.isSome)
    (inFlight : s.inFlight = some (side, m)) :
    t.inFlight = some (side.other, report) ∧ Refused may (side.of s.main s.thread) m ∧
      ((MainEndless may (t.main "error") → MainEndless may (s.main "error")) ∧
        (t.main "error").length ≤ (s.main "error").length) ∧
      ((ThreadEndless may (t.thread "error") → ThreadEndless may (s.thread "error")) ∧
        (t.thread "error").length ≤ (s.thread "error").length) := by
  obtain ⟨next, ways⟩ := step.refused again inFlight
  refine ⟨next, ?_⟩
  rcases ways with ⟨builds, main, thread⟩ | ⟨rfl, builds, emitted, thread⟩ |
    ⟨rfl, builds, emitted, main⟩
  · rw [main, thread]
    exact ⟨.inl builds, ⟨id, Nat.le_refl _⟩, id, Nat.le_refl _⟩
  · rw [thread]
    refine ⟨.inr ⟨builds, ?_⟩, emitted.refused, id, Nat.le_refl _⟩
    by_cases isError : m.name = "error"
    · exact .inl isError
    · rw [NodeEmits, if_neg fun both => isError both.1] at emitted
      obtain ⟨left, walk, -⟩ := emitted
      exact .inr walk.ends
  · rw [main]
    have ends : Ends may (s.thread m.name) .throws := by
      obtain ⟨left, passes, -⟩ := emitted
      exact passes.ends
    exact ⟨.inr ⟨builds, .inr ends⟩, ⟨id, Nat.le_refl _⟩, emitted.refused⟩

theorem finite_lists_iff (inFlight : s.inFlight = some (side, m)) :
    Finite may (ListEmits may) s ↔
      ¬ (MainEndless may (s.main "error") ∧ ThreadEndless may (s.thread "error") ∧
        Refused may (side.of s.main s.thread) m) := by
  constructor
  · rintro ⟨bound, le⟩ ⟨main, thread, refused⟩
    obtain ⟨t, step, next, main', thread'⟩ := refused.step inFlight main thread
    have endless : Reports may (ListEmits may) s (bound + 1) :=
      .more step (next ▸ rfl) (reports_endless next main' thread' bound)
    exact absurd (le _ endless) (Nat.not_succ_le_self bound)
  · intro patient
    refine ⟨2 * (s.main "error").length + 2 * (s.thread "error").length + 2, fun n reports => ?_⟩
    cases reports with
    | none => exact Nat.zero_le _
    | @more _ t n step again rest =>
        obtain ⟨next, refused, ⟨main, mainLe⟩, thread, threadLe⟩ :=
          step.first_refused again inFlight
        by_cases mainEndless : MainEndless may (s.main "error")
        · have notThread : ¬ ThreadEndless may (t.thread "error") := fun endless =>
            patient ⟨mainEndless, thread endless, refused⟩
          have le := reports_le_of_thread rest next notThread
          split at le <;> omega
        · have le := reports_le_of_main rest next fun endless => mainEndless (main endless)
          split at le <;> omega

end Lists

/-! ### Listeners as they were registered -/

section Listeners

variable {may}

/-- What was registered with `on` and `once`, by names. -/
def registered (regs : List (String × Entry Cb)) : Registry String Cb :=
  regs.foldl (fun r reg => r.register reg.1 reg.2) Registry.empty

/-- The emitter of the thread after the same calls. -/
def listening (regs : List (String × Entry Cb)) : EventEmitter String Cb :=
  regs.foldl (fun E reg => E.on reg.1 reg.2.cb reg.2.once) .new

theorem listening_holds (regs : List (String × Entry Cb)) :
    Holds (listening regs) (registered regs) := by
  have steps : ∀ (regs : List (String × Entry Cb)) (E : EventEmitter String Cb)
      (r : Registry String Cb), Refines E r →
      Refines (regs.foldl (fun E reg => E.on reg.1 reg.2.cb reg.2.once) E)
        (regs.foldl (fun r reg => r.register reg.1 reg.2) r) := by
    intro regs
    induction regs with
    | nil => exact fun E r refines => refines
    | cons reg regs ih => exact fun E r refines => ih _ _ (refines.on reg.1 reg.2.cb reg.2.once)
  exact (steps regs .new Registry.empty refines_new).holds

/-- **Reports come to an end** for a message, whatever its listeners and those of 'error' do
as far as they may, unless the message can be refused and both sides can refuse every
report. -/
theorem reports_finite_iff (may : Cb → Outcome → Prop) (main thread : List (String × Entry Cb))
    (side : Party) (m : Incoming) :
    Finite may (Emits may) ⟨registered main, listening thread, some (side, m)⟩ ↔
      ¬ (MainEndless may (registered main "error") ∧
        ThreadEndless may (registered thread "error") ∧
        Refused may (side.of (registered main) (registered thread)) m) := by
  rw [finite_iff_lists (listening_holds thread)]
  exact finite_lists_iff rfl

/-- The thread has a listener of 'error' that throws, and the main thread has none: after a
message that the thread refuses, reports go on for ever. -/
theorem reports_for_ever :
    ¬ Finite (fun (_ : ℕ) o => o = .throws) (Emits fun _ o => o = .throws)
      ⟨registered [], listening [("work", ⟨0, false⟩), ("error", ⟨1, false⟩)],
        some (.thread, ⟨"work", (· = .returns)⟩)⟩ := by
  rw [finite_iff_lists (listening_holds _), finite_lists_iff rfl, not_not]
  refine ⟨.inr trivial, ?_, .inr ⟨rfl, .inr ?_⟩⟩
  · exact Ends.throws rfl (by decide)
  · exact Ends.throws rfl (by decide)

end Listeners

end ThreadJs.Message.Exchange
