import Mathlib.Data.Finset.Basic
import ThreadJs.Lib.Machine

/-!
`createFilter` (`bootnode.js`): a getter behind filters that can deny the call.

A call consults the filters one after the other; each is a function that may itself add
and remove filters, call the wrapper again or throw. The filters are an array which they
share, so a step of the machine below is one such act or the end of a filter. (A filter has
the array as its `this`; that it writes to it directly is left out.)

* `enforced_of_harmless` — what a call does while its filters are changed.
-/

namespace ThreadJs.Filter

open Machine

variable {Fn Arg : Type}

/-! ### The array -/

section Array

variable {filters : List Fn} {filter : Fn}

/-- Where another filter is after the removal at index `j`. -/
theorem getElem?_eraseIdx_other {i j : Nat} {g : Fn} (hi : filters[i]? = some g)
    (other : i ≠ j) : (filters.eraseIdx j)[if j < i then i - 1 else i]? = some g := by
  rw [List.getElem?_eraseIdx]
  split
  · next after =>
      rw [if_neg (by omega), Nat.sub_add_cancel (by omega), hi]
  · rw [if_pos (by omega), hi]

variable [DecidableEq Fn]

/-- The loop of `_find_filter` below index `i`. -/
def findBelow (filters : List Fn) (filter : Fn) : Nat → Option Nat
  | 0 => none
  | i + 1 => if filters[i]? = some filter then some i else findBelow filters filter i

/-- `_find_filter`; `none` is `undefined`, for which `isNaN` is true. -/
def findFilter (filters : List Fn) (filter : Fn) : Option Nat :=
  findBelow filters filter filters.length

/-- The array afterwards, and what is returned. -/
def addFilter (filters : List Fn) (filter : Fn) : List Fn × Option Nat :=
  match findFilter filters filter with
  | none => (filters ++ [filter], some filters.length)
  | some _ => (filters, none)

def removeFilter (filters : List Fn) (filter : Fn) : List Fn × Option Nat :=
  match findFilter filters filter with
  | some i => (filters.eraseIdx i, some i)
  | none => (filters, none)

theorem findBelow_spec (filters : List Fn) (filter : Fn) (n : Nat) :
    match findBelow filters filter n with
    | some i => filters[i]? = some filter
    | none => ∀ i < n, filters[i]? ≠ some filter := by
  induction n with
  | zero => exact fun i hi => absurd hi (Nat.not_lt_zero i)
  | succ n ih =>
      by_cases here : filters[n]? = some filter
      · rw [findBelow, if_pos here]
        exact here
      · rw [findBelow, if_neg here]
        split at ih
        · exact ih
        · intro i hi
          rcases Nat.lt_succ_iff_lt_or_eq.mp hi with below | rfl
          · exact ih i below
          · exact here

theorem findFilter_some {i : Nat} (h : findFilter filters filter = some i) :
    filters[i]? = some filter := by
  have spec := findBelow_spec filters filter filters.length
  rw [show findBelow filters filter filters.length = some i from h] at spec
  exact spec

theorem findFilter_none (h : findFilter filters filter = none) : filter ∉ filters := by
  have spec := findBelow_spec filters filter filters.length
  rw [show findBelow filters filter filters.length = none from h] at spec
  intro known
  obtain ⟨i, inside, here⟩ := List.getElem_of_mem known
  exact spec i inside (by rw [List.getElem?_eq_getElem inside, here])

/-- Nothing but the given filter comes in. -/
theorem mem_addFilter {g : Fn} : g ∈ (addFilter filters filter).1 ↔ g = filter ∨ g ∈ filters := by
  unfold addFilter
  split
  · rw [List.mem_append, List.mem_singleton, or_comm]
  · next i found =>
      constructor
      · exact .inr
      · rintro (rfl | known)
        · exact List.mem_of_getElem? (findFilter_some found)
        · exact known

theorem nodup_addFilter (nodup : filters.Nodup) : (addFilter filters filter).1.Nodup := by
  unfold addFilter
  split
  · next absent =>
      exact List.nodup_append.mpr ⟨nodup, List.nodup_singleton _, fun a ha b hb same =>
        findFilter_none absent (List.mem_singleton.mp hb ▸ same ▸ ha)⟩
  · exact nodup

theorem getElem?_addFilter {i : Nat} {g : Fn} (h : filters[i]? = some g) :
    (addFilter filters filter).1[i]? = some g := by
  unfold addFilter
  split
  · rw [List.getElem?_append_left (List.getElem?_eq_some_iff.mp h).1, h]
  · exact h

theorem length_addFilter : filters.length ≤ (addFilter filters filter).1.length := by
  unfold addFilter
  split
  · simp
  · exact Nat.le_refl _

theorem nodup_removeFilter (nodup : filters.Nodup) : (removeFilter filters filter).1.Nodup := by
  unfold removeFilter
  split
  · exact nodup.eraseIdx _
  · exact nodup

/-- Exactly the given filter goes. -/
theorem mem_removeFilter (nodup : filters.Nodup) {g : Fn} :
    g ∈ (removeFilter filters filter).1 ↔ g ≠ filter ∧ g ∈ filters := by
  unfold removeFilter
  split
  · next j found =>
      have gone := findFilter_some found
      constructor
      · intro kept
        refine ⟨?_, List.mem_of_mem_eraseIdx kept⟩
        rintro rfl
        obtain ⟨k, inside, hk⟩ := List.mem_eraseIdx_iff_getElem?.mp kept
        have known := (List.getElem?_eq_some_iff.mp hk).1
        exact inside ((List.getElem?_inj known nodup).mp (hk.trans gone.symm))
      · rintro ⟨other, known⟩
        obtain ⟨i, hi⟩ := List.mem_iff_getElem?.mp known
        have away : i ≠ j := by
          rintro rfl
          exact other (Option.some.inj (hi.symm.trans gone))
        exact List.mem_of_getElem? (getElem?_eraseIdx_other hi away)
  · next absent =>
      constructor
      · intro known
        refine ⟨?_, known⟩
        rintro rfl
        exact findFilter_none absent known
      · exact And.right

end Array

/-! ### Calls -/

/-- A call that waits for a filter. -/
structure Call (Fn Arg : Type) where
  args : List Arg
  /-- `i` -/
  turn : Nat
  /-- `e` -/
  bound : Nat
  /-- `_filters[i]`, which is running. -/
  filter : Fn
  /-- The filters that have returned false. -/
  consulted : List Fn
  /-- The filters that have been registered since the call began. -/
  stayed : List Fn

/-- How a call ended. -/
inductive Outcome (Fn Arg : Type) where
  /-- The getter is called with `args`. -/
  | reached (args : List Arg) (consulted stayed : List Fn)
  | denied (args : List Arg) (message : String)
  /-- The filter has thrown. -/
  | thrown (args : List Arg)
  /-- `_filters[i]` is `undefined` and cannot be called: a `TypeError`. -/
  | failed (args : List Arg)

structure State (Fn Arg : Type) where
  filters : List Fn
  /-- The calls in progress, the innermost first. -/
  calls : List (Call Fn Arg)
  outcomes : List (Outcome Fn Arg)
  /-- The filters that were added and not removed since. -/
  registered : Finset Fn

def init : State Fn Arg := ⟨[], [], [], ∅⟩

inductive Action (Fn Arg : Type) where
  | add (filter : Fn)
  | remove (filter : Fn)
  | call (args : List Arg)
  /-- The running filter returns a value that counts as `deny`. -/
  | returns (deny : Bool)
  | throws

def deter (name : String) : String := "deter `" ++ name ++ "` module"

/-- The test of the loop and what follows it: the next filter, or the getter. -/
def loop (s : State Fn Arg) (args : List Arg) (i e : Nat) (consulted stayed : List Fn) :
    State Fn Arg :=
  if i < e then
    match s.filters[i]? with
    | some filter => { s with calls := ⟨args, i, e, filter, consulted, stayed⟩ :: s.calls }
    | none => { s with outcomes := s.outcomes ++ [.failed args] }
  else { s with outcomes := s.outcomes ++ [.reached args consulted stayed] }

/-- `text` is the conversion of the first argument to a string. Where there is no filter,
the loop ends at once, as the `if` around it does. -/
def step [DecidableEq Fn] (text : Option Arg → String) (s : State Fn Arg) :
    Action Fn Arg → Option (State Fn Arg)
  | .add filter =>
      some { s with
        filters := (addFilter s.filters filter).1
        registered := insert filter s.registered }
  | .remove filter =>
      some { s with
        filters := (removeFilter s.filters filter).1
        calls := s.calls.map fun c => { c with stayed := c.stayed.filter (· ≠ filter) }
        registered := s.registered.erase filter }
  | .call args => some (loop s args 0 s.filters.length [] s.filters)
  | .returns deny =>
      match s.calls with
      | [] => none
      | c :: calls =>
          if deny then
            some { s with
              calls := calls
              outcomes := s.outcomes ++ [.denied c.args (deter (text c.args.head?))] }
          else
            some (loop { s with calls := calls } c.args (c.turn + 1) c.bound
              (c.consulted ++ [c.filter]) c.stayed)
  | .throws =>
      match s.calls with
      | [] => none
      | c :: calls => some { s with calls := calls, outcomes := s.outcomes ++ [.thrown c.args] }

/-- What a module filter promises. -/
structure Enforced (s : State Fn Arg) : Prop where
  /-- No filter that was there during the whole call has been left out. -/
  consulted : ∀ args consulted stayed, .reached args consulted stayed ∈ s.outcomes →
    ∀ f ∈ stayed, f ∈ consulted
  works : ∀ args, .failed args ∉ s.outcomes
  nodup : s.filters.Nodup
  exact : ∀ f, f ∈ s.filters ↔ f ∈ s.registered

/-- The removal of a registered filter leaves each call in progress what is still to be
consulted: it is behind all that, or in front of it and a filter added since the call
began moves up, or the last filter of the call is running. -/
def Harmless [DecidableEq Fn] (s : State Fn Arg) : Action Fn Arg → Prop
  | .remove filter => ∀ j, findFilter s.filters filter = some j → ∀ c ∈ s.calls,
      c.bound ≤ j ∨ c.turn + 1 = c.bound ∨ c.turn < j ∧ c.bound < s.filters.length
  | _ => True

instance [DecidableEq Fn] (s : State Fn Arg) (a : Action Fn Arg) : Decidable (Harmless s a) :=
  match a with
  | .remove filter =>
      match h : findFilter s.filters filter with
      | none => isTrue fun _ hj => by rw [h] at hj; cases hj
      | some j =>
          decidable_of_iff (∀ c ∈ s.calls,
              c.bound ≤ j ∨ c.turn + 1 = c.bound ∨ c.turn < j ∧ c.bound < s.filters.length)
            ⟨fun all _ hj => Option.some.inj (h.symm.trans hj) ▸ all, fun all => all j h⟩
  | .add _ | .call _ | .returns _ | .throws => isTrue trivial

/-! ### Calls under harmless removals -/

/-- What a call in progress has left out is still ahead of it. -/
structure Fair (filters : List Fn) (c : Call Fn Arg) : Prop where
  turn : c.turn < c.bound
  room : c.turn + 1 = c.bound ∨ c.bound ≤ filters.length
  ahead : ∀ f ∈ c.stayed, f ∈ c.consulted ∨ f = c.filter ∨
    ∃ i, c.turn < i ∧ i < c.bound ∧ filters[i]? = some f

structure Inv (s : State Fn Arg) : Prop where
  enforced : Enforced s
  fair : ∀ c ∈ s.calls, Fair s.filters c

theorem inv_init : Inv (init : State Fn Arg) where
  enforced :=
    { consulted := by simp [init]
      works := by simp [init]
      nodup := List.nodup_nil
      exact := by simp [init] }
  fair := by simp [init]

section Steps

variable {s t : State Fn Arg} {c : Call Fn Arg} {filters : List Fn}

/-- A call ends, neither at the getter nor past the end of the array. -/
theorem Inv.ends {calls : List (Call Fn Arg)} (h : Inv s) (hcalls : s.calls = c :: calls)
    {outcome : Outcome Fn Arg}
    (other : ∀ args consulted stayed, outcome ≠ .reached args consulted stayed)
    (works : ∀ args, outcome ≠ .failed args) :
    Inv { s with calls := calls, outcomes := s.outcomes ++ [outcome] } where
  enforced :=
    { consulted := by
        intro args consulted stayed hmem
        rcases List.mem_append.mp hmem with old | new
        · exact h.enforced.consulted args consulted stayed old
        · exact absurd (List.mem_singleton.mp new).symm (other args consulted stayed)
      works := by
        intro args hmem
        rcases List.mem_append.mp hmem with old | new
        · exact h.enforced.works args old
        · exact works args (List.mem_singleton.mp new).symm
      nodup := h.enforced.nodup
      exact := h.enforced.exact }
  fair := fun c' hc' => h.fair c' (hcalls ▸ List.mem_cons_of_mem c hc')

/-- The loop at index `i`: everything left out so far is at `i` or later. -/
theorem Inv.loop (h : Inv s) (args : List Arg) {i e : Nat} {consulted stayed : List Fn}
    (room : i < e → e ≤ s.filters.length)
    (ahead : ∀ f ∈ stayed, f ∈ consulted ∨ ∃ j, i ≤ j ∧ j < e ∧ s.filters[j]? = some f) :
    Inv (Filter.loop s args i e consulted stayed) := by
  unfold Filter.loop
  split
  · next inside =>
      have there : i < s.filters.length := Nat.lt_of_lt_of_le inside (room inside)
      rw [List.getElem?_eq_getElem there]
      refine ⟨⟨h.enforced.consulted, h.enforced.works, h.enforced.nodup, h.enforced.exact⟩, ?_⟩
      intro c hc
      rcases List.mem_cons.mp hc with rfl | hc
      · refine ⟨inside, .inr (room inside), fun f hf => ?_⟩
        rcases ahead f hf with done | ⟨j, from_, to_, here⟩
        · exact .inl done
        · rcases Nat.eq_or_lt_of_le from_ with rfl | later
          · rw [List.getElem?_eq_getElem there] at here
            exact .inr (.inl (Option.some.inj here).symm)
          · exact .inr (.inr ⟨j, later, to_, here⟩)
      · exact h.fair c hc
  · next past =>
      refine ⟨⟨?_, ?_, h.enforced.nodup, h.enforced.exact⟩, h.fair⟩
      · intro args' consulted' stayed' hmem f hf
        rcases List.mem_append.mp hmem with old | new
        · exact h.enforced.consulted args' consulted' stayed' old f hf
        · obtain ⟨rfl, rfl, rfl⟩ := Outcome.reached.inj (List.mem_singleton.mp new)
          rcases ahead f hf with done | ⟨j, from_, to_, -⟩
          · exact done
          · omega
      · intro args' hmem
        rcases List.mem_append.mp hmem with old | new
        · exact h.enforced.works args' old
        · cases List.mem_singleton.mp new

variable [DecidableEq Fn]

theorem Fair.add (h : Fair filters c) (filter : Fn) : Fair (addFilter filters filter).1 c where
  turn := h.turn
  room := h.room.imp_right fun inside => Nat.le_trans inside length_addFilter
  ahead := by
    intro f hf
    rcases h.ahead f hf with done | now | ⟨i, later, inside, here⟩
    · exact .inl done
    · exact .inr (.inl now)
    · exact .inr (.inr ⟨i, later, inside, getElem?_addFilter here⟩)

/-- What is ahead moves down by one at most, and never to the running filter's place. -/
theorem Fair.remove (h : Fair filters c) {filter : Fn}
    (harmless : ∀ j, findFilter filters filter = some j →
      c.bound ≤ j ∨ c.turn + 1 = c.bound ∨ c.turn < j ∧ c.bound < filters.length) :
    Fair (removeFilter filters filter).1
      { c with stayed := c.stayed.filter (· ≠ filter) } := by
  unfold removeFilter
  split
  · next j found =>
      have gone := findFilter_some found
      have inside := (List.getElem?_eq_some_iff.mp gone).1
      have harmless := harmless j found
      refine ⟨h.turn, ?_, fun f hf => ?_⟩
      · have room := h.room
        rw [List.length_eraseIdx_of_lt inside]
        dsimp only
        omega
      · obtain ⟨hf, other⟩ := List.mem_filter.mp hf
        have other : f ≠ filter := of_decide_eq_true other
        rcases h.ahead f hf with done | now | ⟨i, later, before, here⟩
        · exact .inl done
        · exact .inr (.inl now)
        · have away : i ≠ j := by
            rintro rfl
            exact other (Option.some.inj (here.symm.trans gone))
          refine .inr (.inr ⟨_, ?_, ?_, getElem?_eraseIdx_other here away⟩)
          · dsimp only
            split <;> omega
          · dsimp only
            split <;> omega
  · refine ⟨h.turn, h.room, fun f hf => ?_⟩
    exact h.ahead f (List.mem_filter.mp hf).1

theorem Inv.step {text : Option Arg → String} {a : Action Fn Arg} (h : Inv s)
    (harmless : Harmless s a) (hs : Filter.step text s a = some t) : Inv t := by
  cases a with
  | add filter =>
      obtain rfl := Option.some.inj hs
      refine ⟨⟨h.enforced.consulted, h.enforced.works, nodup_addFilter h.enforced.nodup, ?_⟩,
        fun c hc => (h.fair c hc).add filter⟩
      intro f
      rw [mem_addFilter, Finset.mem_insert, h.enforced.exact]
  | remove filter =>
      obtain rfl := Option.some.inj hs
      refine ⟨⟨h.enforced.consulted, h.enforced.works, nodup_removeFilter h.enforced.nodup, ?_⟩,
        ?_⟩
      · intro f
        rw [mem_removeFilter h.enforced.nodup, Finset.mem_erase, h.enforced.exact]
      · intro c hc
        obtain ⟨before, known, rfl⟩ := List.mem_map.mp hc
        exact (h.fair before known).remove fun j found => harmless j found before known
  | call args =>
      obtain rfl := Option.some.inj hs
      refine h.loop args (fun _ => Nat.le_refl _) fun f hf => .inr ?_
      obtain ⟨j, hj⟩ := List.mem_iff_getElem?.mp hf
      exact ⟨j, Nat.zero_le j, (List.getElem?_eq_some_iff.mp hj).1, hj⟩
  | returns deny =>
      simp only [Filter.step] at hs
      split at hs
      · cases hs
      · next c calls hcalls =>
          split at hs
          · obtain rfl := Option.some.inj hs
            exact h.ends hcalls (by simp) (by simp)
          · obtain rfl := Option.some.inj hs
            have fair := h.fair c (hcalls ▸ List.mem_cons_self)
            have rest : Inv { s with calls := calls } :=
              ⟨⟨h.enforced.consulted, h.enforced.works, h.enforced.nodup, h.enforced.exact⟩,
                fun c' hc' => h.fair c' (hcalls ▸ List.mem_cons_of_mem c hc')⟩
            refine rest.loop c.args (fun inside => ?_) fun f hf => ?_
            · rcases fair.room with last | room
              · omega
              · exact room
            · rcases fair.ahead f hf with done | rfl | later
              · exact .inl (List.mem_append_left _ done)
              · exact .inl (List.mem_append_right _ (List.mem_singleton_self _))
              · exact .inr later
  | throws =>
      simp only [Filter.step] at hs
      split at hs
      · cases hs
      · next c calls hcalls =>
          obtain rfl := Option.some.inj hs
          exact h.ends hcalls (by simp) (by simp)

end Steps

/-- **While every removal is harmless, no filter is left out, no call fails by itself, and
the filters are the set of those added and not removed.** -/
theorem enforced_of_harmless [DecidableEq Fn] (text : Option Arg → String)
    (as : List (Action Fn Arg)) (harmless : Meets (step text) Harmless init as) :
    Always (step text) Enforced init as :=
  (Always.of_invariant (fun _ _ _ h ok hs => h.step ok hs) inv_init harmless).imp
    fun _ h => h.enforced

/-- A filter added during the call takes the place of one that is removed. -/
theorem enforced_replaced :
    Always (step fun name => name.getD "undefined") Enforced init
      [.add 0, .add 1, .call ["fs"], .add 2, .remove 1, .returns false, .returns true] :=
  enforced_of_harmless _ _ (by decide)

/-! ### Other removals -/

section Short

variable [DecidableEq Fn] {s : State Fn Arg} {c : Call Fn Arg}
  {calls : List (Call Fn Arg)}

theorem returns_next (text : Option Arg → String) (hcalls : s.calls = c :: calls)
    (more : c.turn + 1 < c.bound) {f : Fn} (here : s.filters[c.turn + 1]? = some f) :
    step text s (.returns false) = some { s with
      calls :=
        ⟨c.args, c.turn + 1, c.bound, f, c.consulted ++ [c.filter], c.stayed⟩ :: calls } := by
  simp only [step, hcalls, loop, if_pos more, here]
  rfl

theorem returns_past_end (text : Option Arg → String) (hcalls : s.calls = c :: calls)
    (more : c.turn + 1 < c.bound) (past : s.filters[c.turn + 1]? = none) :
    step text s (.returns false) =
      some { s with calls := calls, outcomes := s.outcomes ++ [.failed c.args] } := by
  simp only [step, hcalls, loop, if_pos more, past]
  rfl

/-- Where the array has become too short for a call, the call fails as soon as the filters
that are left have all returned false. -/
theorem failed_of_short (text : Option Arg → String) (hcalls : s.calls = c :: calls)
    (more : c.turn + 1 < c.bound) (short : s.filters.length < c.bound) :
    ∃ n t, run (step text) s (List.replicate n (.returns false)) = some t ∧
      .failed c.args ∈ t.outcomes := by
  obtain ⟨left, hleft⟩ : ∃ left, s.filters.length ≤ c.turn + 1 + left :=
    ⟨_, Nat.le_add_left _ _⟩
  induction left generalizing s c with
  | zero =>
      have past : s.filters[c.turn + 1]? = none := List.getElem?_eq_none hleft
      exact ⟨1, _, run_cons_of_step (returns_past_end text hcalls more past) [],
        List.mem_append_right _ (List.mem_singleton_self _)⟩
  | succ left ih =>
      cases here : s.filters[c.turn + 1]? with
      | none =>
          exact ⟨1, _, run_cons_of_step (returns_past_end text hcalls more here) [],
            List.mem_append_right _ (List.mem_singleton_self _)⟩
      | some f =>
          have there := (List.getElem?_eq_some_iff.mp here).1
          have next := returns_next text hcalls more here
          have more' : c.turn + 1 + 1 < c.bound := by omega
          have less : s.filters.length ≤ c.turn + 1 + 1 + left := by omega
          let later : Call Fn Arg :=
            ⟨c.args, c.turn + 1, c.bound, f, c.consulted ++ [c.filter], c.stayed⟩
          obtain ⟨n, t, hrun, failed⟩ := ih (s := { s with calls := later :: calls }) (c := later)
            rfl more' short less
          exact ⟨n + 1, t, (run_cons_of_step next _).trans hrun, failed⟩

end Short

/-- Filter 0 takes itself out and comes in again behind filter 1: the getter is reached, and
filter 1 was not asked. Without coming in again it makes the call fail. -/
theorem self_removal_not_enforced :
    ¬ Always (step fun name => name.getD "undefined") Enforced init
        [.add 0, .add 1, .call ["fs"], .remove 0, .add 0, .returns false, .returns false] ∧
      ¬ Always (step fun name => name.getD "undefined") Enforced init
        [.add 0, .add 1, .call ["fs"], .remove 0, .returns false] := by
  constructor
  · intro always
    have enforced := always.last rfl
    have asked := enforced.consulted ["fs"] [0, 0] [1] List.mem_cons_self 1 List.mem_cons_self
    exact absurd asked (by decide)
  · intro always
    exact (always.last rfl).works ["fs"] List.mem_cons_self

end ThreadJs.Filter
