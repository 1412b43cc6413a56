import ThreadJs.Lib.Machine

/-!
`WaitThread` under spurious returns of `uv_cond_wait` (`tools.h`).

One thread calls `lock` and then, in `j_wait`, `getData`; the other calls come from any
thread at any time. `lock` waits once, without looking at `locked` again, so it also returns
when the wait does without a broadcast. `lock_sound_iff` says which runs this spoils.
-/

namespace ThreadJs.Wait.Spurious

open Machine

/-- Where the thread is that calls `lock`. -/
inductive Place where
  | outside
  /-- `locked` is set, and `uv_cond_wait` is still to be called with the mutex held. -/
  | entered
  | waiting
  /-- The wait is over, after a broadcast or without one, and needs the mutex again. -/
  | woken (spurious : Bool)
  /-- `lock` has returned, and `j_wait` goes on with `getData`. -/
  | returned
  /-- That `getData` has thrown. -/
  | threw
  deriving DecidableEq

structure WaitThread (Data : Type) where
  place : Place
  locked : Bool
  data : Option Data
  /-- `unlock` has cleared `locked` and holds the mutex until it has broadcast. -/
  broadcasting : Bool
  /-- `unlock` has been called since the last `lock` began. -/
  notified : Bool
  deriving DecidableEq

variable {Data : Type}

def new : WaitThread Data := ⟨.outside, false, none, false, false⟩

inductive Call (Data : Type) where
  /-- `lock` up to `uv_cond_wait`. -/
  | lock
  | condWait
  /-- `uv_cond_wait` returns without a broadcast. -/
  | spurious
  /-- `uv_cond_wait` has the mutex again, and `lock` returns. -/
  | reacquire
  /-- The call of `getData` in `j_wait`. -/
  | jWaitGetData
  | getData
  | setData (d : Data)
  /-- `unlock` up to `uv_cond_broadcast`. -/
  | unlock
  | broadcast

def WaitThread.mutexFree (w : WaitThread Data) : Bool :=
  w.place != .entered && !w.broadcasting

/-- A call, or a part of it; one that throws leaves everything as it is, except that `lock`
and the `getData` of `j_wait` end there. -/
def step (w : WaitThread Data) : Call Data → Option (WaitThread Data)
  | .lock =>
      if (w.place = .outside ∨ w.place = .returned) ∧ w.mutexFree = true then
        if w.locked then some { w with place := .outside }
        else some { w with place := .entered, locked := true, notified := false }
      else none
  | .condWait => if w.place = .entered then some { w with place := .waiting } else none
  | .spurious => if w.place = .waiting then some { w with place := .woken true } else none
  | .reacquire =>
      if (w.place = .woken true ∨ w.place = .woken false) ∧ w.mutexFree = true then
        some { w with place := .returned }
      else none
  | .jWaitGetData =>
      if w.place = .returned then
        if w.locked then some { w with place := .threw }
        else some { w with place := .outside, data := none }
      else none
  | .getData => if w.locked then some w else some { w with data := none }
  | .setData d => if w.locked then some { w with data := some d } else some w
  | .unlock =>
      if w.mutexFree = true then
        if w.locked then some { w with locked := false, broadcasting := true, notified := true }
        else some w
      else none
  | .broadcast =>
      if w.broadcasting = true then
        some { w with
          place := if w.place = .waiting then .woken false else w.place
          broadcasting := false }
      else none

/-- `lock` has returned only after an `unlock`, and `getData` has not thrown and will not. -/
def Sound (w : WaitThread Data) : Prop :=
  (w.place = .returned → w.notified = true ∧ w.locked = false) ∧ w.place ≠ .threw

/-- A wait that has ended without a broadcast does not get the mutex back before `unlock` has
been called. -/
def Heeds (w : WaitThread Data) (c : Call Data) : Prop :=
  c = .reacquire → w.place = .woken true → w.notified = true

/-! ### The phases of a wait -/

inductive Phase (w : WaitThread Data) : Prop where
  | outside (place : w.place = .outside ∨ w.place = .returned ∧ w.notified = true)
      (locked : w.locked = false) (broadcasting : w.broadcasting = false)
  /-- Nobody has called `unlock`. -/
  | held (place : w.place = .entered ∨ w.place = .waiting ∨ w.place = .woken true)
      (locked : w.locked = true) (broadcasting : w.broadcasting = false)
      (notified : w.notified = false)
  | releasing (place : w.place = .waiting ∨ w.place = .woken true) (locked : w.locked = false)
      (broadcasting : w.broadcasting = true) (notified : w.notified = true)
  | released (place : w.place = .woken true ∨ w.place = .woken false) (locked : w.locked = false)
      (broadcasting : w.broadcasting = false) (notified : w.notified = true)

theorem phase_new : Phase (new : WaitThread Data) := .outside (.inl rfl) rfl rfl

theorem Phase.sound {w : WaitThread Data} (phase : Phase w) : Sound w := by
  cases phase with
  | outside place locked =>
      rcases place with place | ⟨place, notified⟩
      · simp [Sound, place]
      · simp [Sound, place, notified, locked]
  | held place =>
      rcases place with place | place | place <;> simp [Sound, place]
  | releasing place | released place =>
      rcases place with place | place <;> simp [Sound, place]

theorem mutexFree_iff {w : WaitThread Data} :
    w.mutexFree = true ↔ w.place ≠ .entered ∧ w.broadcasting = false := by
  simp [WaitThread.mutexFree]

/-- Every call leads from a phase to the same or the next one, if a wait that has ended early
stays out until `unlock` has been called. -/
theorem Phase.step {w v : WaitThread Data} {c : Call Data} (phase : Phase w) (heeds : Heeds w c)
    (hs : Spurious.step w c = some v) : Phase v := by
  cases c <;> simp only [Spurious.step] at hs
  case lock =>
    split at hs
    · next enabled =>
        obtain ⟨place, mutex⟩ := enabled
        obtain ⟨-, free⟩ := mutexFree_iff.mp mutex
        cases phase with
        | outside _ locked =>
            rw [if_neg (by simp [locked])] at hs
            obtain rfl := Option.some.inj hs
            exact .held (.inl rfl) rfl free rfl
        | held other | releasing other | released other =>
            rcases place with place | place <;> simp [place] at other
    · cases hs
  case condWait =>
    split at hs
    · next place =>
        obtain rfl := Option.some.inj hs
        cases phase with
        | held _ locked broadcasting notified =>
            exact .held (.inr (.inl rfl)) locked broadcasting notified
        | outside other | releasing other | released other => simp [place] at other
    · cases hs
  case spurious =>
    split at hs
    · next place =>
        obtain rfl := Option.some.inj hs
        cases phase with
        | held _ locked broadcasting notified =>
            exact .held (.inr (.inr rfl)) locked broadcasting notified
        | releasing _ locked broadcasting notified =>
            exact .releasing (.inr rfl) locked broadcasting notified
        | outside other | released other => simp [place] at other
    · cases hs
  case reacquire =>
    split at hs
    · next enabled =>
        obtain ⟨place, mutex⟩ := enabled
        obtain ⟨-, free⟩ := mutexFree_iff.mp mutex
        obtain rfl := Option.some.inj hs
        cases phase with
        | released _ locked broadcasting notified =>
            exact .outside (.inr ⟨rfl, notified⟩) locked broadcasting
        | held other locked _ notified =>
            -- Only a wait that has ended early is over in this phase.
            rcases place with early | place
            · rw [heeds rfl early] at notified
              cases notified
            · simp [place] at other
        | releasing _ _ broadcasting => exact absurd (free.symm.trans broadcasting) (by simp)
        | outside other => rcases place with place | place <;> simp [place] at other
    · cases hs
  case jWaitGetData =>
    split at hs
    · next place =>
        cases phase with
        | outside _ locked broadcasting =>
            rw [if_neg (by simp [locked])] at hs
            obtain rfl := Option.some.inj hs
            exact .outside (.inl rfl) locked broadcasting
        | held other | releasing other | released other => simp [place] at other
    · cases hs
  case getData =>
    split at hs
    · obtain rfl := Option.some.inj hs
      exact phase
    · obtain rfl := Option.some.inj hs
      cases phase with
      | outside place locked broadcasting => exact .outside place locked broadcasting
      | held place locked broadcasting notified => exact .held place locked broadcasting notified
      | releasing place locked broadcasting notified =>
          exact .releasing place locked broadcasting notified
      | released place locked broadcasting notified =>
          exact .released place locked broadcasting notified
  case setData d =>
    split at hs
    · next locked =>
        obtain rfl := Option.some.inj hs
        cases phase with
        | held place _ broadcasting notified => exact .held place locked broadcasting notified
        | outside _ free | releasing _ free | released _ free =>
            exact absurd (free.symm.trans locked) (by simp)
    · obtain rfl := Option.some.inj hs
      exact phase
  case unlock =>
    split at hs
    · next mutex =>
        obtain ⟨inside, -⟩ := mutexFree_iff.mp mutex
        split at hs
        · next locked =>
            obtain rfl := Option.some.inj hs
            cases phase with
            | held place => exact .releasing (place.resolve_left inside) rfl rfl rfl
            | outside _ free | releasing _ free | released _ free =>
                exact absurd (free.symm.trans locked) (by simp)
        · obtain rfl := Option.some.inj hs
          exact phase
    · cases hs
  case broadcast =>
    split at hs
    · next sending =>
        obtain rfl := Option.some.inj hs
        cases phase with
        | releasing place locked _ notified =>
            rcases place with place | place
            · exact .released (.inr (if_pos place)) locked rfl notified
            · exact .released (.inl (by simp [place])) locked rfl notified
        | outside _ _ idle | held _ _ idle | released _ _ idle =>
            exact absurd (idle.symm.trans sending) (by simp)
    · cases hs

/-- **`lock` returns only after an `unlock`, and the `getData` after it does not throw, exactly
in the runs in which no wait that has ended without a broadcast gets the mutex back before
`unlock` has been called.** -/
theorem lock_sound_iff (calls : List (Call Data)) :
    Always step Sound new calls ↔ Meets step Heeds new calls := by
  apply always_iff_meets (I := Phase)
  · intro w c v phase heeds hs
    exact phase.step heeds hs
  · intro w phase
    exact phase.sound
  · intro w c v _ careless hs sound
    simp only [Heeds, Classical.not_imp, Bool.not_eq_true] at careless
    obtain ⟨rfl, early, notified⟩ := careless
    simp only [step] at hs
    split at hs
    · obtain rfl := Option.some.inj hs
      rw [(sound.1 rfl).1] at notified
      cases notified
    · cases hs
  · exact phase_new

/-- A wait that ends without a broadcast lets `lock` return, and `getData` throws. -/
theorem lock_returns_early :
    ¬ Always step Sound (new : WaitThread Nat)
      [.lock, .condWait, .spurious, .reacquire, .jWaitGetData] := by
  intro always
  have threw := always.last rfl
  exact threw.2 rfl

end ThreadJs.Wait.Spurious
