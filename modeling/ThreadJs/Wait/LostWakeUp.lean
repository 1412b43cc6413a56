import ThreadJs.Wait.WaitThread

/-!
The lost wake-up of wait/notify.

`j_wait` publishes the wait event before `WaitThread::lock` sets `locked`. A
notification that is made in between finds the thread not locked and does nothing,
and the thread then blocks for good. This is the only way to lose a wake-up: a
schedule in which every notification answers a wait event is free of lost wake-ups
exactly if each of them finds `locked` set (`no_lost_wake_up_iff_finds_locked`).
-/

namespace ThreadJs.Wait

open Machine

variable {Data : Type} {rules : Rules}

/-- The main thread is done with the wait event, and the sub thread is blocked or
about to block in `WaitThread::lock`. -/
structure LostWakeUp (s : State Data) : Prop where
  idle : s.main = .idle
  answered : s.waitEvents = 0 ∧ s.owed = false
  waiting : s.sub = .sent ∨ s.sub = .inLock ∨ s.sub = .blocked

instance (s : State Data) [DecidableEq Data] : Decidable (LostWakeUp s) :=
  decidable_of_iff (s.main = .idle ∧ (s.waitEvents = 0 ∧ s.owed = false) ∧
    (s.sub = .sent ∨ s.sub = .inLock ∨ s.sub = .blocked))
    ⟨fun h => ⟨h.1, h.2.1, h.2.2⟩, fun h => ⟨h.1, h.2, h.3⟩⟩

/-- `is_locked` is true when `j_notify` asks for it. -/
def FindsLocked (s : State Data) : Action Data → Prop
  | .notify _ => s.locked = true
  | _ => True

/-- `j_notify` has found the thread locked and has not unlocked it yet. -/
def MainPc.committed : MainPc Data → Bool
  | .settingData _ | .unlocking _ => true
  | _ => false

/-- What the main thread still has to do before the sub thread may go on. -/
def State.debt (s : State Data) : Nat :=
  s.waitEvents + s.owed.toNat + s.main.committed.toNat

/-- The sub thread is between the two points of `j_wait` where `locked` is set and
where it is expected to be reset. -/
def SubPc.inWait : SubPc → Bool
  | .inLock | .blocked | .woken | .unlocked | .threw => true
  | _ => false

/-- One answer is due for a wait that was announced and not yet released, and none
otherwise. -/
structure Inv (s : State Data) : Prop where
  debt : s.debt = (s.locked || s.sub = .sent).toNat
  locked : s.locked = true → s.sub.inWait = true
  inLock : s.sub = .inLock → s.locked = true
  committed : s.main.committed = true → s.locked = true
  broadcasting : ∀ arg, s.main = .broadcasting arg → s.locked = false
  blocked : s.sub = .blocked → s.locked = true ∨ ∃ arg, s.main = .broadcasting arg

theorem inv_init : Inv (init : State Data) where
  debt := rfl
  locked := nofun
  inLock := nofun
  committed := nofun
  broadcasting := nofun
  blocked := nofun

/-- Under the invariant a waiting thread has its answer coming. -/
theorem Inv.not_lostWakeUp {s : State Data} (h : Inv s) : ¬ LostWakeUp s := by
  rintro ⟨idle, ⟨noEvent, notOwed⟩, waiting⟩
  have settled : s.debt = 0 := by simp [State.debt, noEvent, notOwed, idle, MainPc.committed]
  have locked : s.locked = true ∨ s.sub = .sent := by
    rcases waiting with sent | inLock | blocked
    · exact .inr sent
    · exact .inl (h.inLock inLock)
    · rcases h.blocked blocked with locked | ⟨arg, broadcasting⟩
      · exact .inl locked
      · exact nomatch idle.symm.trans broadcasting
  have debt := h.debt
  rw [settled] at debt
  rcases locked with e | e <;> simp [e] at debt

/-- Outside of `lock` and `getData` the thread is not locked. -/
theorem Inv.free {s : State Data} (h : Inv s) (hsub : s.sub.inWait = false) : s.locked = false := by
  by_contra held
  rw [h.locked (Bool.not_eq_false _ ▸ held)] at hsub
  cases hsub

theorem mutexHeld_eq_false {s : State Data} : s.mutexHeld = false ↔
    s.sub ≠ .inLock ∧ ∀ arg, s.main ≠ .broadcasting arg := by
  unfold State.mutexHeld
  split
  · next hsub => simp [hsub]
  · next arg hmain _ => exact iff_of_false nofun fun free => free.2 arg hmain
  · next hsub hmain => exact iff_of_true rfl ⟨hsub, hmain⟩

/-- An answer is given to a wait event, and it is the only one due. -/
theorem debt_of_allowed {s : State Data} (asked : rules.unasked = false)
    (hmain : s.main = .idle) (allowed : (s.owed || rules.unasked) = true) :
    s.debt = s.waitEvents + 1 := by
  have owed : s.owed = true := by simpa [asked] using allowed
  simp [State.debt, owed, hmain, MainPc.committed]

/-- A step under which an answer finds the thread locked keeps the invariant. -/
theorem Inv.step {s t : State Data} {a : Action Data} (h : Inv s) (hc : FindsLocked s a)
    (asked : rules.unasked = false) (hs : Wait.step rules s a = some t) : Inv t := by
  cases effect_of_step hs with
  | wait hsub =>
      have free := h.free (by rw [hsub]; rfl)
      rw [if_neg (Bool.eq_false_iff.mp free)]
      refine ⟨?_, fun held => ?_, nofun, h.committed, h.broadcasting, nofun⟩
      · simpa [State.debt, hsub] using h.debt
      · exact absurd (free.symm.trans held) nofun
  | sendEvent hsub =>
      have free := h.free (by rw [hsub]; rfl)
      refine ⟨?_, fun held => ?_, nofun, h.committed, h.broadcasting, nofun⟩
      · have settled : s.debt = 0 := by simpa [hsub, free] using h.debt
        simp only [State.debt, Bool.or_true, decide_true, Bool.toNat_true] at settled ⊢
        omega
      · exact absurd (free.symm.trans held) nofun
  | lock hsub mutex free =>
      refine ⟨?_, fun _ => rfl, fun _ => rfl, fun _ => rfl, ?_, nofun⟩
      · simpa [State.debt, hsub, free] using h.debt
      · exact fun arg hmain => absurd hmain ((mutexHeld_eq_false.mp mutex).2 arg)
  | lockTwice hsub mutex held =>
      have free := h.free (by rw [hsub]; rfl)
      exact absurd (free.symm.trans held) nofun
  | condWait hsub =>
      have held := h.inLock hsub
      refine ⟨?_, fun _ => rfl, nofun, h.committed, h.broadcasting, fun _ => .inl held⟩
      simpa [State.debt, hsub] using h.debt
  | spurious hsub _ =>
      refine ⟨?_, fun _ => rfl, nofun, h.committed, h.broadcasting, nofun⟩
      simpa [State.debt, hsub] using h.debt
  | reacquire hsub mutex =>
      refine ⟨?_, fun _ => rfl, nofun, h.committed, h.broadcasting, nofun⟩
      simpa [State.debt, hsub] using h.debt
  | getData hsub free =>
      refine ⟨?_, fun held => ?_, nofun, h.committed, h.broadcasting, nofun⟩
      · simpa [State.debt, hsub] using h.debt
      · exact absurd (free.symm.trans held) nofun
  | getDataLocked hsub held =>
      refine ⟨?_, fun _ => rfl, nofun, h.committed, h.broadcasting, nofun⟩
      simpa [State.debt, hsub] using h.debt
  | receive n hmain hevents howed =>
      refine ⟨?_, h.locked, h.inLock, h.committed, h.broadcasting, h.blocked⟩
      simpa [State.debt, hevents, howed] using h.debt
  | notifyData d hmain allowed held =>
      have due := debt_of_allowed asked hmain allowed
      exact ⟨by simpa [State.debt, MainPc.committed, due] using due ▸ h.debt,
        h.locked, h.inLock, fun _ => held, nofun, fun _ => .inl held⟩
  | notifyNone hmain allowed held =>
      have due := debt_of_allowed asked hmain allowed
      exact ⟨by simpa [State.debt, MainPc.committed, due] using due ▸ h.debt,
        h.locked, h.inLock, fun _ => held, nofun, fun _ => .inl held⟩
  | notifyFree arg hmain allowed free => exact absurd (free.symm.trans hc) nofun
  | setData d hmain held =>
      refine ⟨?_, h.locked, h.inLock, fun _ => held, nofun, fun _ => .inl held⟩
      simpa [State.debt, hmain, MainPc.committed] using h.debt
  | setDataFree d hmain free =>
      have held := h.committed (by rw [hmain]; rfl)
      exact absurd (free.symm.trans held) nofun
  | unlock arg hmain mutex held =>
      have inWait := h.locked held
      have notSent : s.sub ≠ .sent := fun sent => by rw [sent] at inWait; cases inWait
      refine ⟨?_, nofun, ?_, nofun, fun _ _ => rfl, fun _ => .inr ⟨arg, rfl⟩⟩
      · simpa [State.debt, hmain, MainPc.committed, held, notSent] using h.debt
      · exact fun inLock => absurd inLock (mutexHeld_eq_false.mp mutex).1
  | unlockFree arg hmain mutex free =>
      have held := h.committed (by rw [hmain]; rfl)
      exact absurd (free.symm.trans held) nofun
  | broadcast arg hmain =>
      have free := h.broadcasting arg hmain
      have debt := h.debt
      simp only [State.debt, hmain, MainPc.committed, free] at debt
      by_cases hsub : s.sub = .blocked
      · simp only [hsub, if_true]
        refine ⟨?_, fun _ => rfl, nofun, nofun, nofun, nofun⟩
        simpa [State.debt, MainPc.committed, hsub, free] using debt
      · simp only [hsub, if_false]
        refine ⟨?_, h.locked, h.inLock, nofun, nofun, fun blocked => absurd blocked hsub⟩
        simpa [State.debt, MainPc.committed, free] using debt

/-- An answer that finds the thread not locked is the answer to a thread that has
still to lock itself. -/
theorem Inv.loses {s t : State Data} {a : Action Data} (h : Inv s) (hc : ¬ FindsLocked s a)
    (asked : rules.unasked = false) (hs : Wait.step rules s a = some t) : LostWakeUp t := by
  cases effect_of_step hs with
  | notifyFree arg hmain allowed free =>
      have due := debt_of_allowed asked hmain allowed
      have sent : s.sub = .sent := by
        by_contra other
        have debt := h.debt
        simp [due, free, other] at debt
      have noEvent : s.waitEvents = 0 := by
        have debt := h.debt
        simpa [due, free, sent] using debt
      exact ⟨hmain, ⟨noEvent, rfl⟩, .inl sent⟩
  | notifyData d hmain allowed held => exact absurd held hc
  | notifyNone hmain allowed held => exact absurd held hc
  | _ => exact absurd trivial hc

/-- **No lost wake-up**, with every notification in answer to a wait event and with
or without spurious returns of `uv_cond_wait`, if and only if every notification
finds the thread locked. -/
theorem no_lost_wake_up_iff_finds_locked (spurious : Bool) (as : List (Action Data)) :
    Always (step ⟨false, spurious⟩) (fun s => ¬ LostWakeUp s) init as ↔
      Meets (step ⟨false, spurious⟩) FindsLocked init as :=
  always_iff_meets (fun _ _ _ h hc hs => h.step hc rfl hs) (fun _ h => h.not_lostWakeUp)
    (fun _ _ _ h hc hs => not_not_intro (h.loses hc rfl hs)) inv_init as

/-- The main thread answers between the wait event and `WaitThread::lock`. -/
theorem wake_up_lost : ¬ Always (step ⟨false, false⟩) (fun s => ¬ LostWakeUp s)
    (init : State Unit) [.wait, .sendEvent, .receive, .notify none, .lock, .condWait] := by
  decide

end ThreadJs.Wait
