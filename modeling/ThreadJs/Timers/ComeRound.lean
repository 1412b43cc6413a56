import ThreadJs.Timers.Ownership
import ThreadJs.Timers.Sound

/-!
How identifiers come round.

`TimerPool::id` counts with 32 bits. A timer that is created and cleared at once leaves
nothing behind but the higher counter, and after `2^32 - 1` of them the next identifier is
again that of the timer created before (`run_churn`).
-/

namespace ThreadJs.Timers

open Function Machine

/-- `n` immediates, each cleared at once; `p` is the number of the first. -/
def churn : Nat → Nat → List Move
  | _, 0 => []
  | p, n + 1 => .create .setImmediate :: .clear p :: churn (p + 1) n

/-- The timer that an event is about. -/
def Event.About (e : Event) (p : Nat) : Prop :=
  e = .created p .setImmediate ∨ e = .cleared p (some p)

section Churn

variable {h : History}

/-- One timer that is created and cleared. -/
theorem run_pair (js : h.state.inJs = true) (alive : h.state.usedDeleted = false)
    (free : h.state.pool (h.state.lastId + 1) = none) : ∃ heap,
    (∀ p < h.state.size, heap p = h.state.heap p) ∧ ∀ ms,
      run History.step h (.create .setImmediate :: .clear h.state.size :: ms) =
        run History.step ⟨{ h.state with
          lastId := h.state.lastId + 1
          heap := heap
          size := h.state.size + 1 }, h.tickRef,
          h.log ++ [.created h.state.size .setImmediate, .cleared h.state.size (some h.state.size)]⟩
          ms := by
  obtain ⟨s, ref, log⟩ := h
  dsimp only at js alive free ⊢
  let t : Timer := ⟨s.lastId + 1, true, .oneShot, true, 0⟩
  let made := s.createTimer .setImmediate
  have pool : made.pool = update s.pool (s.lastId + 1) (some s.size) := createTimer_pool free
  have entry : made.pool t.id = some s.size := by rw [pool, update_self]
  have node : made.heap s.size = some t := update_self ..
  have create : History.step ⟨s, ref, log⟩ (.create .setImmediate) =
      some ⟨made, ref, log ++ [.created s.size .setImmediate]⟩ := by
    simp [History.step, Move.action, Timers.step, alive, js, Move.tickRef, Move.events, made]
  have cleared : made.clearTime t.id = { s with
      lastId := s.lastId + 1
      heap := update made.heap s.size (some t.released)
      size := s.size + 1 } := by
    have back : update made.pool t.id none = s.pool := by
      rw [pool, update_idem, ← free, update_eq_self]
    have released := release_live (s := made.pop t.id) node rfl
    have hit : made.clearTime t.id = (made.pop t.id).release s.size := by
      simp only [State.clearTime, entry]
    rw [hit, released, State.pop, back]
    simp [made, State.createTimer, Request.kind, Timer.released, t]
  have clear : History.step ⟨made, ref, log ++ [.created s.size .setImmediate]⟩ (.clear s.size) =
      some ⟨made.clearTime t.id, ref, log ++ [.created s.size .setImmediate] ++
        [.cleared s.size (some s.size)]⟩ := by
    have js' : made.inJs = true := js
    have alive' : made.usedDeleted = false := alive
    simp [History.step, Move.action, Timers.step, alive', js', node, Move.tickRef, Move.events,
    entry]
  refine ⟨update made.heap s.size (some t.released), fun p hp => ?_, fun ms => ?_⟩
  · rw [update_of_ne (Nat.ne_of_lt hp), State.createTimer_heap, update_of_ne (Nat.ne_of_lt hp)]
  · rw [run_cons_of_step create, run_cons_of_step clear, cleared, List.append_assoc]
    rfl

/-- What is left of `n` such timers is the counter, objects that are gone, and the log. -/
theorem run_churn (n : Nat) : ∀ (h : History), h.state.inJs = true → h.state.usedDeleted = false →
    (∀ i, 1 ≤ i → i ≤ n → h.state.pool (h.state.lastId + Int32.ofNat i) = none) →
    ∃ heap log, (∀ p < h.state.size, heap p = h.state.heap p) ∧
      (∀ e ∈ log, ∃ p, h.state.size ≤ p ∧ p < h.state.size + n ∧ e.About p) ∧ ∀ ms,
        run History.step h (churn h.state.size n ++ ms) =
          run History.step ⟨{ h.state with
            lastId := h.state.lastId + Int32.ofNat n
            heap := heap
            size := h.state.size + n }, h.tickRef, h.log ++ log⟩ ms := by
  induction n with
  | zero =>
      intro h _ _ _
      refine ⟨h.state.heap, [], fun _ _ => rfl, nofun, fun ms => ?_⟩
      have zero : h.state.lastId + Int32.ofNat 0 = h.state.lastId := Int32.add_zero _
      rw [zero, List.append_nil]
      rfl
  | succ n ih =>
      intro h js alive free
      obtain ⟨heap, kept, pair⟩ := run_pair js alive (free 1 (Nat.le_refl 1) (by omega))
      have onwards : ∀ i,
          h.state.lastId + 1 + Int32.ofNat i = h.state.lastId + Int32.ofNat (i + 1) := by
        intro i
        rw [Int32.ofNat_add, Int32.add_assoc, Int32.add_comm (Int32.ofNat i)]
        rfl
      obtain ⟨heap', log, kept', about, rest⟩ := ih ⟨{ h.state with
          lastId := h.state.lastId + 1
          heap := heap
          size := h.state.size + 1 }, h.tickRef, h.log ++
            [.created h.state.size .setImmediate, .cleared h.state.size (some h.state.size)]⟩ js
          alive fun i one le => by
        rw [onwards]
        exact free (i + 1) (by omega) (by omega)
      refine ⟨heap', [.created h.state.size .setImmediate,
        .cleared h.state.size (some h.state.size)] ++ log,
        fun p hp => (kept' p (Nat.lt_succ_of_lt hp)).trans (kept p hp),
          fun e he => ?_, fun ms => ?_⟩
      · rcases List.mem_append.mp he with he | he
        · refine ⟨h.state.size, Nat.le_refl _, by omega, ?_⟩
          simpa [Event.About] using he
        · obtain ⟨p, low, high, e⟩ := about e he
          exact ⟨p, by dsimp only at low; omega, by dsimp only at high; omega, e⟩
      · rw [churn, List.cons_append, List.cons_append, pair, rest ms, onwards n, List.append_assoc,
          Nat.add_right_comm]
        rfl

end Churn

theorem ofNat_ne_zero {i : Nat} (one : 1 ≤ i) (small : i < 0x100000000) : Int32.ofNat i ≠ 0 := by
  intro zero
  have bits : (Int32.ofNat i).toBitVec.toNat = (0 : Int32).toBitVec.toNat := by rw [zero]
  change i % 2 ^ 32 = 0 at bits
  omega

/-- A script that sets an interval, and creates and clears other timers until the
identifier of the interval is the next one. -/
def comeRound : List Move := .create (.setInterval 1) :: churn 1 0xFFFFFFFF

/-- The identifiers are used up but for that of the interval, which is in the pool. -/
theorem run_comeRound : ∃ heap log, heap 0 = some ⟨2, true, .repeating, true, 0⟩ ∧
    (∀ e ∈ log, ∃ p, 0 < p ∧ p < 0x100000000 ∧ e.About p) ∧ ∀ ms,
      run History.step .init (comeRound ++ ms) =
        run History.step ⟨{ Timers.init with
          lastId := 1
          pool := update (fun _ => none) 2 (some 0)
          heap := heap
          size := 0x100000000 }, false, .created 0 (.setInterval 1) :: log⟩ ms := by
  obtain ⟨n, hn⟩ : ∃ n, n = 0xFFFFFFFF := ⟨_, rfl⟩
  rw [comeRound, ← hn]
  let h : History := ⟨Timers.init.createTimer (.setInterval 1), false,
    [.created 0 (.setInterval 1)]⟩
  have first : History.step .init (.create (.setInterval 1)) = some h := rfl
  have free : ∀ i, 1 ≤ i → i ≤ n → h.state.pool (h.state.lastId + Int32.ofNat i) = none := by
    intro i one le
    have ne : (2 : Int32) + Int32.ofNat i ≠ 2 := by
      intro same
      exact ofNat_ne_zero one (by omega) (by simpa using same)
    exact update_of_ne ne ..
  obtain ⟨heap, log, kept, about, rest⟩ := run_churn n h rfl rfl free
  have size : h.state.size = 1 := rfl
  have total : 1 + n = 0x100000000 := by omega
  have last : h.state.lastId + Int32.ofNat n = 1 := by
    rw [hn]
    decide
  refine ⟨heap, log, kept 0 Nat.one_pos, fun e he => ?_, fun ms => ?_⟩
  · obtain ⟨p, low, high, e⟩ := about e he
    exact ⟨p, low, by omega, e⟩
  · rw [List.cons_append, run_cons_of_step first, ← size, rest ms, last, size, total]
    rfl

end ThreadJs.Timers
