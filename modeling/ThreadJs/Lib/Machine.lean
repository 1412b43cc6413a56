import Mathlib.Logic.Basic
import Mathlib.Data.List.Basic

/-!
Runs of partial, labelled machines and of machines with outputs.

A machine is a function `step : σ → α → Option σ`; `none` means that the action
is not enabled. A schedule is a list of actions, so quantifying over schedules
quantifies over every interleaving of the parties whose actions `α` collects.

* `Always P` — every state a schedule passes through satisfies `P`.
* `Meets C` — every step a schedule takes is taken under the condition `C`.
* `Always.of_invariant` — an invariant kept by the steps that meet `C` holds in
  every state of the runs that meet `C`.
* `always_iff_meets` — if moreover a step outside `C` leaves the good states at
  once, the runs with good states only are *exactly* those that meet `C`.
* `meets_iff_meets` — conditions that agree under an invariant are met by the same runs.
* `run_cases` — if such a step cannot be made good again, the last state of a run
  already tells whether all its steps met `C`.
* `Mealy.simulates` — a simulation kept by the steps under `C` makes two machines
  with outputs answer alike; `Mealy.meets_of_good` is the converse, for a condition
  whose violation shows at once.
-/

namespace Machine

variable {σ α : Type*} {step : σ → α → Option σ}

/-- Take the actions of a schedule in order. -/
def run (step : σ → α → Option σ) : σ → List α → Option σ
  | s, [] => some s
  | s, a :: as => (step s a).bind fun t => run step t as

theorem run_cons (s : σ) (a : α) (as : List α) :
    run step s (a :: as) = (step s a).bind fun t => run step t as := rfl

theorem run_cons_of_step {s t : σ} {a : α} (h : step s a = some t) (as : List α) :
    run step s (a :: as) = run step t as := by
  rw [run_cons, h, Option.bind_some]

/-- The first step of a successful nonempty run. -/
theorem run_cons_eq_some {s u : σ} {a : α} {as : List α} :
    run step s (a :: as) = some u ↔ ∃ t, step s a = some t ∧ run step t as = some u := by
  rw [run_cons, Option.bind_eq_some_iff]

theorem run_append (s : σ) (as bs : List α) :
    run step s (as ++ bs) = (run step s as).bind fun t => run step t bs := by
  induction as generalizing s with
  | nil => rfl
  | cons a as ih =>
      rw [List.cons_append, run_cons, run_cons]
      cases step s a with
      | none => rfl
      | some t => exact ih t

/-- Every state that the schedule passes through satisfies `P`. -/
def Always (step : σ → α → Option σ) (P : σ → Prop) : σ → List α → Prop
  | s, [] => P s
  | s, a :: as => P s ∧ ∀ t, step s a = some t → Always step P t as

/-- Every step that the schedule takes is taken under the condition `C`. -/
def Meets (step : σ → α → Option σ) (C : σ → α → Prop) : σ → List α → Prop
  | _, [] => True
  | s, a :: as => ∀ t, step s a = some t → C s a ∧ Meets step C t as

/-- On a fixed schedule both can be evaluated. -/
instance Always.decidable {P : σ → Prop} [DecidablePred P] :
    ∀ (s : σ) (as : List α), Decidable (Always step P s as)
  | s, [] => inferInstanceAs (Decidable (P s))
  | s, a :: as =>
      match h : step s a with
      | none => decidable_of_iff (P s) ⟨fun hs => ⟨hs, fun _ ht => by rw [h] at ht; cases ht⟩,
          fun hs => hs.1⟩
      | some t =>
          have := Always.decidable (P := P) t as
          decidable_of_iff (P s ∧ Always step P t as)
            ⟨fun hs => ⟨hs.1, fun _ ht => Option.some.inj (h.symm.trans ht) ▸ hs.2⟩,
              fun hs => ⟨hs.1, hs.2 t h⟩⟩

instance Meets.decidable {C : σ → α → Prop} [∀ s a, Decidable (C s a)] :
    ∀ (s : σ) (as : List α), Decidable (Meets step C s as)
  | _, [] => isTrue trivial
  | s, a :: as =>
      match h : step s a with
      | none => isTrue fun _ ht => by rw [h] at ht; cases ht
      | some t =>
          have := Meets.decidable (C := C) t as
          decidable_of_iff (C s a ∧ Meets step C t as)
            ⟨fun hs _ ht => Option.some.inj (h.symm.trans ht) ▸ hs, fun hs => hs t h⟩

theorem Always.head {P : σ → Prop} {s : σ} {as : List α} (h : Always step P s as) : P s := by
  cases as with
  | nil => exact h
  | cons a as => exact h.1

/-- `Always` is about the states reached by the prefixes of the schedule. -/
theorem always_iff {P : σ → Prop} {s : σ} {as : List α} :
    Always step P s as ↔ ∀ pre, pre <+: as → ∀ t, run step s pre = some t → P t := by
  induction as generalizing s with
  | nil =>
      constructor
      · intro h pre hpre t ht
        rw [List.prefix_nil.mp hpre] at ht
        exact Option.some.inj ht ▸ h
      · intro h
        exact h [] (List.prefix_refl _) s rfl
  | cons a as ih =>
      constructor
      · rintro ⟨hs, hrest⟩ pre hpre t ht
        cases pre with
        | nil => exact Option.some.inj ht ▸ hs
        | cons b pre =>
            obtain ⟨rfl, htail⟩ := List.cons_prefix_cons.mp hpre
            obtain ⟨u, hu, ht⟩ := run_cons_eq_some.mp ht
            exact ih.mp (hrest u hu) pre htail t ht
      · intro h
        refine ⟨h [] List.nil_prefix s rfl, fun u hu => ih.mpr fun pre hpre t ht => ?_⟩
        exact h (a :: pre) (List.cons_prefix_cons.mpr ⟨rfl, hpre⟩) t
          ((run_cons_of_step hu pre).trans ht)

/-- The last state of a run is among its states. -/
theorem Always.last {P : σ → Prop} {s t : σ} {as : List α} (h : Always step P s as)
    (hrun : run step s as = some t) : P t :=
  always_iff.mp h as (List.prefix_refl _) t hrun

/-- A run is good from any of its steps on. -/
theorem Always.drop {P : σ → Prop} {s t u : σ} {a : α} {as bs : List α}
    (h : Always step P s (as ++ a :: bs)) (hrun : run step s as = some t)
    (hs : step t a = some u) : Always step P u bs := by
  induction as generalizing s with
  | nil =>
      obtain rfl := Option.some.inj hrun
      exact h.2 u hs
  | cons b as ih =>
      obtain ⟨v, hv, hrest⟩ := run_cons_eq_some.mp hrun
      exact ih (h.2 v hv) hrest

theorem Always.imp {P Q : σ → Prop} (hpq : ∀ s, P s → Q s) {s : σ} {as : List α}
    (h : Always step P s as) : Always step Q s as := by
  induction as generalizing s with
  | nil => exact hpq s h
  | cons a as ih => exact ⟨hpq s h.1, fun t ht => ih (h.2 t ht)⟩

/-- A condition on the actions alone. -/
theorem Meets.of_forall {C : α → Prop} {as : List α} (h : ∀ a ∈ as, C a) (s : σ) :
    Meets step (fun _ => C) s as := by
  induction as generalizing s with
  | nil => trivial
  | cons a as ih =>
      exact fun t _ => ⟨h a List.mem_cons_self, ih (fun b hb => h b (List.mem_cons_of_mem _ hb)) t⟩

section Invariant

variable {C : σ → α → Prop} {I P : σ → Prop}

/-- An invariant kept by every step under `C` holds throughout the runs whose
steps all meet `C`. -/
theorem Always.of_invariant (keep : ∀ s a t, I s → C s a → step s a = some t → I t)
    {s : σ} {as : List α} (init : I s) (meets : Meets step C s as) : Always step I s as := by
  induction as generalizing s with
  | nil => exact init
  | cons a as ih =>
      refine ⟨init, fun t ht => ?_⟩
      obtain ⟨hc, hrest⟩ := meets t ht
      exact ih (keep s a t init hc ht) hrest

/-- With no condition on the steps: an inductive invariant holds in every run. -/
theorem Always.of_inductive (keep : ∀ s a t, I s → step s a = some t → I t)
    {s : σ} (init : I s) (as : List α) : Always step I s as := by
  induction as generalizing s with
  | nil => exact init
  | cons a as ih => exact ⟨init, fun t ht => ih (keep s a t init ht)⟩

/-- If the steps under `C` keep an invariant that implies `P`, and from the
invariant every step outside `C` arrives in a state without `P`, then a run has
`P` throughout exactly when all its steps meet `C`. -/
theorem always_iff_meets (keep : ∀ s a t, I s → C s a → step s a = some t → I t)
    (good : ∀ s, I s → P s) (bad : ∀ s a t, I s → ¬ C s a → step s a = some t → ¬ P t)
    {s : σ} (init : I s) (as : List α) : Always step P s as ↔ Meets step C s as := by
  constructor
  · intro h
    induction as generalizing s with
    | nil => trivial
    | cons a as ih =>
        intro t ht
        have hc : C s a := by
          by_contra hc
          exact bad s a t init hc ht (h.2 t ht).head
        exact ⟨hc, ih (keep s a t init hc ht) (h.2 t ht)⟩
  · intro h
    exact (Always.of_invariant keep init h).imp good

/-- Two conditions that agree on the states of an invariant, which the steps under the second
keep, are met by the same runs. -/
theorem meets_iff_meets {D : σ → α → Prop}
    (keep : ∀ s a t, I s → D s a → step s a = some t → I t)
    (same : ∀ s a t, I s → step s a = some t → (C s a ↔ D s a)) {s : σ} (init : I s)
    (as : List α) : Meets step C s as ↔ Meets step D s as := by
  induction as generalizing s with
  | nil => exact Iff.rfl
  | cons a as ih =>
      apply forall_congr'
      intro t
      apply imp_congr_right
      intro ht
      rw [same s a t init ht]
      exact and_congr_right fun hd => ih (keep s a t init hd ht)

/-- If a step outside `C` leaves the invariant for good, the last state of a run
tells whether all its steps met `C`. -/
theorem run_cases {B : σ → Prop} (keep : ∀ s a t, I s → C s a → step s a = some t → I t)
    (fall : ∀ s a t, I s → ¬ C s a → step s a = some t → B t)
    (stay : ∀ s a t, B s → step s a = some t → B t)
    {s t : σ} (init : I s) {as : List α} (hrun : run step s as = some t) :
    Meets step C s as ∧ I t ∨ ¬ Meets step C s as ∧ B t := by
  have stays : ∀ {s : σ} (as : List α), B s → run step s as = some t → B t := by
    intro s as hB hrun
    exact (Always.of_inductive stay hB as).last hrun
  induction as generalizing s with
  | nil => exact .inl ⟨trivial, Option.some.inj hrun ▸ init⟩
  | cons a as ih =>
      obtain ⟨u, hu, hrest⟩ := run_cons_eq_some.mp hrun
      by_cases hc : C s a
      · rcases ih (keep s a u init hc hu) hrest with ⟨meets, hI⟩ | ⟨fails, hB⟩
        · refine .inl ⟨fun v hv => ?_, hI⟩
          rw [← Option.some.inj (hu.symm.trans hv)]
          exact ⟨hc, meets⟩
        · exact .inr ⟨fun meets => fails (meets u hu).2, hB⟩
      · exact .inr ⟨fun meets => hc (meets u hu).1, stays as (fall s a u init hc hu) hrest⟩

end Invariant

/-! ### Machines with outputs -/

namespace Mealy

variable {τ β ε : Type*}

/-- Final state and outputs of a total machine over an input sequence. -/
def run (step : σ → α → σ × β) : σ → List α → σ × List β
  | s, [] => (s, [])
  | s, a :: as =>
      let rest := run step (step s a).1 as
      (rest.1, (step s a).2 :: rest.2)

/-- The same for a machine that may fault; the first fault ends the run. -/
def exec (step : σ → α → Except ε (σ × β)) : σ → List α → Except ε (σ × List β)
  | s, [] => .ok (s, [])
  | s, a :: as => do
      let (s, out) ← step s a
      let (s, outs) ← exec step s as
      return (s, out :: outs)

/-- Every input is consumed in a state that meets `C`. -/
def Meets (step : σ → α → σ × β) (C : σ → α → Prop) : σ → List α → Prop
  | _, [] => True
  | s, a :: as => C s a ∧ Meets step C (step s a).1 as

theorem exec_cons {step : σ → α → Except ε (σ × β)} {s s' s'' : σ} {a : α} {out : β}
    {as : List α} {outs : List β} (first : step s a = .ok (s', out))
    (rest : exec step s' as = .ok (s'', outs)) :
    exec step s (a :: as) = .ok (s'', out :: outs) := by
  simp only [exec, first, rest, bind, Except.bind, pure, Except.pure]

/-- After its first step an execution goes on as an execution of the rest. -/
theorem exec_cons_eq_ok {step : σ → α → Except ε (σ × β)} {s s' s'' : σ} {a : α} {out : β}
    {as : List α} {outs : List β} (first : step s a = .ok (s', out))
    (all : exec step s (a :: as) = .ok (s'', outs)) :
    ∃ rest, exec step s' as = .ok (s'', rest) ∧ outs = out :: rest := by
  cases h : exec step s' as with
  | error e => simp [exec, first, h, bind, Except.bind] at all
  | ok r =>
      obtain ⟨u, rest⟩ := r
      have pair : (u, out :: rest) = (s'', outs) := by
        simpa [exec, first, h, bind, Except.bind, pure, Except.pure] using all
      obtain ⟨rfl, rfl⟩ := Prod.mk.inj pair
      exact ⟨rest, rfl, rfl⟩

theorem Meets.of_prefix {step : σ → α → σ × β} {C : σ → α → Prop} {s : σ} {as pre : List α}
    (h : Meets step C s as) (hpre : pre <+: as) : Meets step C s pre := by
  induction as generalizing s pre with
  | nil => rw [List.prefix_nil.mp hpre]; trivial
  | cons a as ih =>
      cases pre with
      | nil => trivial
      | cons b pre =>
          obtain ⟨rfl, htail⟩ := List.cons_prefix_cons.mp hpre
          exact ⟨h.1, ih h.2 htail⟩

/-- Forward simulation: a relation that the steps under `C` keep without a fault
and with equal outputs carries over to whole runs. -/
theorem simulates {conc : σ → α → Except ε (σ × β)} {abst : τ → α → τ × β} {R : σ → τ → Prop}
    {C : τ → α → Prop}
    (keep : ∀ s t a, R s t → C t a → ∃ s', conc s a = .ok (s', (abst t a).2) ∧ R s' (abst t a).1)
    {s : σ} {t : τ} (init : R s t) {as : List α} (meets : Meets abst C t as) :
    ∃ s', exec conc s as = .ok (s', (run abst t as).2) ∧ R s' (run abst t as).1 := by
  induction as generalizing s t with
  | nil => exact ⟨s, rfl, init⟩
  | cons a as ih =>
      obtain ⟨hc, hrest⟩ := meets
      obtain ⟨u, hu, hR⟩ := keep s t a init hc
      obtain ⟨v, hv, hR'⟩ := ih hR hrest
      exact ⟨v, exec_cons hu hv, hR'⟩

/-- If a step outside `C` ends outside `Good` at once, a history that is `Good` at
every moment meets `C`. -/
theorem meets_of_good {conc : σ → α → Except ε (σ × β)} {abst : τ → α → τ × β}
    {R Good : σ → τ → Prop} {C : τ → α → Prop}
    (keep : ∀ s t a, R s t → C t a → ∃ s', conc s a = .ok (s', (abst t a).2) ∧ R s' (abst t a).1)
    (bad : ∀ s t a s' out, R s t → ¬ C t a → conc s a = .ok (s', out) → ¬ Good s' (abst t a).1)
    {s : σ} {t : τ} (init : R s t) {as : List α}
    (good : ∀ pre, pre <+: as → ∃ s' outs, exec conc s pre = .ok (s', outs) ∧
      Good s' (run abst t pre).1) : Meets abst C t as := by
  induction as generalizing s t with
  | nil => trivial
  | cons a as ih =>
      have hc : C t a := by
        by_contra hc
        obtain ⟨s', outs, hs', hgood⟩ := good [a] (List.cons_prefix_cons.mpr ⟨rfl, List.nil_prefix⟩)
        cases first : conc s a with
        | error e => simp [exec, first, bind, Except.bind] at hs'
        | ok r =>
            obtain ⟨rest, hrest, -⟩ := exec_cons_eq_ok first hs'
            obtain ⟨rfl, -⟩ := Prod.mk.inj (Except.ok.inj hrest)
            exact bad s t a _ _ init hc first hgood
      obtain ⟨u, hu, hR⟩ := keep s t a init hc
      refine ⟨hc, ih hR fun pre hpre => ?_⟩
      obtain ⟨s', outs, hs', hgood⟩ := good (a :: pre) (List.cons_prefix_cons.mpr ⟨rfl, hpre⟩)
      obtain ⟨rest, hrest, -⟩ := exec_cons_eq_ok hu hs'
      exact ⟨s', rest, hrest, hgood⟩

end Mealy

end Machine
