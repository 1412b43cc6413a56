import ThreadJs.Lib.Machine

/-!
Machines that refine one another step by step, and machines that come to rest.

A step of the concrete machine is explained by a short run of the abstract one, which may be
empty. Inner actions are those that a machine takes by itself.

* `Refines.run` — a run is explained by a run.
* `Refines.always` — what holds throughout the abstract runs holds throughout the concrete ones.
* `Leads.trans` — runs to states with a property, one after the other.
* `only` — the machine that takes some of its actions only.
* `Ends.exists_atRest` — where the inner actions cannot go on for ever, they lead to a state in
  which none is enabled.
* `Refines.ends` — they cannot if each either makes a measure smaller behind the back of the
  abstract machine or is an inner action of it, and those cannot go on for ever.
-/

namespace Machine

variable {σ α τ β : Type*} {conc : σ → α → Option σ} {abst : τ → β → Option τ}

/-! ### Refinement -/

/-- One step is explained by a run. -/
def Refines (conc : σ → α → Option σ) (abst : τ → β → Option τ) (explain : σ → α → List β)
    (abs : σ → τ) : Prop :=
  ∀ s a s', conc s a = some s' → run abst (abs s) (explain s a) = some (abs s')

/-- The abstract actions that explain a run. -/
def explained (conc : σ → α → Option σ) (explain : σ → α → List β) : σ → List α → List β
  | _, [] => []
  | s, a :: as =>
      match conc s a with
      | none => []
      | some t => explain s a ++ explained conc explain t as

section Refinement

variable {explain : σ → α → List β} {abs : σ → τ}

theorem Refines.run (refines : Refines conc abst explain abs) {s s' : σ} {as : List α}
    (hrun : run conc s as = some s') :
    Machine.run abst (abs s) (explained conc explain s as) = some (abs s') := by
  induction as generalizing s with
  | nil =>
      obtain rfl := Option.some.inj hrun
      rfl
  | cons a as ih =>
      obtain ⟨u, first, rest⟩ := run_cons_eq_some.mp hrun
      rw [explained, first]
      dsimp only
      rw [run_append, refines s a u first, Option.bind_some, ih rest]

/-- What holds throughout the abstract runs carries over. -/
theorem Refines.always (refines : Refines conc abst explain abs) {P : τ → Prop} {s : σ}
    (abstract : ∀ bs, Always abst P (abs s) bs) (as : List α) :
    Always conc (fun s => P (abs s)) s as := by
  apply always_iff.mpr
  intro pre _ s' hs'
  exact (abstract _).last (refines.run hs')

end Refinement

/-! ### Where runs lead -/

section Leads

variable {step : σ → α → Option σ} {s t : σ} {P Q : σ → Prop}

/-- Some run leads from `s` to a state with the property. -/
def Leads (step : σ → α → Option σ) (s : σ) (P : σ → Prop) : Prop :=
  ∃ as t, run step s as = some t ∧ P t

theorem Leads.refl (h : P s) : Leads step s P := ⟨[], s, rfl, h⟩

theorem Leads.of_step {a : α} (hs : step s a = some t) (h : P t) : Leads step s P :=
  ⟨[a], t, run_cons_of_step hs [], h⟩

theorem Leads.trans (h : Leads step s P) (next : ∀ t, P t → Leads step t Q) : Leads step s Q := by
  obtain ⟨as, t, first, ht⟩ := h
  obtain ⟨bs, u, rest, hu⟩ := next t ht
  exact ⟨as ++ bs, u, by rw [run_append, first, Option.bind_some, rest], hu⟩

theorem Leads.imp (h : Leads step s P) (imp : ∀ t, P t → Q t) : Leads step s Q :=
  h.trans fun t ht => .refl (imp t ht)

/-- An invariant holds where a run leads. -/
theorem Leads.of_inductive {I : σ → Prop} (h : Leads step s P)
    (keep : ∀ s a t, I s → step s a = some t → I t) (init : I s) : ∃ t, I t ∧ P t := by
  obtain ⟨as, t, hrun, ht⟩ := h
  exact ⟨t, (Always.of_inductive keep init as).last hrun, ht⟩

end Leads

section Only

variable {step : σ → α → Option σ} {C : α → Prop} [DecidablePred C] {s t : σ} {a : α}

/-- The machine with some of its actions only. -/
def only (step : σ → α → Option σ) (C : α → Prop) [DecidablePred C] (s : σ) (a : α) : Option σ :=
  if C a then step s a else none

theorem only_eq_some : only step C s a = some t ↔ C a ∧ step s a = some t :=
  Option.ite_none_right_eq_some

end Only

/-! ### Rest -/

section Rest

variable {step : σ → α → Option σ} {inner : α → Prop}

/-- No inner action is enabled. -/
def AtRest (step : σ → α → Option σ) (inner : α → Prop) (s : σ) : Prop :=
  ∀ a, inner a → step s a = none

/-- One inner action leads from the second state to the first. -/
def After (step : σ → α → Option σ) (inner : α → Prop) (t s : σ) : Prop :=
  ∃ a, inner a ∧ step s a = some t

/-- The inner actions cannot go on for ever. -/
def Ends (step : σ → α → Option σ) (inner : α → Prop) (s : σ) : Prop := Acc (After step inner) s

/-- The inner actions lead to rest. -/
theorem Ends.exists_atRest {s : σ} (ends : Ends step inner s) :
    ∃ as t, (∀ a ∈ as, inner a) ∧ run step s as = some t ∧ AtRest step inner t := by
  induction ends with
  | intro s _ ih =>
      by_cases rests : AtRest step inner s
      · refine ⟨[], s, ?_, rfl, rests⟩
        intro a ha
        cases ha
      · obtain ⟨a, enabled⟩ := not_forall.mp rests
        obtain ⟨isInner, some⟩ := Classical.not_imp.mp enabled
        obtain ⟨t, ht⟩ := Option.ne_none_iff_exists'.mp some
        obtain ⟨as, u, only, hrun, rest⟩ := ih t ⟨a, isInner, ht⟩
        exact ⟨a :: as, u, List.forall_mem_cons.mpr ⟨isInner, only⟩,
          (run_cons_of_step ht as).trans hrun, rest⟩

/-- What the inner actions keep holds where they lead. -/
theorem run_keeps {I : σ → Prop} (keeps : ∀ s a t, I s → inner a → step s a = some t → I t)
    {s t : σ} {as : List α} (only : ∀ a ∈ as, inner a) (h : I s) (hrun : run step s as = some t) :
    I t := by
  induction as generalizing s with
  | nil => exact Option.some.inj hrun ▸ h
  | cons a as ih =>
      obtain ⟨u, first, rest⟩ := run_cons_eq_some.mp hrun
      obtain ⟨now, later⟩ := List.forall_mem_cons.mp only
      exact ih later (keeps s a u h now first) rest

/-- The inner actions keep an invariant, under which they descend in a well-founded order. -/
theorem Ends.of_keeps {ω : Type*} [WellFoundedRelation ω] {I : σ → Prop} (μ : σ → ω)
    (keeps : ∀ s a t, I s → inner a → step s a = some t →
      I t ∧ WellFoundedRelation.rel (μ t) (μ s))
    {s : σ} (h : I s) : Ends step inner s := by
  have acc := InvImage.accessible μ (WellFoundedRelation.wf.apply (μ s))
  induction acc with
  | intro s _ ih =>
      refine Acc.intro _ fun t ⟨a, isInner, hs⟩ => ?_
      obtain ⟨ht, descends⟩ := keeps s a t h isInner hs
      exact ih t descends ht

/-- The inner actions descend in a well-founded order. -/
theorem Ends.of_descends {ω : Type*} [WellFoundedRelation ω] (μ : σ → ω)
    (descends : ∀ s a t, inner a → step s a = some t → WellFoundedRelation.rel (μ t) (μ s))
    (s : σ) : Ends step inner s :=
  Ends.of_keeps (I := fun _ => True) μ
    (fun s a t _ isInner hs => ⟨trivial, descends s a t isInner hs⟩) trivial

/-- Inner actions that make the measure smaller come between those of the abstract machine. -/
theorem Refines.ends {explain : σ → α → List β} {abs : σ → τ}
    (refines : Refines conc abst explain abs) {inner : α → Prop} {innerAbst : β → Prop}
    (μ : σ → ℕ)
    (moves : ∀ s a t, inner a → conc s a = some t →
      explain s a = [] ∧ μ t < μ s ∨ ∃ b, innerAbst b ∧ explain s a = [b])
    {s : σ} (ends : Ends abst innerAbst (abs s)) : Ends conc inner s := by
  obtain ⟨d, hd⟩ : ∃ d, abs s = d := ⟨_, rfl⟩
  rw [hd] at ends
  -- Lexicographic: first the abstract state, then the measure.
  induction ends generalizing s with
  | intro d _ ihAbst =>
      induction hn : μ s using Nat.strongRecOn generalizing s with
      | _ n ihMeasure =>
          refine Acc.intro _ fun t after => ?_
          obtain ⟨a, isInner, hs⟩ := after
          have explained := refines s a t hs
          rcases moves s a t isInner hs with ⟨silent, less⟩ | ⟨b, isInnerAbst, one⟩
          · rw [silent] at explained
            have same : abs t = d := (Option.some.inj explained).symm.trans hd
            exact ihMeasure (μ t) (hn ▸ less) same rfl
          · rw [one, hd] at explained
            obtain ⟨u, hu, last⟩ := run_cons_eq_some.mp explained
            obtain rfl := Option.some.inj last
            exact ihAbst (abs t) ⟨b, isInnerAbst, hu⟩ rfl

end Rest

end Machine
