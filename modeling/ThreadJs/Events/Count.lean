import Mathlib.Algebra.Order.BigOperators.Group.Finset
import ThreadJs.Events.Refinement

/-!
The listener counters of `lib/events.js`.

`on` counts up and `_remove` counts down, whether or not `_remove` really takes
the node out of its list. So the counters stay those of the registry, and they
agree with what `emit` would call exactly as long as the lists do
(`counts_agree_iff_head_removals`).
-/

namespace ThreadJs.Events

open Machine

variable {Name Cb Data : Type}

/-- The counters tell the truth: per name the number of calls that an `emit` would
make, in total their sum over all names, never a negative number; and
`noListener()` means that no `emit` calls anything. -/
structure CountsAgree [DecidableEq Name] (Data : Type) (E : EventEmitter Name Cb) : Prop where
  perName : ∀ name (data : Data), ∃ E' calls, E.emit name data = .ok (E', calls) ∧
    E.listenerCount (some name) = (calls.length : Int)
  total : ∃ S : Finset Name, (∀ name ∉ S, E.listenerCount (some name) = 0) ∧
    E.listenerCount none = ∑ name ∈ S, E.listenerCount (some name)
  nonneg : ∀ name, 0 ≤ E.listenerCount name
  noListener : E.noListener = true ↔ ∀ name (data : Data) E' calls,
    E.emit name data = .ok (E', calls) → calls = []

theorem Rep.listenerCount_eq {E : EventEmitter Name Cb} {cells : Name → List (Nat × Entry Cb)}
    (h : Rep E cells) (name : Name) : E.listenerCount (some name) = (cells name).length := by
  rw [EventEmitter.listenerCount, h.count name]
  cases hn : E.eventHandles name with
  | none => simp [h.cells_eq_nil hn]
  | some hd => simp

variable [DecidableEq Name]

/-- As long as the lists are those of the registry, the counters are right. -/
theorem Refines.countsAgree [Inhabited Data] {E : EventEmitter Name Cb} {r : Registry Name Cb}
    (h : Refines E r) : CountsAgree Data E := by
  obtain ⟨cells, rep, -⟩ := h
  obtain ⟨S, hS⟩ := rep.finite
  have emit : ∀ name (data : Data), ∃ E', E.emit name data =
      .ok (E', (cells name).map fun c => (c.2.cb, data)) := fun name data =>
    emit_of_chain (rep.chain name) (rep.stored name) (rep.nodup name) data
  have total : E.allCount = ∑ name ∈ S, ((cells name).length : Int) := rep.total S hS
  have total_nonneg : 0 ≤ E.allCount := by
    rw [total]
    exact Finset.sum_nonneg fun name _ => Int.natCast_nonneg _
  refine ⟨fun name data => ?_, ⟨S, fun name hname => ?_, ?_⟩, fun name => ?_, ?_, ?_⟩
  · obtain ⟨E', hE'⟩ := emit name data
    exact ⟨E', _, hE', by rw [rep.listenerCount_eq, List.length_map]⟩
  · rw [rep.listenerCount_eq, hS name hname]
    rfl
  · simp only [rep.listenerCount_eq]
    exact total
  · cases name with
    | none => exact total_nonneg
    | some name =>
        rw [rep.listenerCount_eq]
        exact Int.natCast_nonneg _
  · intro idle name data E' calls hcalls
    have hle : ∑ name ∈ S, ((cells name).length : Int) ≤ 0 := by
      rw [← total]
      exact of_decide_eq_true idle
    have hnil : cells name = [] := by
      by_cases hname : name ∈ S
      · have each := Finset.single_le_sum (f := fun name => ((cells name).length : Int))
          (fun name _ => Int.natCast_nonneg _) hname
        have hlen : ((cells name).length : Int) ≤ 0 := each.trans hle
        exact List.length_eq_zero_iff.mp (by omega)
      · exact hS name hname
    obtain ⟨E'', hE''⟩ := emit name data
    rw [hcalls, hnil] at hE''
    exact (Prod.mk.inj (Except.ok.inj hE'')).2
  · intro quiet
    apply decide_eq_true
    have hzero : E.allCount = 0 := by
      rw [total]
      apply Finset.sum_eq_zero
      intro name _
      obtain ⟨E', hE'⟩ := emit name default
      have hnil := quiet name default E' _ hE'
      simp [List.map_eq_nil_iff.mp hnil]
    exact hzero.le

/-- After a walk over a list that it was to take more than a leading block from,
the counter of the name is smaller than the number of calls of the next `emit`. -/
theorem not_countsAgree_of_walk [Inhabited Data] {E E' : EventEmitter Name Cb}
    {r : Registry Name Cb} (h : Refines E r) (name : Name) {takes : Dat Cb → Bool}
    {m : Entry Cb → Bool} {pred : Option Nat → Option Nat} {calls : Dat Cb → List (Call Cb Data)}
    (out : Entry Cb → List (Call Cb Data)) {done : List (Call Cb Data)} (hpred : pred none = none)
    (htakes : ∀ d, takes d = m d.entry) (hcalls : ∀ d, calls d = out d.entry)
    (walk : E.walk name takes pred calls = .ok (E', done)) (inner : ¬ Leading m (r name)) :
    ¬ CountsAgree Data E' := by
  obtain ⟨cells, rep, hr⟩ := h
  intro agree
  obtain ⟨_, hemit⟩ := rep.emit_after_walk name hpred htakes hcalls walk (default : Data)
  obtain ⟨_, calls', hemit', hcount⟩ := agree.perName name (default : Data)
  obtain ⟨-, rfl⟩ := Prod.mk.inj (Except.ok.inj (hemit.symm.trans hemit'))
  rcases rep.walk_eq name hpred htakes hcalls with ⟨hn, -⟩ | ⟨e, handled, heq, -⟩
  · apply inner
    rw [← hr name, rep.cells_eq_nil hn]
    exact fun x hx => by cases hx
  · obtain ⟨rfl, -⟩ := Prod.mk.inj (Except.ok.inj (heq.symm.trans walk))
    obtain ⟨hd, hhd⟩ := Option.isSome_iff_exists.mp handled
    rw [← hr name] at inner
    refine inner (leading_map.mpr (leading_iff_length.mpr ?_))
    simp only [EventEmitter.listenerCount, EventEmitter.adjust, Function.update_self, rep.count,
      hhd, Option.map_some, Option.getD_some, List.length_map, dropped] at hcount
    exact hcount.symm

theorem not_countsAgree_of_inner [DecidableEq Cb] [Inhabited Data] {E E' : EventEmitter Name Cb}
    {r : Registry Name Cb} (h : Refines E r) (op : Op Name Cb Data) (inner : ¬ HeadRemoval r op)
    {done : List (Call Cb Data)} (step : E.step op = .ok (E', done)) : ¬ CountsAgree Data E' := by
  obtain ⟨name, _, m, _, _, out, hpred, htakes, hcalls, walk, more, -⟩ :=
    walk_of_inner op inner step
  exact not_countsAgree_of_walk h name out hpred htakes hcalls walk more

/-- **The counters agree with the lists** at every moment of a history if and only
if each of its removals takes out a leading block of the list at that moment. -/
theorem counts_agree_iff_head_removals [DecidableEq Cb] [Inhabited Data]
    (ops : List (Op Name Cb Data)) :
    (∀ pre, pre <+: ops → ∃ (E : EventEmitter Name Cb) (outs : List (List (Call Cb Data))),
      Mealy.exec EventEmitter.step .new pre = .ok (E, outs) ∧ CountsAgree Data E) ↔
    Mealy.Meets Registry.step HeadRemoval Registry.empty ops := by
  constructor
  · intro agree
    exact @Mealy.meets_of_good _ _ _ _ _ EventEmitter.step Registry.step Refines
      (fun E _ => CountsAgree Data E) HeadRemoval (fun _ _ op h hc => h.step op hc)
      (fun _ _ op _ _ h hc step => not_countsAgree_of_inner h op hc step) _ _ refines_new _ agree
  · intro head pre hpre
    obtain ⟨E, hE, refines⟩ := emitter_refines_registry pre (head.of_prefix hpre)
    exact ⟨E, _, hE, refines.countsAgree⟩

/-- A once listener behind a lasting one stays linked and is counted down again by
every `emit`: the count of the name becomes negative while the name is called. -/
theorem count_negative :
    (Mealy.exec EventEmitter.step (.new : EventEmitter String Nat)
        [.on "a" 1, .once "a" 2, .emit "a" (), .emit "a" (), .emit "a" ()]).map
      (fun r => (r.1.listenerCount (some "a"), r.1.noListener, r.2.getLast?)) =
      .ok (-1, true, some [(1, ()), (2, ())]) := by
  decide

end ThreadJs.Events
