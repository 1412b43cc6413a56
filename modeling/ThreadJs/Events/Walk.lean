import Mathlib.Data.List.Perm.Subperm
import ThreadJs.Lib.Chain
import ThreadJs.Events.Registry

/-!
What a walk of `_iterator` does to the list of a name.

No link is ever rewritten, so whatever a walk takes out, the list afterwards
starts at the first node that it kept and runs on from there (`walk_from_first`):
the entries of `List.dropWhile`. The counters go down once for every node taken
out, kept in the list or not.
-/

namespace ThreadJs.Events

variable {Name Cb Data : Type}

/-- The registration that a node stands for. -/
def Dat.entry (d : Dat Cb) : Entry Cb := ⟨d.cb, d.remove⟩

/-- The addresses of a list of cells. -/
abbrev addrs (cs : List (Nat × Entry Cb)) : List Nat := cs.map Prod.fst

/-- The heap holds the listed registrations at their addresses. -/
def Stored (E : EventEmitter Name Cb) (cs : List (Nat × Entry Cb)) : Prop :=
  ∀ c ∈ cs, ∃ d, E.heap[c.1]? = some d ∧ d.entry = c.2

theorem Stored.lt {E : EventEmitter Name Cb} {cs : List (Nat × Entry Cb)} (h : Stored E cs)
    {a : Nat} (ha : a ∈ addrs cs) : a < E.heap.length := by
  obtain ⟨c, hc, rfl⟩ := List.mem_map.mp ha
  obtain ⟨d, hd, -⟩ := h c hc
  exact (List.getElem?_eq_some_iff.mp hd).1

/-- A list owns at most as many nodes as the heap has. -/
theorem Stored.length_le {E : EventEmitter Name Cb} {cs : List (Nat × Entry Cb)} (h : Stored E cs)
    (nodup : (addrs cs).Nodup) : cs.length ≤ E.heap.length := by
  have sub : addrs cs ⊆ List.range E.heap.length := fun a ha => List.mem_range.mpr (h.lt ha)
  simpa using (nodup.subperm sub).length_le

namespace EventEmitter

variable [DecidableEq Name]

/-- Store a name's handles and count `k` listeners less: all that a walk does. -/
def adjust (E : EventEmitter Name Cb) (name : Name) (hd : Handles) (k : Nat) :
    EventEmitter Name Cb :=
  { E with
    eventHandles := Function.update E.eventHandles name (some hd)
    eventCount := Function.update E.eventCount name ((E.eventCount name).map fun n => n - k)
    allCount := E.allCount - k }

@[simp] theorem adjust_next (E : EventEmitter Name Cb) (name : Name) (hd : Handles) (k : Nat) :
    (E.adjust name hd k).next = E.next := rfl

@[simp] theorem adjust_eventHandles (E : EventEmitter Name Cb) (name : Name) (hd : Handles)
    (k : Nat) : (E.adjust name hd k).eventHandles name = some hd := by
  simp [adjust]

theorem adjust_eventHandles_of_ne {E : EventEmitter Name Cb} {name other : Name} (h : other ≠ name)
    (hd : Handles) (k : Nat) : (E.adjust name hd k).eventHandles other = E.eventHandles other := by
  simp [adjust, h]

theorem adjust_zero {E : EventEmitter Name Cb} {name : Name} {hd : Handles}
    (h : E.eventHandles name = some hd) : E.adjust name hd 0 = E := by
  simp [adjust, ← h]

theorem adjust_adjust (E : EventEmitter Name Cb) (name : Name) (hd hd' : Handles) (k k' : Nat) :
    (E.adjust name hd k).adjust name hd' k' = E.adjust name hd' (k + k') := by
  simp only [adjust, Function.update_idem, Function.update_self, Option.map_map]
  congr 1
  · omega
  · congr 1
    cases E.eventCount name with
    | none => rfl
    | some n =>
        simp only [Option.map_some, Function.comp_apply, Option.some.injEq]
        omega

theorem remove_eq {E : EventEmitter Name Cb} {name : Name} {hd : Handles}
    (h : E.eventHandles name = some hd) (a : Nat) (p : Option Nat) :
    E.remove name a p = .ok (E.adjust name
      ⟨if some a = hd.s then E.next a else hd.s, if some a = hd.e then p else hd.e⟩ 1) := by
  simp [remove, h, adjust]

section Walk

variable {name : Name} {takes : Dat Cb → Bool} {m : Entry Cb → Bool}
  {pred : Option Nat → Option Nat} {calls : Dat Cb → List (Call Cb Data)}
  {out : Entry Cb → List (Call Cb Data)}

theorem visit_taken {E : EventEmitter Name Cb} {done : List (Call Cb Data)} {h : Nat} {d : Dat Cb}
    {hd : Handles} {p : Option Nat} (node : E.heap[h]? = some d) (taken : takes d = true)
    (handles : E.eventHandles name = some hd) :
    visit name takes pred calls (E, done) h p = .ok ((E.adjust name
      ⟨if some h = hd.s then E.next h else hd.s, if some h = hd.e then pred p else hd.e⟩ 1,
      done ++ calls d), true) := by
  simp [visit, node, taken, remove_eq handles, bind, Except.bind, pure, Except.pure]

theorem visit_kept {E : EventEmitter Name Cb} {done : List (Call Cb Data)} {h : Nat} {d : Dat Cb}
    {p : Option Nat} (node : E.heap[h]? = some d) (kept : takes d = false) :
    visit name takes pred calls (E, done) h p = .ok ((E, done ++ calls d), false) := by
  simp [visit, node, kept, pure, Except.pure]

variable (htakes : ∀ d, takes d = m d.entry) (hcalls : ∀ d, calls d = out d.entry)

include htakes hcalls

/-- Behind a node that was kept, `s` stays and nothing is unlinked; `e` stays too
if there is nothing left to take out. Induction on the rest of the list. -/
theorem walk_behind_kept (cs : List (Nat × Entry Cb)) :
    ∀ (fuel : Nat) (E : EventEmitter Name Cb) (done : List (Call Cb Data)) (h p s e : Option Nat),
      cs.length ≤ fuel → Chain E.next h (addrs cs) → Stored E cs →
      E.eventHandles name = some ⟨s, e⟩ → (∀ a ∈ addrs cs, some a ≠ s) →
      ∃ e', iterator (fun st => st.1.next) (visit name takes pred calls) fuel (E, done) h p =
          .ok (E.adjust name ⟨s, e'⟩ (cs.countP fun c => m c.2),
            done ++ cs.flatMap fun c => out c.2) ∧
        ((∀ c ∈ cs, m c.2 = false) → e' = e) := by
  induction cs with
  | nil =>
      intro fuel E done h p s e _ chain _ handles _
      obtain rfl := Chain.nil_iff.mp chain
      refine ⟨e, ?_, fun _ => rfl⟩
      cases fuel <;> simp [iterator, adjust_zero handles]
  | cons c cs ih =>
      intro fuel E done h p s e hfuel chain stored handles hs
      obtain ⟨rfl, tail⟩ := Chain.cons_iff.mp chain
      obtain ⟨d, node, hentry⟩ := stored c List.mem_cons_self
      obtain ⟨fuel, rfl⟩ : ∃ k, fuel = k + 1 := ⟨fuel - 1, by simp at hfuel; omega⟩
      have hfuel' : cs.length ≤ fuel := by simpa using hfuel
      have stored' : Stored E cs := fun x hx => stored x (List.mem_cons_of_mem _ hx)
      have hs' : ∀ a ∈ addrs cs, some a ≠ s := fun a ha => hs a (List.mem_cons_of_mem _ ha)
      have hne : some c.1 ≠ s := hs c.1 List.mem_cons_self
      cases hm : m c.2 with
      | true =>
          have taken : takes d = true := by rw [htakes, hentry, hm]
          obtain ⟨e', heq, -⟩ := ih fuel
            (E.adjust name ⟨s, if some c.1 = e then pred p else e⟩ 1)
            (done ++ calls d) (E.next c.1) p s _ hfuel' tail stored' (adjust_eventHandles ..) hs'
          refine ⟨e', ?_, fun hall => absurd (hall c List.mem_cons_self) (by simp [hm])⟩
          simp only [iterator, visit_taken node taken handles, if_neg hne, bind, Except.bind,
            adjust_next, if_true]
          rw [heq, adjust_adjust, List.countP_cons_of_pos (by simpa using hm), Nat.add_comm]
          simp [hcalls, hentry]
      | false =>
          have kept : takes d = false := by rw [htakes, hentry, hm]
          obtain ⟨e', heq, he⟩ := ih fuel E (done ++ calls d) (E.next c.1) (some c.1) s e hfuel'
            tail stored' handles hs'
          refine ⟨e', ?_, fun hall => he fun x hx => hall x (List.mem_cons_of_mem _ hx)⟩
          simp only [iterator, visit_kept node kept, bind, Except.bind]
          rw [if_neg (by simp), heq, List.countP_cons_of_neg (by simp [hm])]
          simp [hcalls, hentry]

/-- From the first node on: the nodes of the leading block that is to be taken
out really leave the list, the nodes behind the first kept one do not. -/
theorem walk_from_first (hpred : pred none = none) (cs : List (Nat × Entry Cb)) :
    ∀ (fuel : Nat) (E : EventEmitter Name Cb) (done : List (Call Cb Data)) (h e : Option Nat),
      cs.length ≤ fuel → Chain E.next h (addrs cs) → Stored E cs →
      E.eventHandles name = some ⟨h, e⟩ → (addrs cs).Nodup →
      ∃ e', iterator (fun st => st.1.next) (visit name takes pred calls) fuel (E, done) h none =
          .ok (E.adjust name ⟨(addrs (cs.dropWhile fun c => m c.2)).head?, e'⟩
            (cs.countP fun c => m c.2), done ++ cs.flatMap fun c => out c.2) ∧
        (e = (addrs cs).getLast? → Leading (fun c => m c.2) cs →
          e' = (addrs (cs.dropWhile fun c => m c.2)).getLast?) := by
  induction cs with
  | nil =>
      intro fuel E done h e _ chain _ handles _
      obtain rfl := Chain.nil_iff.mp chain
      refine ⟨e, ?_, fun he _ => he⟩
      have same := adjust_zero handles
      cases fuel <;> simpa [iterator] using same.symm
  | cons c cs ih =>
      intro fuel E done h e hfuel chain stored handles nodup
      obtain ⟨rfl, tail⟩ := Chain.cons_iff.mp chain
      obtain ⟨d, node, hentry⟩ := stored c List.mem_cons_self
      obtain ⟨fuel, rfl⟩ : ∃ k, fuel = k + 1 := ⟨fuel - 1, by simp at hfuel; omega⟩
      have hfuel' : cs.length ≤ fuel := by simpa using hfuel
      have stored' : Stored E cs := fun x hx => stored x (List.mem_cons_of_mem _ hx)
      obtain ⟨hnot, nodup'⟩ := List.nodup_cons.mp nodup
      cases hm : m c.2 with
      | true =>
          have taken : takes d = true := by rw [htakes, hentry, hm]
          -- `e` moves only when the node is the last one, and then becomes empty
          have last : e = (addrs (c :: cs)).getLast? →
              (if some c.1 = e then pred none else e) = (addrs cs).getLast? := by
            rintro rfl
            cases cs with
            | nil => simp [hpred]
            | cons c' cs =>
                have hlast : (addrs (c :: c' :: cs)).getLast? = (addrs (c' :: cs)).getLast? := by
                  simp [List.getLast?_cons_cons]
                rw [hlast, if_neg fun h => hnot (List.mem_of_getLast? h.symm)]
          obtain ⟨e', heq, he⟩ := ih fuel
            (E.adjust name ⟨E.next c.1, if some c.1 = e then pred none else e⟩ 1)
            (done ++ calls d) (E.next c.1) _ hfuel' tail stored' (adjust_eventHandles ..) nodup'
          rw [List.dropWhile_cons_of_pos (by simpa using hm)]
          refine ⟨e', ?_, fun hlast lead => he (last hlast) ?_⟩
          · simp only [iterator, visit_taken node taken handles, bind, Except.bind,
              adjust_next, if_true]
            rw [heq, adjust_adjust, List.countP_cons_of_pos (by simpa using hm), Nat.add_comm]
            simp [hcalls, hentry]
          · unfold Leading at lead ⊢
            rwa [List.dropWhile_cons_of_pos (by simpa using hm)] at lead
      | false =>
          have kept : takes d = false := by rw [htakes, hentry, hm]
          obtain ⟨e', heq, he⟩ := walk_behind_kept htakes hcalls cs fuel E (done ++ calls d)
            (E.next c.1) (some c.1) (some c.1) e hfuel' tail stored' handles
            (fun a ha h => hnot (Option.some.inj h ▸ ha))
          rw [List.dropWhile_cons_of_neg (by simp [hm])]
          refine ⟨e', ?_, fun hlast lead => ?_⟩
          · simp only [iterator, visit_kept node kept, bind, Except.bind]
            rw [if_neg (by simp), heq, List.countP_cons_of_neg (by simp [hm])]
            simp [hcalls, hentry]
          · unfold Leading at lead
            rw [List.dropWhile_cons_of_neg (by simp [hm])] at lead
            exact (he fun x hx => lead x (List.mem_cons_of_mem _ hx)).trans hlast

end Walk

end EventEmitter

end ThreadJs.Events
