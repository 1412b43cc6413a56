import ThreadJs.Lib.Machine
import ThreadJs.Serialize.Calls

/-!
Objects that hold saved data (`Serialized`).

* `saved_in_memory` — whatever objects are filled, filled again and destroyed, in any order and
  with any addresses that `new` gives: nothing is used that is not there, what is in use are the
  trees that were saved last, and loading gives what `jsLoad` makes of them.
-/

namespace ThreadJs.Serialize.Memory

open Machine Heap

variable {Addr D : Type}

structure State (I Addr D : Type) where
  heap : Addr → Option (Block Addr D)
  /-- Something was used that was not there. -/
  fault : Bool
  root : I → Option Addr
  /-- The value that was saved last. -/
  saved : I → Option (JsValue D)

inductive Action (I Addr D : Type) where
  /-- `js_save`, where `new` gives these addresses. -/
  | save (i : I) (v : JsValue D) (new : List Addr) (depth : ℕ)
  /-- `~Serialized` -/
  | destroy (i : I) (depth : ℕ)

variable {I : Type}

def init : State I Addr D where
  heap := fun _ => none
  fault := false
  root := fun _ => none
  saved := fun _ => none

section Step

variable [DecidableEq Addr] [DecidableEq I]

/-- `if (root) delete root` -/
def deleteRoot (depth : ℕ) (root : Option Addr) (h : Addr → Option (Block Addr D)) :
    Call (Addr → Option (Block Addr D)) :=
  match root with
  | none => return h
  | some p => delete depth p h

def State.save (s : State I Addr D) (i : I) (v : JsValue D) (new : List Addr) (depth : ℕ) :
    Call (State I Addr D) := do
  let (p, m) ← create (jsSave v) ⟨s.heap, new⟩
  let heap ← deleteRoot depth (s.root i) m.heap
  return { s with
    heap
    root := Function.update s.root i (some p)
    saved := Function.update s.saved i (some v) }

def State.destroy (s : State I Addr D) (i : I) (depth : ℕ) : Call (State I Addr D) := do
  let heap ← deleteRoot depth (s.root i) s.heap
  return { s with
    heap
    root := Function.update s.root i none
    saved := Function.update s.saved i none }

/-- A call that goes deeper than it has room is no step. -/
def State.after (s : State I Addr D) : Call (State I Addr D) → Option (State I Addr D)
  | .returned t => some t
  | .fault => some { s with fault := true }
  | .deeper => none

/-- `new` gives as many addresses as are asked for, and none that is in use. -/
def step (s : State I Addr D) : Action I Addr D → Option (State I Addr D)
  | .save i v new depth =>
      if Fresh s.heap new ∧ new.length = blocks (jsSave v) then s.after (s.save i v new depth)
      else none
  | .destroy i depth => s.after (s.destroy i depth)

end Step

/-- The blocks of one object. -/
inductive Holds (s : State I Addr D) (i : I) : List Addr → Prop where
  | empty (root : s.root i = none) (saved : s.saved i = none) : Holds s i []
  | tree {v p as} (root : s.root i = some p) (saved : s.saved i = some v)
      (rep : Rep s.heap (jsSave v) p as) : Holds s i as

structure Inv (s : State I Addr D) (holds : I → List Addr) : Prop where
  owned : Owned s.heap holds
  faultless : s.fault = false
  each : ∀ i, Holds s i (holds i)

variable {s t : State I Addr D} {i : I} {as : List Addr} {holds : I → List Addr}

theorem Holds.frame (held : Holds s i as) (root : t.root i = s.root i)
    (saved : t.saved i = s.saved i) (same : ∀ a ∈ as, t.heap a = s.heap a) : Holds t i as := by
  cases held with
  | empty noRoot nothing => exact .empty (root.trans noRoot) (saved.trans nothing)
  | tree isRoot value rep => exact .tree (root.trans isRoot) (saved.trans value) (rep.frame same)

theorem inv_init : Inv (init : State I Addr D) fun _ => [] :=
  ⟨owned_empty, rfl, fun _ => .empty rfl rfl⟩

/-- A call that returns, if it has room enough. -/
def Returns {α : Type} (call : ℕ → Call α) (a : α) : Prop :=
  (∀ depth, Call.Below (call depth) (.returned a)) ∧
    ∃ room, ∀ depth, room ≤ depth → call depth = .returned a

theorem after_eq_some {call : ℕ → Call (State I Addr D)} (returns : Returns call t) {depth : ℕ}
    {u : State I Addr D} (hs : s.after (call depth) = some u) : u = t := by
  rcases returns.1 depth with deeper | returned
  · rw [deeper] at hs
    cases hs
  · rw [returned] at hs
    exact (Option.some.inj hs).symm

section Step

variable [DecidableEq Addr]

theorem Holds.returns_delete (held : Holds s i as) (once : as.Nodup)
    {h : Addr → Option (Block Addr D)} (same : ∀ a ∈ as, h a = s.heap a) :
    ∃ h', Returns (fun depth => deleteRoot depth (s.root i) h) h' ∧ Deleted h h' as [] := by
  cases held with
  | empty root saved =>
      rw [root]
      exact ⟨h, ⟨fun _ => .refl _, 0, fun _ _ => rfl⟩, by simp, fun _ _ _ => rfl⟩
  | @tree v p as root saved rep =>
      rw [root]
      have enough : ∀ depth, blocks (jsSave v) ≤ depth → _ := fun depth =>
        delete_spec (jsSave v) depth (rep.frame same) once
      obtain ⟨h', deleted, spec⟩ := enough _ (Nat.le_refl _)
      have more : ∀ depth, blocks (jsSave v) ≤ depth → delete depth p h = .returned h' := by
        intro depth room
        rcases delete_mono room p h with deeper | eq
        · exact absurd (deeper.symm.trans deleted) (by simp)
        · exact eq.symm.trans deleted
      refine ⟨h', ⟨fun depth => ?_, _, more⟩, spec⟩
      have below := delete_mono (Nat.le_add_right depth (blocks (jsSave v))) p h
      rwa [more _ (Nat.le_add_left _ _)] at below

variable [DecidableEq I]

theorem Inv.returns_save (inv : Inv s holds) {v : JsValue D} {new : List Addr}
    (fresh : Fresh s.heap new) (count : new.length = blocks (jsSave v)) :
    ∃ t, Returns (s.save i v new) t ∧ Inv t (Function.update holds i new) := by
  obtain ⟨p, h₁, made, rep, frame₁⟩ := create_spec (jsSave v) fresh count []
  rw [List.append_nil] at made
  have old : ∀ j, ∀ a ∈ holds j, a ∉ new := fun j a held isNew =>
    inv.owned.notMem (fresh.unused a isNew) j held
  obtain ⟨h₂, ⟨below, room, returns⟩, gone, frame₂⟩ := (inv.each i).returns_delete
    (inv.owned.once i) fun a ha => frame₁ a (old i a ha)
  have own₁ : Owned h₁ (Function.update holds i (new ++ holds i)) :=
    inv.owned.alloc (i := i) fresh rep.used frame₁ (by simp) fun j other => by simp [other]
  have own₂ : Owned h₂ (Function.update holds i new) := by
    refine own₁.free (i := i) ?_ gone (fun a other => frame₂ a other (by simp)) fun j other => ?_
    · simpa using List.perm_append_comm
    · simp [other]
  refine ⟨{ s with
    heap := h₂
    root := Function.update s.root i (some p)
    saved := Function.update s.saved i (some v) }, ⟨fun depth => ?_, room, fun depth more => ?_⟩,
    own₂, inv.faultless, fun j => ?_⟩
  · rw [State.save, made]
    exact (below depth).bind fun _ => .refl _
  · have deleted := returns depth more
    simp only [State.save, made, Call.returned_bind, deleted, Call.pure_eq]
  · by_cases this : j = i
    · subst this
      rw [Function.update_self]
      refine .tree (Function.update_self ..) (Function.update_self ..) (rep.frame fun a ha => ?_)
      exact frame₂ a (fun held => old j a held ha) (by simp)
    · rw [Function.update_of_ne this]
      refine (inv.each j).frame (Function.update_of_ne this ..) (Function.update_of_ne this ..) ?_
      intro a ha
      have apart : a ∉ holds i := fun held => inv.owned.ne this held ha rfl
      exact (frame₂ a apart (by simp)).trans (frame₁ a (old j a ha))

theorem Inv.returns_destroy (inv : Inv s holds) (i : I) :
    ∃ t, Returns (s.destroy i) t ∧ Inv t (Function.update holds i []) := by
  obtain ⟨h', ⟨below, room, returns⟩, gone, frame⟩ := (inv.each i).returns_delete
    (inv.owned.once i) fun a _ => rfl
  have own : Owned h' (Function.update holds i []) := by
    refine inv.owned.free (i := i) ?_ gone (fun a other => frame a other (by simp)) ?_
    · simp
    · intro j other
      simp [other]
  refine ⟨{ s with
    heap := h'
    root := Function.update s.root i none
    saved := Function.update s.saved i none }, ⟨fun depth => ?_, room, fun depth more => ?_⟩,
    own, inv.faultless, fun j => ?_⟩
  · exact (below depth).bind fun _ => .refl _
  · have deleted := returns depth more
    simp only [State.destroy, deleted, Call.returned_bind, Call.pure_eq]
  · by_cases this : j = i
    · subst this
      rw [Function.update_self]
      exact .empty (Function.update_self ..) (Function.update_self ..)
    · rw [Function.update_of_ne this]
      refine (inv.each j).frame (Function.update_of_ne this ..) (Function.update_of_ne this ..) ?_
      exact fun a ha => frame a (fun held => inv.owned.ne this held ha rfl) (by simp)

theorem Inv.step {a : Action I Addr D} (inv : Inv s holds) (hs : Memory.step s a = some t) :
    ∃ holds', Inv t holds' := by
  cases a with
  | save i v new depth =>
      obtain ⟨⟨fresh, count⟩, hs⟩ := Option.ite_none_right_eq_some.mp hs
      obtain ⟨u, returns, next⟩ := inv.returns_save (i := i) fresh count
      exact ⟨_, after_eq_some returns hs ▸ next⟩
  | destroy i depth =>
      obtain ⟨u, returns, next⟩ := inv.returns_destroy i
      exact ⟨_, after_eq_some returns hs ▸ next⟩

/-! ### Main result -/

/-- What is true of the saved data at every moment. -/
structure Sound (s : State I Addr D) : Prop where
  /-- Nothing has been read, written or freed that was not there. -/
  faultless : s.fault = false
  /-- What is in use are the trees that were saved last. -/
  inUse : ∃ holds : I → List Addr, Owned s.heap holds ∧
    ∀ i, (holds i).length = (s.saved i).elim 0 fun v => blocks (jsSave v)
  loads : ∀ i v, s.saved i = some v → ∃ p, s.root i = some p ∧
    ∃ room, ∀ depth, room ≤ depth → restore s.heap depth p = .returned (jsLoad (jsSave v))
  /-- With room enough every call returns. -/
  saves : ∀ i v new, Fresh s.heap new → new.length = blocks (jsSave v) →
    ∃ room, ∀ depth, room ≤ depth → ∃ t, s.save i v new depth = .returned t
  destroys : ∀ i, ∃ room, ∀ depth, room ≤ depth → ∃ t, s.destroy i depth = .returned t

theorem Inv.sound (inv : Inv s holds) : Sound s where
  faultless := inv.faultless
  inUse := by
    refine ⟨holds, inv.owned, fun i => ?_⟩
    have each := inv.each i
    generalize holds i = held at each ⊢
    cases each with
    | empty root saved => rw [saved]; rfl
    | tree root saved rep => rw [saved, Option.elim_some, rep.length]
  loads := by
    intro i v saved
    have each := inv.each i
    generalize holds i = held at each
    cases each with
    | empty root nothing => rw [nothing] at saved; cases saved
    | @tree w p as root last rep =>
        obtain rfl := Option.some.inj (last.symm.trans saved)
        exact ⟨p, root, blocks (jsSave w), fun depth => restore_spec (jsSave w) depth rep⟩
  saves := by
    intro i v new fresh count
    obtain ⟨t, ⟨-, room, returns⟩, -⟩ := inv.returns_save (i := i) fresh count
    exact ⟨room, fun depth more => ⟨t, returns depth more⟩⟩
  destroys := by
    intro i
    obtain ⟨t, ⟨-, room, returns⟩, -⟩ := inv.returns_destroy i
    exact ⟨room, fun depth more => ⟨t, returns depth more⟩⟩

/-- **Saved data in memory**: in every run over any objects of `Serialized`, whatever addresses
`new` gives, nothing is used that is not there; each object holds one tree, that of the value
saved into it last, and loads it as `jsLoad` does; all other blocks have been given back; and
every call returns. -/
theorem saved_in_memory (as : List (Action I Addr D)) : Always step Sound init as :=
  (Always.of_inductive (I := fun s => ∃ holds, Inv s holds)
    (fun _ _ _ ⟨_, inv⟩ hs => inv.step hs) ⟨_, inv_init⟩ as).imp fun _ ⟨_, inv⟩ => inv.sound

end Step

end ThreadJs.Serialize.Memory
