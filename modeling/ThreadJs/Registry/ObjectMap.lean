import ThreadJs.Lib.Table

/-!
`ObjectMap` (`data.h`), the table that turns ids into objects.

The map carries the two facts that its users rely on: ids are handed out once, and
no id is handed out for two objects. `get_eq_some` then says that `get` is membership.
-/

namespace ThreadJs.Registry

structure ObjectMap (α : Type) where
  pool : List (Nat × α)
  /-- `__object_id`, the last id that was handed out. -/
  objectId : Nat
  handedOut : ∀ e ∈ pool, 0 < e.1 ∧ e.1 ≤ objectId
  once : (pool.map Prod.fst).Nodup

namespace ObjectMap

variable {α : Type} {m : ObjectMap α}

def empty : ObjectMap α := ⟨[], 0, nofun, List.nodup_nil⟩

def get (m : ObjectMap α) (id : Nat) : Option α :=
  if id = 0 then none else m.pool.lookup id

/-- The map with a new object, whose id is then `objectId`. -/
def put (m : ObjectMap α) (point : α) : ObjectMap α where
  pool := (m.objectId + 1, point) :: m.pool
  objectId := m.objectId + 1
  handedOut := by
    intro e he
    rcases List.mem_cons.mp he with rfl | he
    · exact ⟨Nat.succ_pos _, Nat.le_refl _⟩
    · exact ⟨(m.handedOut e he).1, Nat.le_succ_of_le (m.handedOut e he).2⟩
  once := by
    refine List.nodup_cons.mpr ⟨fun known => ?_, m.once⟩
    obtain ⟨e, he, same⟩ := List.mem_map.mp known
    exact Nat.not_succ_le_self _ (same ▸ (m.handedOut e he).2)

def rm (m : ObjectMap α) (id : Nat) : ObjectMap α where
  pool := m.pool.filter (·.1 != id)
  objectId := m.objectId
  handedOut := fun e he => m.handedOut e (List.mem_filter.mp he).1
  once := m.once.sublist (List.filter_sublist.map Prod.fst)

theorem get_eq_some {id : Nat} {a : α} : m.get id = some a ↔ (id, a) ∈ m.pool := by
  unfold get
  split
  · next zero =>
      refine ⟨nofun, fun known => ?_⟩
      exact absurd zero (Nat.pos_iff_ne_zero.mp (m.handedOut _ known).1)
  · exact Table.lookup_eq_some_iff m.once

@[simp] theorem mem_put {e : Nat × α} {a : α} :
    e ∈ (m.put a).pool ↔ e = (m.objectId + 1, a) ∨ e ∈ m.pool := List.mem_cons

@[simp] theorem mem_rm {e : Nat × α} {id : Nat} : e ∈ (m.rm id).pool ↔ e ∈ m.pool ∧ e.1 ≠ id := by
  simp [rm]

/-- Two entries under one id are one entry. -/
theorem eq_of_id_eq {e e' : Nat × α} (he : e ∈ m.pool) (he' : e' ∈ m.pool) (same : e.1 = e'.1) :
    e = e' := List.inj_on_of_nodup_map m.once he he' same

end ObjectMap

end ThreadJs.Registry
