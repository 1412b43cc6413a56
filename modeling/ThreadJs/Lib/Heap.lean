import Mathlib.Data.Finset.Dedup
import Mathlib.Data.Fintype.EquivFin
import Mathlib.Data.List.Perm.Basic
import Mathlib.Logic.Function.Basic

/-!
Heaps and the owners of their blocks.

A heap says which addresses are in use and what they hold. Every block in use belongs to one
owner, who has its address once (`Owned`), so that it can be given back once.

* `Owned.alloc`, `Owned.free` — an owner gets new blocks, or gives some back.
* `Owned.move` — all blocks of an owner go to another one.
* `Owned.exists_unused` — the owners do not have every address.

`Call` is for programs on a heap. A program that reads, writes or frees what is not in use has a
fault, and a recursion may need more depth than it is given.
-/

namespace Heap

universe u

variable {A B I : Type*} {h h' : A → Option B} {holds holds' : I → List A}

/-- The addresses that the owners hold are those in use, each held once. -/
structure Owned (h : A → Option B) (holds : I → List A) : Prop where
  inUse : ∀ a, h a ≠ none ↔ ∃ i, a ∈ holds i
  once : ∀ i, (holds i).Nodup
  apart : ∀ i j a, a ∈ holds i → a ∈ holds j → i = j

theorem owned_empty : Owned (fun _ : A => (none : Option B)) fun _ : I => [] where
  inUse := by simp
  once := fun _ => List.nodup_nil
  apart := by simp

theorem Owned.exists_block (own : Owned h holds) {i : I} {a : A} (held : a ∈ holds i) :
    ∃ b, h a = some b :=
  Option.ne_none_iff_exists'.mp ((own.inUse a).mpr ⟨i, held⟩)

theorem Owned.notMem (own : Owned h holds) {a : A} (unused : h a = none) (i : I) : a ∉ holds i :=
  fun held => (own.inUse a).mpr ⟨i, held⟩ unused

/-- What one owner does is not seen by another. -/
theorem Owned.ne (own : Owned h holds) {i j : I} (other : j ≠ i) {a b : A} (mine : a ∈ holds i)
    (others : b ∈ holds j) : b ≠ a := by
  rintro rfl
  exact other (own.apart j i b others mine)

theorem Owned.perm (own : Owned h holds) (same : ∀ i, (holds' i).Perm (holds i)) :
    Owned h holds' where
  inUse a := by
    rw [own.inUse]
    exact exists_congr fun i => (same i).mem_iff.symm
  once i := (same i).nodup_iff.mpr (own.once i)
  apart i j a hi hj := own.apart i j a ((same i).mem_iff.mp hi) ((same j).mem_iff.mp hj)

/-- Finitely many owners leave some address unused. -/
theorem Owned.exists_unused [Infinite A] (own : Owned h holds) {owners : List I}
    (all : ∀ i, i ∈ owners) : ∃ a, h a = none := by
  classical
  obtain ⟨a, unheld⟩ := Infinite.exists_notMem_finset (owners.flatMap holds).toFinset
  refine ⟨a, ?_⟩
  by_contra used
  obtain ⟨i, held⟩ := (own.inUse a).mp used
  exact unheld (List.mem_toFinset.mpr (List.mem_flatMap.mpr ⟨i, all i, held⟩))

/-- Addresses that may be given to new blocks. -/
structure Fresh (h : A → Option B) (new : List A) : Prop where
  once : new.Nodup
  unused : ∀ a ∈ new, h a = none

instance [DecidableEq A] (h : A → Option B) (new : List A) : Decidable (Fresh h new) :=
  decidable_of_iff (new.Nodup ∧ ∀ a ∈ new, (h a).isNone = true)
    ⟨fun both => ⟨both.1, fun a ha => Option.isNone_iff_eq_none.mp (both.2 a ha)⟩,
      fun fresh => ⟨fresh.once, fun a ha => Option.isNone_iff_eq_none.mpr (fresh.unused a ha)⟩⟩

theorem Fresh.congr {new : List A} (fresh : Fresh h new) (same : ∀ a ∈ new, h' a = h a) :
    Fresh h' new :=
  ⟨fresh.once, fun a ha => (same a ha).trans (fresh.unused a ha)⟩

theorem Fresh.notMem {new : List A} (fresh : Fresh h new) {a : A} {b : B} (used : h a = some b) :
    a ∉ new := fun ha => Option.some_ne_none b (used.symm.trans (fresh.unused a ha))

theorem Fresh.left {first last : List A} (fresh : Fresh h (first ++ last)) : Fresh h first where
  once := (List.nodup_append.mp fresh.once).1
  unused := fun a ha => fresh.unused a (List.mem_append_left _ ha)

/-- The others are fresh when the first are taken. -/
theorem Fresh.right {first last : List A} (fresh : Fresh h (first ++ last))
    (frame : ∀ a, a ∉ first → h' a = h a) : Fresh h' last where
  once := (List.nodup_append.mp fresh.once).2.1
  unused := by
    intro a ha
    rw [frame a fun early => (List.nodup_append.mp fresh.once).2.2 a early a ha rfl]
    exact fresh.unused a (List.mem_append_right _ ha)

theorem Fresh.head {a : A} {new : List A} (fresh : Fresh h (a :: new)) : h a = none :=
  fresh.unused a List.mem_cons_self

/-- An owner gets new blocks. -/
theorem Owned.alloc (own : Owned h holds) {i : I} {new : List A} (fresh : Fresh h new)
    (used : ∀ a ∈ new, h' a ≠ none)
    (frame : ∀ a, a ∉ new → h' a = h a) (given : (holds' i).Perm (new ++ holds i))
    (same : ∀ j, j ≠ i → holds' j = holds j) : Owned h' holds' := by
  have origin : ∀ j a, a ∈ holds' j ↔ a ∈ holds j ∨ j = i ∧ a ∈ new := by
    intro j a
    by_cases mine : j = i
    · subst mine
      rw [given.mem_iff, List.mem_append, or_comm]
      simp
    · simp [same j mine, mine]
  refine ⟨fun a => ?_, fun j => ?_, fun j k a hj hk => ?_⟩
  · by_cases isNew : a ∈ new
    · exact iff_of_true (used a isNew) ⟨i, (origin i a).mpr (.inr ⟨rfl, isNew⟩)⟩
    · rw [frame a isNew, own.inUse]
      exact exists_congr fun j => by simp [origin, isNew]
  · by_cases mine : j = i
    · subst mine
      refine given.nodup_iff.mpr (List.nodup_append.mpr ⟨fresh.once, own.once j, ?_⟩)
      rintro a isNew _ held rfl
      exact own.notMem (fresh.unused a isNew) j held
    · rw [same j mine]
      exact own.once j
  · rcases (origin j a).mp hj with oldJ | ⟨rfl, isNew⟩
    · rcases (origin k a).mp hk with oldK | ⟨-, isNew⟩
      · exact own.apart j k a oldJ oldK
      · exact absurd oldJ (own.notMem (fresh.unused a isNew) j)
    · rcases (origin k a).mp hk with oldK | ⟨rfl, -⟩
      · exact absurd oldK (own.notMem (fresh.unused a isNew) k)
      · rfl

/-- An owner gives blocks back. -/
theorem Owned.free (own : Owned h holds) {i : I} {old : List A}
    (left : (holds i).Perm (old ++ holds' i)) (gone : ∀ a ∈ old, h' a = none)
    (frame : ∀ a, a ∉ old → h' a = h a) (same : ∀ j, j ≠ i → holds' j = holds j) :
    Owned h' holds' := by
  obtain ⟨-, once, apart⟩ := List.nodup_append.mp (left.nodup_iff.mp (own.once i))
  have held : ∀ a ∈ old, a ∈ holds i := fun a isOld =>
    left.mem_iff.mpr (List.mem_append_left _ isOld)
  have origin : ∀ j a, a ∈ holds' j ↔ a ∈ holds j ∧ a ∉ old := by
    intro j a
    by_cases mine : j = i
    · subst mine
      rw [left.mem_iff, List.mem_append]
      constructor
      · exact fun kept => ⟨.inr kept, fun isOld => apart a isOld a kept rfl⟩
      · rintro ⟨isOld | kept, notOld⟩
        · exact absurd isOld notOld
        · exact kept
    · rw [same j mine]
      exact ⟨fun kept => ⟨kept, fun isOld => own.ne mine (held a isOld) kept rfl⟩, And.left⟩
  refine ⟨fun a => ?_, fun j => ?_, fun j k a hj hk => ?_⟩
  · by_cases isOld : a ∈ old
    · refine iff_of_false (fun used => used (gone a isOld)) ?_
      rintro ⟨j, kept⟩
      exact ((origin j a).mp kept).2 isOld
    · rw [frame a isOld, own.inUse]
      exact exists_congr fun j => by simp [origin, isOld]
  · by_cases mine : j = i
    · subst mine
      exact once
    · rw [same j mine]
      exact own.once j
  · exact own.apart j k a ((origin j a).mp hj).1 ((origin k a).mp hk).1

/-- All blocks of an owner go to another one. -/
theorem Owned.move (own : Owned h holds) {i j : I} (other : j ≠ i)
    (given : (holds' j).Perm (holds j ++ holds i)) (left : holds' i = [])
    (same : ∀ k, k ≠ i → k ≠ j → holds' k = holds k) : Owned h holds' := by
  have origin : ∀ k a, a ∈ holds' k ↔ a ∈ holds k ∧ k ≠ i ∨ k = j ∧ a ∈ holds i := by
    intro k a
    by_cases atI : k = i
    · simp [atI, left, other.symm]
    · by_cases atJ : k = j
      · rw [atJ, given.mem_iff]
        simp [other]
      · simp [same k atI atJ, atI, atJ]
  refine ⟨fun a => ?_, fun k => ?_, fun k l a hk hl => ?_⟩
  · rw [own.inUse]
    constructor
    · rintro ⟨k, hk⟩
      by_cases atI : k = i
      · exact ⟨j, (origin j a).mpr (.inr ⟨rfl, atI ▸ hk⟩)⟩
      · exact ⟨k, (origin k a).mpr (.inl ⟨hk, atI⟩)⟩
    · rintro ⟨k, hk⟩
      rcases (origin k a).mp hk with ⟨inK, -⟩ | ⟨-, inI⟩
      · exact ⟨k, inK⟩
      · exact ⟨i, inI⟩
  · by_cases atI : k = i
    · rw [atI, left]
      exact List.nodup_nil
    · by_cases atJ : k = j
      · rw [atJ, given.nodup_iff]
        refine List.nodup_append.mpr ⟨own.once j, own.once i, ?_⟩
        exact fun a hj b hi => own.ne other hi hj
      · rw [same k atI atJ]
        exact own.once k
  · rcases (origin k a).mp hk with ⟨inK, notI⟩ | ⟨rfl, inI⟩
    · rcases (origin l a).mp hl with ⟨inL, -⟩ | ⟨rfl, inI⟩
      · exact own.apart k l a inK inL
      · exact absurd (own.apart k i a inK inI) notI
    · rcases (origin l a).mp hl with ⟨inL, notI⟩ | ⟨rfl, -⟩
      · exact absurd (own.apart l i a inL inI) notI
      · rfl

/-! ### One block -/

section Block

variable [DecidableEq A] {i : I} {a : A}

theorem Owned.alloc_one (own : Owned h holds) (unused : h a = none) (b : B)
    (given : (holds' i).Perm (a :: holds i)) (same : ∀ j, j ≠ i → holds' j = holds j) :
    Owned (Function.update h a (some b)) holds' := by
  have fresh : Fresh h [a] := ⟨List.nodup_singleton a, by simpa using unused⟩
  refine own.alloc fresh ?_ ?_ given same
  · simp
  · intro c other
    exact Function.update_of_ne (by simpa using other) _ _

theorem Owned.free_one (own : Owned h holds) (left : (holds i).Perm (a :: holds' i))
    (same : ∀ j, j ≠ i → holds' j = holds j) : Owned (Function.update h a none) holds' := by
  have left : (holds i).Perm ([a] ++ holds' i) := left
  refine own.free left ?_ ?_ same
  · simp
  · intro c other
    exact Function.update_of_ne (by simpa using other) _ _

end Block

/-! ### Programs -/

/-- What becomes of a call. -/
inductive Call (α : Type u) where
  | returned (a : α)
  | fault
  /-- The recursion goes deeper than it was given room for. -/
  | deeper

namespace Call

variable {α β : Type u}

def bind : Call α → (α → Call β) → Call β
  | .returned a, f => f a
  | .fault, _ => .fault
  | .deeper, _ => .deeper

instance : Monad Call where
  pure := .returned
  bind := bind

@[simp] theorem returned_bind (a : α) (f : α → Call β) : (Call.returned a >>= f) = f a := rfl

@[simp] theorem pure_eq (a : α) : (pure a : Call α) = .returned a := rfl

/-- `for (i = start; i < start + count; ++i)` -/
def loop (body : ℕ → α → Call α) : (start count : ℕ) → α → Call α
  | _, 0, s => pure s
  | start, count + 1, s => do
      let s ← body start s
      loop body (start + 1) count s

/-- With more room a call does the same, or what it had no room for. -/
def Below (x y : Call α) : Prop := x = .deeper ∨ x = y

theorem Below.refl (x : Call α) : Below x x := .inr rfl

theorem Below.trans {x y z : Call α} (first : Below x y) (last : Below y z) : Below x z := by
  rcases first with deeper | rfl
  · exact .inl deeper
  · exact last

theorem Below.bind {x y : Call α} {f g : α → Call β} (first : Below x y)
    (rest : ∀ a, Below (f a) (g a)) : Below (x >>= f) (y >>= g) := by
  rcases first with rfl | rfl
  · exact .inl rfl
  · cases x with
    | returned a => exact rest a
    | fault => exact .inr rfl
    | deeper => exact .inl rfl

theorem Below.loop {f g : ℕ → α → Call α} (body : ∀ i s, Below (f i s) (g i s))
    (start count : ℕ) (s : α) : Below (loop f start count s) (loop g start count s) := by
  induction count generalizing start s with
  | zero => exact .refl _
  | succ count ih => exact (body start s).bind fun s => ih (start + 1) s

end Call

section Program

def read (h : A → Option B) (a : A) : Call B :=
  match h a with
  | some b => .returned b
  | none => .fault

theorem read_eq {a : A} {b : B} (held : h a = some b) : read h a = .returned b := by
  rw [read, held]

variable [DecidableEq A]

def write (h : A → Option B) (a : A) (b : B) : Call (A → Option B) :=
  match h a with
  | some _ => .returned (Function.update h a (some b))
  | none => .fault

/-- `delete` -/
def free (h : A → Option B) (a : A) : Call (A → Option B) :=
  match h a with
  | some _ => .returned (Function.update h a none)
  | none => .fault

/-- One block is written, or made. -/
structure Wrote (h h' : A → Option B) (a : A) (b : B) : Prop where
  here : h' a = some b
  frame : ∀ c, c ≠ a → h' c = h c

theorem wrote_update (h : A → Option B) (a : A) (b : B) :
    Wrote h (Function.update h a (some b)) a b :=
  ⟨Function.update_self .., fun _ other => Function.update_of_ne other _ _⟩

theorem write_spec {a : A} {b : B} (held : h a = some b) (c : B) :
    ∃ h', write h a c = .returned h' ∧ Wrote h h' a c :=
  ⟨_, by rw [write, held], wrote_update h a c⟩

theorem free_spec {a : A} {b : B} (held : h a = some b) :
    ∃ h', free h a = .returned h' ∧ h' a = none ∧ ∀ c, c ≠ a → h' c = h c :=
  ⟨_, by rw [free, held], Function.update_self .., fun _ other => Function.update_of_ne other _ _⟩

end Program

/-- A heap, and the addresses that `new` is going to give. -/
structure Memory (A B : Type*) where
  heap : A → Option B
  supply : List A

/-- `new`, where the next address is not in use. -/
def Memory.new [DecidableEq A] (m : Memory A B) (b : B) : Call (A × Memory A B) :=
  match m.supply with
  | [] => .fault
  | a :: rest =>
      match m.heap a with
      | none => .returned (a, ⟨Function.update m.heap a (some b), rest⟩)
      | some _ => .fault

theorem Memory.new_spec [DecidableEq A] {a : A} (unused : h a = none) (rest : List A) (b : B) :
    ∃ h', Memory.new ⟨h, a :: rest⟩ b = .returned (a, ⟨h', rest⟩) ∧ Wrote h h' a b :=
  ⟨_, by simp only [Memory.new, unused], wrote_update h a b⟩

end Heap
