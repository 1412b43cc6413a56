import ThreadJs.Lib.Machine
import ThreadJs.Message.Typed

/-!
`reg_constructor` over whole histories (`lib/context.js`).

The function is pushed before the name is tested, and the test takes the id 0 for no entry
and an inherited property for one. `registers_iff` says which histories go as they should:
those in which no call comes with a name that is registered or inherited.
-/

namespace ThreadJs.Message

open Js

variable {Data Value Err : Type}

/-- A side, and the calls of `reg_constructor` that have returned. -/
structure Context (Data Value Err : Type) where
  side : Side Data Value Err
  returned : List (Registration Data Value Err)

def Context.register (c : Context Data Value Err) (r : Registration Data Value Err) :
    Context Data Value Err :=
  match regConstructor c.side r with
  | (side, .ok _) => ⟨side, c.returned ++ [r]⟩
  | (side, .error _) => ⟨side, c.returned⟩

/-- Before `wrap_context` registers 'Error'. -/
def Context.empty : Context Data Value Err := ⟨⟨[], .empty, (by decide : 0 < 0x100000000)⟩, []⟩

/-- The registration in `wrap_context`. -/
def errorRegistration (errorConstructor : Data → Except Err Value) :
    Registration Data Value Err :=
  ⟨errorConstructor, "_error_constructor", "Error"⟩

/-- A call of `reg_constructor` does what it should. -/
structure Registers (c : Context Data Value Err) (r : Registration Data Value Err) : Prop where
  /-- A name is registered once. -/
  taken : r.effectiveName ≠ "" → (∃ r' ∈ c.returned, r'.effectiveName = r.effectiveName) →
    ∃ e, (regConstructor c.side r).2 = .error e
  /-- A call that throws leaves the tables alone. -/
  atomic : ∀ e, (regConstructor c.side r).2 = .error e → (regConstructor c.side r).1 = c.side
  /-- Every name stands for the index of the function registered under it. -/
  mapped : ∀ r' ∈ (c.register r).returned, r'.effectiveName ≠ "" →
    ∃ i, (c.register r).side.constructors.get r'.effectiveName = .own i ∧
      (c.register r).side.typeConstructor[i]? = some r'.fn

/-- The array is full, the constructor is anonymous, or its name is neither registered nor
inherited. -/
def Free (c : Context Data Value Err) (r : Registration Data Value Err) : Prop :=
  c.side.typeConstructor.length + 1 = 0x100000000 ∨ r.effectiveName = "" ∨
    (∀ r' ∈ c.returned, r'.effectiveName ≠ r.effectiveName) ∧ r.effectiveName ∉ objectPrototype

namespace Context

/-- The tables while all has gone as it should. -/
structure Sound (c : Context Data Value Err) : Prop where
  mapped : ∀ r ∈ c.returned, r.effectiveName ≠ "" →
    ∃ i, c.side.constructors.get r.effectiveName = .own i ∧
      c.side.typeConstructor[i]? = some r.fn
  owned : ∀ n i, c.side.constructors.get n = .own i → ∃ r ∈ c.returned, r.effectiveName = n

theorem sound_empty : (empty : Context Data Value Err).Sound where
  mapped := by simp [empty]
  owned := by
    intro n i found
    simp only [empty, Object.empty, Object.get, List.lookup_nil] at found
    split at found <;> cases found

variable {c : Context Data Value Err} {r : Registration Data Value Err}

/-- What a name that is tested finds. -/
theorem Sound.isReged_eq_false (sound : c.Sound)
    (unknown : ∀ r' ∈ c.returned, r'.effectiveName ≠ r.effectiveName)
    (own : r.effectiveName ∉ objectPrototype) : c.side.isReged r.effectiveName = false := by
  rw [Side.isReged]
  cases found : c.side.constructors.get r.effectiveName with
  | own i =>
      obtain ⟨r', known, same⟩ := sound.owned _ _ found
      exact absurd same (unknown r' known)
  | inherited =>
      rw [Object.get] at found
      split at found
      · cases found
      · rw [if_neg own] at found
        cases found
  | undefined => rfl

/-- The function is in the table after every call but those on a full array. -/
theorem regConstructor_cases (s : Side Data Value Err) (r : Registration Data Value Err) :
    s.typeConstructor.length + 1 = 0x100000000 ∧ (∃ e, regConstructor s r = (s, .error e)) ∨
    ∃ fits, r.effectiveName = "" ∧ regConstructor s r =
        (⟨s.typeConstructor ++ [r.fn], s.constructors, fits⟩, .ok s.typeConstructor.length) ∨
      r.effectiveName ≠ "" ∧ s.isReged r.effectiveName = true ∧ (∃ e, regConstructor s r =
        (⟨s.typeConstructor ++ [r.fn], s.constructors, fits⟩, .error e)) ∨
      r.effectiveName ≠ "" ∧ s.isReged r.effectiveName = false ∧ regConstructor s r =
        (⟨s.typeConstructor ++ [r.fn],
          s.constructors.set r.effectiveName s.typeConstructor.length, fits⟩,
          .ok s.typeConstructor.length) := by
  have fits := s.fits
  by_cases full : s.typeConstructor.length + 1 = 0x100000000
  · have none : ¬ s.typeConstructor.length + 1 < 0x100000000 := by omega
    exact .inl ⟨full, _, by rw [regConstructor, dif_neg none]⟩
  · have room : s.typeConstructor.length + 1 < 0x100000000 := by omega
    refine .inr ⟨by rwa [List.length_append, List.length_singleton], ?_⟩
    by_cases named : r.effectiveName = ""
    · exact .inl ⟨named, by simp [regConstructor, room, named]⟩
    · cases reged : s.isReged r.effectiveName with
      | true =>
          refine .inr (.inl ⟨named, rfl, "\"" ++ r.effectiveName ++ "\" is reged", ?_⟩)
          simp [regConstructor, room, named, reged]
      | false => exact .inr (.inr ⟨named, rfl, by simp [regConstructor, room, named, reged]⟩)

/-- A name that is registered freely is new. -/
theorem unknown_of_free (free : Free c r) (named : r.effectiveName ≠ "")
    (fits : (c.side.typeConstructor ++ [r.fn]).length < 0x100000000) :
    (∀ r' ∈ c.returned, r'.effectiveName ≠ r.effectiveName) ∧
      r.effectiveName ∉ objectPrototype := by
  rcases free with full | anonymous | new
  · rw [List.length_append, List.length_singleton] at fits
    omega
  · exact absurd anonymous named
  · exact new

/-- A call that is free keeps the tables sound and does what it should. -/
theorem Sound.register (sound : c.Sound) (free : Free c r) :
    (c.register r).Sound ∧ Registers c r := by
  have grown : ∀ r' ∈ c.returned, r'.effectiveName ≠ "" → ∃ i,
      c.side.constructors.get r'.effectiveName = .own i ∧
        (c.side.typeConstructor ++ [r.fn])[i]? = some r'.fn := by
    intro r' known named
    obtain ⟨i, found, fn⟩ := sound.mapped r' known named
    have inside := (List.getElem?_eq_some_iff.mp fn).1
    exact ⟨i, found, by rw [List.getElem?_append_left inside, fn]⟩
  rcases regConstructor_cases c.side r with
    ⟨full, e, call⟩ | ⟨fits, ⟨anonymous, call⟩ | ⟨named, reged, -⟩ | ⟨named, unreged, call⟩⟩
  · have next : c.register r = c := by rw [Context.register, call]
    rw [next]
    refine ⟨sound, fun _ _ => ⟨e, by rw [call]⟩, fun _ _ => by rw [call], ?_⟩
    rw [next]
    exact sound.mapped
  · have next : c.register r =
        ⟨⟨c.side.typeConstructor ++ [r.fn], c.side.constructors, fits⟩, c.returned ++ [r]⟩ := by
      rw [Context.register, call]
    have mapped : ∀ r' ∈ c.returned ++ [r], r'.effectiveName ≠ "" → ∃ i,
        c.side.constructors.get r'.effectiveName = .own i ∧
          (c.side.typeConstructor ++ [r.fn])[i]? = some r'.fn := by
      intro r' known named
      rcases List.mem_append.mp known with old | new
      · exact grown r' old named
      · rw [List.mem_singleton.mp new] at named
        exact absurd anonymous named
    have owned : ∀ n i, c.side.constructors.get n = .own i →
        ∃ r' ∈ c.returned ++ [r], r'.effectiveName = n := by
      intro n i found
      obtain ⟨r', known, same⟩ := sound.owned n i found
      exact ⟨r', List.mem_append_left _ known, same⟩
    refine ⟨next ▸ ⟨mapped, owned⟩, fun named => absurd anonymous named, ?_, next ▸ mapped⟩
    rw [call]
    intro e no
    cases no
  · obtain ⟨unknown, own⟩ := unknown_of_free free named fits
    rw [sound.isReged_eq_false unknown own] at reged
    cases reged
  · obtain ⟨unknown, -⟩ := unknown_of_free free named fits
    have next : c.register r =
        ⟨⟨c.side.typeConstructor ++ [r.fn],
          c.side.constructors.set r.effectiveName c.side.typeConstructor.length, fits⟩,
          c.returned ++ [r]⟩ := by
      rw [Context.register, call]
    have mapped : ∀ r' ∈ c.returned ++ [r], r'.effectiveName ≠ "" → ∃ i,
        (c.side.constructors.set r.effectiveName c.side.typeConstructor.length).get
            r'.effectiveName = .own i ∧
          (c.side.typeConstructor ++ [r.fn])[i]? = some r'.fn := by
      intro r' known named'
      rcases List.mem_append.mp known with old | new
      · rw [Object.get_set_of_ne _ (unknown r' old)]
        exact grown r' old named'
      · rw [List.mem_singleton.mp new, Object.get_set_self]
        exact ⟨_, rfl, by simp⟩
    have owned : ∀ n i,
        (c.side.constructors.set r.effectiveName c.side.typeConstructor.length).get n = .own i →
          ∃ r' ∈ c.returned ++ [r], r'.effectiveName = n := by
      intro n i found
      by_cases same : n = r.effectiveName
      · exact ⟨r, by simp, same.symm⟩
      · rw [Object.get_set_of_ne _ same] at found
        obtain ⟨r', known, same⟩ := sound.owned n i found
        exact ⟨r', List.mem_append_left _ known, same⟩
    refine ⟨next ▸ ⟨mapped, owned⟩, ?_, ?_, next ▸ mapped⟩
    · rintro - ⟨r', known, same⟩
      exact absurd same (unknown r' known)
    · rw [call]
      intro e no
      cases no

/-- A call that does what it should is free. -/
theorem Sound.free (sound : c.Sound) (registers : Registers c r) : Free c r := by
  rcases regConstructor_cases c.side r with ⟨full, -⟩ | ⟨fits, ⟨anonymous, -⟩ | called⟩
  · exact .inl full
  · exact .inr (.inl anonymous)
  · rcases called with ⟨-, -, e, call⟩ | ⟨named, unreged, call⟩
    · have same := registers.atomic e (by rw [call])
      rw [call] at same
      have length := congrArg (fun s => s.typeConstructor.length) same
      simp at length
    · have unknown : ∀ r' ∈ c.returned, r'.effectiveName ≠ r.effectiveName := by
        intro r' known same
        obtain ⟨e, throws⟩ := registers.taken named ⟨r', known, same⟩
        rw [call] at throws
        cases throws
      refine .inr (.inr ⟨unknown, fun common => ?_⟩)
      rw [Side.isReged] at unreged
      cases found : c.side.constructors.get r.effectiveName with
      | own i =>
          obtain ⟨r', known, same⟩ := sound.owned _ _ found
          exact unknown r' known same
      | inherited => simp [found] at unreged
      | undefined =>
          rw [Object.get] at found
          split at found
          · cases found
          · rw [if_pos common] at found
            cases found

end Context

/-- **All calls of a history do what they should exactly if each of them is free**: none comes
with a name that is registered already, not even that of 'Error', or with an inherited one. -/
theorem registers_iff (errorConstructor : Data → Except Err Value)
    (rs : List (Registration Data Value Err)) :
    Machine.Meets (fun c r => some (Context.register c r)) Registers .empty
        (errorRegistration errorConstructor :: rs) ↔
      Machine.Meets (fun c r => some (Context.register c r)) Free .empty
        (errorRegistration errorConstructor :: rs) := by
  apply Machine.meets_iff_meets (I := Context.Sound)
  · intro c r d sound free next
    obtain rfl := Option.some.inj next
    exact (sound.register free).1
  · intro c r d sound _
    exact ⟨sound.free, fun free => (sound.register free).2⟩
  · exact Context.sound_empty

/-- A second constructor named 'Error' is registered, and a second one named 'a' is refused
when it is in the table. -/
theorem error_registered_twice :
    ¬ Machine.Meets (fun c r => some (Context.register c r)) Registers .empty
      [errorRegistration (Except.ok : ℕ → Except ℕ ℕ), ⟨.ok, "", "Error"⟩] ∧
    ¬ Machine.Meets (fun c r => some (Context.register c r)) Registers .empty
      [errorRegistration (Except.ok : ℕ → Except ℕ ℕ), ⟨.ok, "", "a"⟩, ⟨.ok, "", "a"⟩] := by
  constructor
  · intro meets
    obtain ⟨second, -⟩ := (meets _ rfl).2 _ rfl
    have known : ∃ r' ∈ (Context.register .empty (errorRegistration
        (Except.ok : ℕ → Except ℕ ℕ))).returned, r'.effectiveName = "Error" :=
      ⟨_, List.mem_cons_self, rfl⟩
    obtain ⟨e, throws⟩ := second.taken (by decide) known
    cases throws
  · intro meets
    obtain ⟨third, -⟩ := ((meets _ rfl).2 _ rfl).2 _ rfl
    have same := congrArg (fun s => s.typeConstructor.length) (third.atomic _ rfl)
    cases same

end ThreadJs.Message
