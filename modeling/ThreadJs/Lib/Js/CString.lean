import Mathlib.Data.List.Infix
import ThreadJs.Lib.Utf8

/-!
A string of UTF-16 as a C string of UTF-8, and the search of an ASCII text in it.

* `strstr_lines` — text in complete lines in which the needle does not occur is passed over.
* `Encodes.newLines` — units and bytes agree about how many lines are in front of the needle.
-/

namespace CString

/-! ### The search -/

section Search

variable {α : Type} [DecidableEq α]

/-- `strstr`, with the index for the pointer. -/
def strstr (needle : List α) : List α → Option Nat
  | [] => if needle = [] then some 0 else none
  | c :: cs => if needle <+: c :: cs then some 0 else (strstr needle cs).map (· + 1)

variable {needle front rest : List α}

theorem strstr_eq_none (nonempty : needle ≠ []) :
    strstr needle rest = none ↔ ¬ needle <:+: rest := by
  induction rest with
  | nil => simp [strstr, nonempty]
  | cons c rest ih =>
      rw [strstr, List.infix_cons_iff]
      by_cases here : needle <+: c :: rest
      · simp [here]
      · simp [here, ih]

/-- A needle that does not begin anywhere in the first text. -/
theorem strstr_skip
    (nowhere : ∀ back, back <:+ front → back ≠ [] → ¬ needle <+: back ++ rest) :
    strstr needle (front ++ rest) = (strstr needle rest).map (front.length + ·) := by
  induction front with
  | nil => simp
  | cons c front ih =>
      have here := nowhere (c :: front) (List.suffix_refl _) (List.cons_ne_nil _ _)
      have later : ∀ back, back <:+ front → back ≠ [] → ¬ needle <+: back ++ rest :=
        fun back suffix => nowhere back (suffix.trans (List.suffix_cons c front))
      rw [List.cons_append] at here ⊢
      rw [strstr, if_neg here, ih later, Option.map_map]
      congr 1
      funext n
      simp only [Function.comp_apply, List.length_cons]
      omega

/-- A needle whose first element is not in the first text. -/
theorem strstr_append (nowhere : ∀ c ∈ front, needle.head? ≠ some c) (nonempty : needle ≠ []) :
    strstr needle (front ++ rest) = (strstr needle rest).map (front.length + ·) := by
  apply strstr_skip
  intro back suffix some here
  obtain ⟨c, back, rfl⟩ := List.exists_cons_of_ne_nil some
  obtain ⟨d, tail, rfl⟩ := List.exists_cons_of_ne_nil nonempty
  obtain ⟨rfl, -⟩ := List.cons_prefix_cons.mp here
  exact nowhere d (suffix.subset List.mem_cons_self) rfl

/-- A needle without `lf` that does not occur in the first text, which ends in `lf`. -/
theorem strstr_lines {lf : α} (within : lf ∉ needle) (last : ∀ c ∈ front.getLast?, c = lf)
    (absent : ¬ needle <:+: front) :
    strstr needle (front ++ rest) = (strstr needle rest).map (front.length + ·) := by
  apply strstr_skip
  intro back suffix some here
  have ends : lf ∈ back := by
    have final : front.getLast? = Option.some (back.getLast some) := by
      rw [suffix.getLast some]
      exact List.getLast?_eq_some_getLast _
    rw [← last _ final]
    exact List.getLast_mem some
  rcases List.prefix_or_prefix_of_prefix here (List.prefix_append back rest) with inside | across
  · exact absent (inside.isInfix.trans suffix.isInfix)
  · exact within (across.subset ends)

theorem strstr_self (nonempty : needle ≠ []) : strstr needle (needle ++ rest) = some 0 := by
  obtain ⟨c, tail, rfl⟩ := List.exists_cons_of_ne_nil nonempty
  have here : c :: tail <+: c :: (tail ++ rest) := List.prefix_append (c :: tail) rest
  rw [List.cons_append, strstr, if_pos here]

end Search

/-! ### The encoding -/

/-- The bytes of a code point; a surrogate without its partner is written as one, too. -/
def codePointBytes (n : Nat) : List UInt8 :=
  if n < 0x80 then [UInt8.ofNat n]
  else if n < 0x800 then [UInt8.ofNat (0xC0 + n / 0x40), UInt8.ofNat (0x80 + n % 0x40)]
  else if n < 0x10000 then
    [UInt8.ofNat (0xE0 + n / 0x1000), UInt8.ofNat (0x80 + n / 0x40 % 0x40),
      UInt8.ofNat (0x80 + n % 0x40)]
  else
    [UInt8.ofNat (0xF0 + n / 0x40000), UInt8.ofNat (0x80 + n / 0x1000 % 0x40),
      UInt8.ofNat (0x80 + n / 0x40 % 0x40), UInt8.ofNat (0x80 + n % 0x40)]

def isLead (u : UInt16) : Bool := 0xD800 ≤ u && u < 0xDC00

def isTrail (u : UInt16) : Bool := 0xDC00 ≤ u && u < 0xE000

/-- `String::WriteUtf8`. -/
def writeUtf8 : List UInt16 → List UInt8
  | [] => []
  | [u] => codePointBytes u.toNat
  | u :: v :: us =>
      if isLead u && isTrail v then
        codePointBytes (0x10000 + (u.toNat - 0xD800) * 0x400 + (v.toNat - 0xDC00)) ++ writeUtf8 us
      else codePointBytes u.toNat ++ writeUtf8 (v :: us)

/-- Units and bytes that are the same ASCII characters, with others between them. -/
inductive Encodes : List UInt16 → List UInt8 → Prop where
  | nil : Encodes [] []
  | ascii {n us bs} (small : n < 0x80) (rest : Encodes us bs) :
      Encodes (UInt16.ofNat n :: us) (UInt8.ofNat n :: bs)
  | above {us' bs' us bs} (units : us' ≠ [] ∧ ∀ u ∈ us', 0x80 ≤ u.toNat)
      (bytes : bs' ≠ [] ∧ ∀ b ∈ bs', 0x80 ≤ b.toNat) (rest : Encodes us bs) :
      Encodes (us' ++ us) (bs' ++ bs)

theorem codePointBytes_above {n : Nat} (above : 0x80 ≤ n) (small : n < 0x110000) :
    codePointBytes n ≠ [] ∧ ∀ b ∈ codePointBytes n, 0x80 ≤ b.toNat := by
  unfold codePointBytes
  rw [if_neg (Nat.not_lt_of_le above)]
  split
  · refine ⟨List.cons_ne_nil _ _, ?_⟩
    simp only [List.mem_cons, List.not_mem_nil, or_false]
    rintro b (rfl | rfl)
    all_goals exact Utf8.le_toNat_ofNat (by omega) (by omega)
  · split
    · refine ⟨List.cons_ne_nil _ _, ?_⟩
      simp only [List.mem_cons, List.not_mem_nil, or_false]
      rintro b (rfl | rfl | rfl)
      all_goals exact Utf8.le_toNat_ofNat (by omega) (by omega)
    · refine ⟨List.cons_ne_nil _ _, ?_⟩
      simp only [List.mem_cons, List.not_mem_nil, or_false]
      rintro b (rfl | rfl | rfl | rfl)
      all_goals exact Utf8.le_toNat_ofNat (by omega) (by omega)

/-- One unit that is no half of a pair. -/
theorem Encodes.unit {us : List UInt16} {bs : List UInt8} (u : UInt16) (rest : Encodes us bs) :
    Encodes (u :: us) (codePointBytes u.toNat ++ bs) := by
  by_cases small : u.toNat < 0x80
  · have same := rest.ascii small
    rw [UInt16.ofNat_toNat] at same
    rw [codePointBytes, if_pos small]
    exact same
  · have large := Nat.le_of_not_lt small
    have bound : u.toNat < 0x110000 := Nat.lt_trans u.toNat_lt (by decide)
    have alone : [u] ≠ [] ∧ ∀ v ∈ [u], 0x80 ≤ v.toNat := by simpa using large
    exact rest.above alone (codePointBytes_above large bound)

theorem encodes_writeUtf8 (us : List UInt16) : Encodes us (writeUtf8 us) := by
  induction us using writeUtf8.induct with
  | case1 => exact .nil
  | case2 u =>
      rw [writeUtf8, ← List.append_nil (codePointBytes _)]
      exact .unit u .nil
  | case3 u v us pair ih =>
      rw [writeUtf8, if_pos pair]
      simp only [isLead, isTrail, Bool.and_eq_true, decide_eq_true_eq, UInt16.le_iff_toNat_le,
        UInt16.lt_iff_toNat_lt] at pair
      obtain ⟨⟨leadLow, leadHigh⟩, trailLow, trailHigh⟩ := pair
      have lead : 0xD800 ≤ u.toNat := leadLow
      have lead' : u.toNat < 0xDC00 := leadHigh
      have trail : 0xDC00 ≤ v.toNat := trailLow
      have trail' : v.toNat < 0xE000 := trailHigh
      have both : [u, v] ≠ [] ∧ ∀ w ∈ [u, v], 0x80 ≤ w.toNat := by
        refine ⟨List.cons_ne_nil _ _, ?_⟩
        simp only [List.mem_cons, List.not_mem_nil, or_false]
        rintro w (rfl | rfl) <;> omega
      exact ih.above both (codePointBytes_above (by omega) (by omega))
  | case4 u v us single ih =>
      rw [writeUtf8, if_neg single]
      exact .unit u ih

section Transfer

variable {us : List UInt16} {bs : List UInt8}

theorem ofNat_eq_iff {m n : Nat} (hm : m < 0x80) (hn : n < 0x80) :
    (UInt16.ofNat m = UInt16.ofNat n ↔ m = n) ∧ (UInt8.ofNat m = UInt8.ofNat n ↔ m = n) := by
  constructor
  · rw [← UInt16.toNat_inj, UInt16.toNat_ofNat', UInt16.toNat_ofNat']
    omega
  · rw [← UInt8.toNat_inj, UInt8.toNat_ofNat', UInt8.toNat_ofNat']
    omega

theorem Encodes.untilNul (h : Encodes us bs) :
    Encodes (us.takeWhile (· != 0)) (Utf8.untilNul bs) := by
  unfold Utf8.untilNul
  induction h with
  | nil => exact .nil
  | @ascii n us bs small rest ih =>
      have zero := ofNat_eq_iff small (Nat.zero_lt_succ 0x7F)
      by_cases nul : n = 0
      · subst nul
        exact .nil
      · have unit : (UInt16.ofNat n != 0) = true := bne_iff_ne.mpr (mt zero.1.mp nul)
        have byte : (UInt8.ofNat n != 0) = true := bne_iff_ne.mpr (mt zero.2.mp nul)
        simp only [List.takeWhile_cons, unit, byte, if_true]
        exact ih.ascii small
  | @above us' bs' us bs units bytes rest ih =>
      have keepUnits : ∀ u ∈ us', (u != (0 : UInt16)) = true := by
        intro u hu
        apply bne_iff_ne.mpr
        rintro rfl
        exact absurd (units.2 0 hu) (by decide)
      have keepBytes : ∀ b ∈ bs', (b != (0 : UInt8)) = true := by
        intro b hb
        apply bne_iff_ne.mpr
        rintro rfl
        exact absurd (bytes.2 0 hb) (by decide)
      rw [List.takeWhile_append_of_pos keepUnits, List.takeWhile_append_of_pos keepBytes]
      exact ih.above units bytes

variable {w : List Nat}

theorem Encodes.prefix_iff (h : Encodes us bs) (ascii : ∀ n ∈ w, n < 0x80) :
    w.map UInt8.ofNat <+: bs ↔ w.map UInt16.ofNat <+: us := by
  induction w generalizing us bs with
  | nil => exact iff_of_true List.nil_prefix List.nil_prefix
  | cons m w ih =>
      have small := ascii m List.mem_cons_self
      cases h with
      | nil => simp
      | ascii small' rest =>
          have same := ofNat_eq_iff small small'
          rw [List.map_cons, List.map_cons, List.cons_prefix_cons, List.cons_prefix_cons, same.1,
            same.2, ih rest fun n hn => ascii n (List.mem_cons_of_mem _ hn)]
      | @above us' bs' us bs units bytes rest =>
          obtain ⟨u, us', rfl⟩ := List.exists_cons_of_ne_nil units.1
          obtain ⟨b, bs', rfl⟩ := List.exists_cons_of_ne_nil bytes.1
          have unit := units.2 u List.mem_cons_self
          have byte := bytes.2 b List.mem_cons_self
          apply iff_of_false
          · intro here
            obtain ⟨rfl, -⟩ := List.cons_prefix_cons.mp here
            rw [UInt8.toNat_ofNat'] at byte
            omega
          · intro here
            obtain ⟨rfl, -⟩ := List.cons_prefix_cons.mp here
            rw [UInt16.toNat_ofNat'] at unit
            omega

/-- **Units and bytes** have as many `\n` in front of the first place where an ASCII text
occurs. -/
theorem Encodes.newLines (h : Encodes us bs) (ascii : ∀ n ∈ w, n < 0x80) (nonempty : w ≠ []) :
    (strstr (w.map UInt8.ofNat) bs).map (fun i => (bs.take i).count 0x0A) =
      (strstr (w.map UInt16.ofNat) us).map fun i => (us.take i).count 0x0A := by
  have units : w.map UInt16.ofNat ≠ [] := by simpa using nonempty
  have bytes : w.map UInt8.ofNat ≠ [] := by simpa using nonempty
  induction h with
  | nil => rw [strstr, strstr, if_neg units, if_neg bytes, Option.map_none, Option.map_none]
  | @ascii n us bs small rest ih =>
      rw [strstr, strstr]
      have same := (rest.ascii small).prefix_iff ascii
      by_cases here : w.map UInt16.ofNat <+: UInt16.ofNat n :: us
      · rw [if_pos here, if_pos (same.mpr here)]
        rfl
      · rw [if_neg here, if_neg (mt same.mp here), Option.map_map, Option.map_map]
        have newLine := ofNat_eq_iff small (show 0x0A < 0x80 by decide)
        have one : (UInt8.ofNat n == 0x0A) = (UInt16.ofNat n == 0x0A) := by
          rw [Bool.eq_iff_iff, beq_iff_eq, beq_iff_eq]
          exact newLine.2.trans newLine.1.symm
        have more := congrArg (Option.map (· + if UInt16.ofNat n == 0x0A then 1 else 0)) ih
        rw [Option.map_map, Option.map_map] at more
        simp only [Function.comp_def, List.take_succ_cons, List.count_cons, one]
        exact more
  | @above us' bs' us bs unitsAbove bytesAbove rest ih =>
      obtain ⟨n, w, rfl⟩ := List.exists_cons_of_ne_nil nonempty
      have small := ascii n List.mem_cons_self
      have noUnit : ∀ u ∈ us', ((n :: w).map UInt16.ofNat).head? ≠ some u := by
        intro u hu same
        obtain rfl := Option.some.inj same
        have large := unitsAbove.2 _ hu
        rw [UInt16.toNat_ofNat'] at large
        omega
      have noByte : ∀ b ∈ bs', ((n :: w).map UInt8.ofNat).head? ≠ some b := by
        intro b hb same
        obtain rfl := Option.some.inj same
        have large := bytesAbove.2 _ hb
        rw [UInt8.toNat_ofNat'] at large
        omega
      have unitCount : us'.count 0x0A = 0 :=
        List.count_eq_zero.mpr fun h => absurd (unitsAbove.2 _ h) (by decide)
      have byteCount : bs'.count 0x0A = 0 :=
        List.count_eq_zero.mpr fun h => absurd (bytesAbove.2 _ h) (by decide)
      rw [strstr_append noByte bytes, strstr_append noUnit units, Option.map_map, Option.map_map]
      simp only [Function.comp_def, List.take_length_add_append, List.count_append, unitCount,
        byteCount, Nat.zero_add]
      exact ih

end Transfer

end CString
