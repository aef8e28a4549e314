/-!
# Machine words

Counts, degrees and ids are kept in machine words. A number that is too large for a word wraps
around: what is kept of it is a remainder. The largest number that a word keeps is a parameter of
every definition that adds. Where there is none, as most of the theory assumes, the definitions
compute with natural numbers; a program runs with words of 64 bits.

## Main definitions

- `Words` — the largest number that a word keeps, if there is one
- `Words.wrap` — what a word keeps of a number
- `Words.Holds` — whether it keeps the number as it is
- `Unlimited.words`, `Machine.words` — words without a limit, and words of 64 bits
-/

namespace Wiring

/-- **The size of words.** -/
class Words where
  /-- The largest number that is kept as it is, if there is one. -/
  largest : Option Nat

namespace Unlimited

/-- Words that keep every number. -/
scoped instance words : Words := ⟨none⟩

end Unlimited

namespace Words

variable [w : Words] {m n : Nat}

/-- What a word keeps of a number. After the largest one it starts again from 0. -/
def wrap (n : Nat) : Nat :=
  match w.largest with
  | none => n
  | some largest => n % (largest + 1)

/-- A word is large enough for the number. -/
def Holds (n : Nat) : Prop := ∀ largest, w.largest = some largest → n ≤ largest

/-- Words of `bits` binary digits. -/
abbrev ofBits (bits : Nat) : Words := ⟨some (Nat.pow 2 bits - 1)⟩

instance (n : Nat) : Decidable (Holds n) :=
  match h : w.largest with
  | none => .isTrue fun largest hlargest => by simp [h] at hlargest
  | some largest =>
    decidable_of_iff (n ≤ largest)
      ⟨fun hn largest' hlargest => by simp_all, fun hn => hn largest h⟩

/-- A number that a word holds does not wrap around. -/
theorem wrap_of_holds (h : Holds n) : wrap n = n := by
  unfold wrap
  cases hlargest : w.largest with
  | none => rfl
  | some largest => exact Nat.mod_eq_of_lt (Nat.lt_succ_of_le (h largest hlargest))

theorem wrap_le (n : Nat) : wrap n ≤ n := by
  unfold wrap
  split
  · exact Nat.le_refl n
  · exact Nat.mod_le _ _

namespace Holds

theorem zero : Holds 0 := fun _ _ => Nat.zero_le _

theorem mono (h : Holds n) (hmn : m ≤ n) : Holds m := fun largest hlargest =>
  Nat.le_trans hmn (h largest hlargest)

end Holds

end Words

namespace Machine

/-- Words of 64 bits. -/
scoped instance words : Words := .ofBits 64

end Machine

section Unlimited

open scoped Unlimited

@[simp]
theorem Words.wrap_unlimited (n : Nat) : Words.wrap n = n := rfl

@[simp]
theorem Words.holds_unlimited (n : Nat) : Words.Holds n := fun _ h => by cases h

end Unlimited

end Wiring
