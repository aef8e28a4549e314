/-!
# Decimal numerals

Natural numbers as decimal digits, the form in which saved diagrams write the keys of records. Each
number has one numeral: no sign, no blank and no leading zero is accepted.

## Main definitions

- `Decimal.write` — the numeral of a number
- `Decimal.read?` — the number of a numeral

## Main statements

- `Decimal.read?_write` — a written number is read back
-/

namespace Wiring.Decimal

/-- The character of a digit. -/
def digit (d : Nat) : Char := Char.ofNat (48 + d)

/-- The digits of a number, the highest first. -/
def digits (n : Nat) : List Char :=
  if n < 10 then [digit n] else digits (n / 10) ++ [digit (n % 10)]

/-- The value of a digit. -/
def digitValue? (c : Char) : Option Nat :=
  if 48 ≤ c.toNat ∧ c.toNat < 58 then some (c.toNat - 48) else none

/-- The number after one more digit. -/
def push? (n : Nat) (c : Char) : Option Nat := (digitValue? c).map (10 * n + ·)

/-- The value of a string of digits. -/
def value? (cs : List Char) : Option Nat := cs.foldlM push? 0

/-- **The numeral of a number.** -/
def write (n : Nat) : String := String.ofList (digits n)

/-- **The number of a numeral**, which must be written in its one form. -/
def read? (s : String) : Option Nat := (value? s.toList).filter (write · == s)

theorem digitValue?_digit {d : Nat} (h : d < 10) : digitValue? (digit d) = some d := by
  have : ∀ d : Fin 10, digitValue? (digit d) = some d.val := by decide
  exact this ⟨d, h⟩

theorem value?_digits (n : Nat) : value? (digits n) = some n := by
  induction n using Nat.strongRecOn with
  | _ n ih =>
    rw [digits]
    split
    · rename_i h
      simp [value?, push?, digitValue?_digit h]
    · rename_i h
      have ihq := ih (n / 10) (by omega)
      rw [value?] at ihq
      have hmod : n % 10 < 10 := Nat.mod_lt _ (by decide)
      rw [value?, List.foldlM_append, ihq]
      simp [push?, digitValue?_digit hmod]
      omega

/-- A written number is read back. -/
@[simp]
theorem read?_write (n : Nat) : read? (write n) = some n := by
  simp [read?, write, value?_digits]

end Wiring.Decimal
