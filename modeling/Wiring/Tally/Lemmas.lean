import Wiring.IdMap.Lemmas
import Wiring.Tally.Basic

/-!
# Counting with tallies

What the operations on tallies do to the counts.

## Main statements

- `Tally.count_add`, `Tally.count_decrement`, `Tally.count_erase` — the counts
- `Tally.single?_eq_some_iff` — when a tally is a single edge
-/

namespace Wiring.Tally

open scoped Unlimited

variable {t : Tally} {j k m : Nat}

@[simp] theorem count_empty : count IdMap.empty k = 0 := rfl

theorem count_add : (t.add k m).count j = t.count j + if j = k then m else 0 := by
  unfold add count
  by_cases hm : m = 0
  · simp [hm]
  · rw [if_neg hm, IdMap.get?_alter]
    by_cases hj : j = k <;> simp [hj]

theorem count_decrement :
    (t.decrement k).count j = t.count j - if j = k then 1 else 0 := by
  unfold decrement count
  rw [IdMap.get?_alter]
  by_cases hj : j = k
  · subst hj
    cases t.get? j with
    | none => simp
    | some d =>
      simp only [if_pos, Option.bind_some, Option.getD_some]
      split
      · simp only [Option.getD_none]
        omega
      · rfl
  · simp [hj]

theorem count_erase : count (t.erase k) j = if j = k then 0 else t.count j := by
  unfold count
  rw [IdMap.get?_erase]
  by_cases hj : j = k <;> simp [hj]

/-- A tally is a single edge when it has one entry and that counts one. -/
theorem single?_eq_some_iff : t.single? = some k ↔ t.entries = [(k, 1)] := by
  unfold single?
  split
  · rename_i id h
    simp [h]
  · rename_i h
    constructor
    · intro hnone
      exact absurd hnone (by simp)
    · intro hk
      exact absurd hk (h k)

end Wiring.Tally
