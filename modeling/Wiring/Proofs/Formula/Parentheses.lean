import Wiring.Proofs.Formula.Reader

/-!
# Parentheses without a partner

Whether the parentheses of a formula fit is said by counting them: nowhere have more been closed
than opened, and in the end as many have been. If they do not fit then there is a first place where
this shows, either a parenthesis that closes nothing or the end.

## Main definitions

- `Formula.Paired`, `Formula.Balanced` — all parentheses have a partner
- `Formula.Unpaired`, `Formula.UnbalancedAt` — the first place where one lacks a partner

## Main statements

- `Formula.unpaired_cons_iff` — the place is looked for character by character
- `Formula.balanced_iff` — what the pieces say of the parentheses
- `Formula.not_balanced_iff` — there is such a place unless all is well
-/

namespace Wiring

open scoped Unlimited

namespace Formula

variable {c : Char} {cs before : List Char} {depth next : Nat} {formula : String}

/-! ## Counting parentheses -/

/-- If `depth` parentheses are open at the start then nowhere in `cs` are more closed than have
    been opened. -/
def Within (depth : Nat) (cs : List Char) : Prop :=
  ∀ before, before <+: cs → before.count ')' ≤ depth + before.count '('

/-- If `depth` parentheses are open at the start then all that are in `cs` have a partner, and none
    is open at the end. -/
structure Paired (depth : Nat) (cs : List Char) : Prop where
  within : Within depth cs
  even : cs.count ')' = depth + cs.count '('

/-- **The first parenthesis without a partner**, if `depth` are open at the start, shows right after
    `before`: by one that closes nothing, or by the end, where some are still open. -/
inductive Unpaired (depth : Nat) (cs before : List Char) : Prop where
  | closing (after : List Char) (split : cs = before ++ ')' :: after) (paired : Paired depth before)
  | opening (split : cs = before) (within : Within depth cs)
      (excess : cs.count ')' < depth + cs.count '(')

/-- **The formula is balanced**: each of its parentheses has a partner. -/
def Balanced (formula : String) : Prop := Paired 0 formula.toList

/-- **The first parenthesis without a partner shows after so many bytes.** These are the bytes
    before a parenthesis that closes nothing, or all of them if there is none but one stays open. -/
def UnbalancedAt (formula : String) (offset : Nat) : Prop :=
  ∃ before, Unpaired 0 formula.toList before ∧ offset = (String.ofList before).utf8ByteSize

/-! ## Character by character -/

theorem within_nil : Within depth [] := by
  intro before hbefore
  rw [List.prefix_nil.1 hbefore]
  exact Nat.zero_le _

theorem paired_nil_iff : Paired depth [] ↔ depth = 0 :=
  ⟨fun h => h.even.symm, fun h => ⟨within_nil, h.symm⟩⟩

theorem unpaired_nil_iff : Unpaired depth [] before ↔ before = [] ∧ 0 < depth := by
  constructor
  · rintro (⟨after, split, -⟩ | ⟨rfl, -, hexcess⟩)
    · simp at split
    · exact ⟨rfl, hexcess⟩
  · rintro ⟨rfl, hdepth⟩
    exact .opening rfl within_nil hdepth

theorem not_within_closing : ¬Within 0 (')' :: cs) := by
  intro h
  have hfirst := h [')'] (by simp)
  simp at hfirst

section Cons

-- the first character leads from `depth` open parentheses to `next` ones
variable (hnext : next + [c].count ')' = depth + [c].count '(')
include hnext

theorem within_cons_iff : Within depth (c :: cs) ↔ Within next cs := by
  constructor
  · intro h before hbefore
    have hle := h (c :: before) (List.prefix_cons_inj c |>.2 hbefore)
    rw [← List.singleton_append, List.count_append, List.count_append] at hle
    omega
  · intro h before hbefore
    rcases List.prefix_cons_iff.1 hbefore with rfl | ⟨before, rfl, htail⟩
    · exact Nat.zero_le _
    · have hle := h before htail
      rw [← List.singleton_append, List.count_append, List.count_append]
      omega

theorem paired_cons_iff : Paired depth (c :: cs) ↔ Paired next cs := by
  have heven : (c :: cs).count ')' = depth + (c :: cs).count '(' ↔
      cs.count ')' = next + cs.count '(' := by
    rw [← List.singleton_append, List.count_append, List.count_append]
    omega
  constructor
  · exact fun h => ⟨(within_cons_iff hnext).1 h.within, heven.1 h.even⟩
  · exact fun h => ⟨(within_cons_iff hnext).2 h.within, heven.2 h.even⟩

theorem unpaired_cons_iff : Unpaired depth (c :: cs) before ↔
    ∃ before', before = c :: before' ∧ Unpaired next cs before' := by
  have hexcess : (c :: cs).count ')' < depth + (c :: cs).count '(' ↔
      cs.count ')' < next + cs.count '(' := by
    rw [← List.singleton_append, List.count_append, List.count_append]
    omega
  constructor
  · rintro (⟨after, hsplit, hpaired⟩ | ⟨rfl, hwithin, hlt⟩)
    · cases before with
      | nil =>
        -- nothing is open, so a closing parenthesis leads nowhere
        rw [paired_nil_iff.1 hpaired, (List.cons.inj hsplit).1] at hnext
        simp at hnext
      | cons c' before =>
        obtain ⟨rfl, rfl⟩ := List.cons.inj hsplit
        exact ⟨before, rfl, .closing after rfl ((paired_cons_iff hnext).1 hpaired)⟩
    · exact ⟨cs, rfl, .opening rfl ((within_cons_iff hnext).1 hwithin) (hexcess.1 hlt)⟩
  · rintro ⟨before, rfl, ⟨after, rfl, hpaired⟩ | ⟨rfl, hwithin, hlt⟩⟩
    · exact .closing after rfl ((paired_cons_iff hnext).2 hpaired)
    · exact .opening rfl ((within_cons_iff hnext).2 hwithin) (hexcess.2 hlt)

/-- The bytes of the first character are counted once. -/
theorem forall_unpaired_cons {offset : Nat} {P : Nat → Prop}
    (h : ∀ before, Unpaired next cs before →
      P (offset + c.utf8Size + (String.ofList before).utf8ByteSize)) :
    ∀ before, Unpaired depth (c :: cs) before →
      P (offset + (String.ofList before).utf8ByteSize) := by
  intro before hbefore
  obtain ⟨before, rfl, hrest⟩ := (unpaired_cons_iff hnext).1 hbefore
  have hsize : (String.ofList (c :: before)).utf8ByteSize =
      c.utf8Size + (String.ofList before).utf8ByteSize := by simp
  rw [hsize, ← Nat.add_assoc]
  exact h before hrest

end Cons

theorem next_of_opening : depth + 1 + ['('].count ')' = depth + ['('].count '(' := rfl

theorem next_of_closing : depth + [')'].count ')' = depth + 1 + [')'].count '(' := rfl

/-- Other characters lead nowhere. -/
theorem next_of_ordinary (hopen : c ≠ '(') (hclose : c ≠ ')') :
    depth + [c].count ')' = depth + [c].count '(' := by
  rw [List.count_singleton, List.count_singleton, if_neg (by simpa using hclose),
    if_neg (by simpa using hopen)]

/-- If nothing is open then a closing parenthesis is the first without a partner. -/
theorem unpaired_closing_iff : Unpaired 0 (')' :: cs) before ↔ before = [] := by
  constructor
  · rintro (⟨after, hsplit, hpaired⟩ | ⟨-, hwithin, -⟩)
    · cases before with
      | nil => rfl
      | cons c before =>
        obtain ⟨rfl, -⟩ := List.cons.inj hsplit
        exact absurd hpaired.within not_within_closing
    · exact absurd hwithin not_within_closing
  · rintro rfl
    exact .closing cs rfl (paired_nil_iff.2 rfl)

/-- A character leads to a number of open parentheses, unless it closes one where none is open. -/
theorem exists_next (c : Char) (depth : Nat) :
    (c = ')' ∧ depth = 0) ∨ ∃ next, next + [c].count ')' = depth + [c].count '(' := by
  by_cases hc : c = ')'
  · subst hc
    cases depth with
    | zero => exact .inl ⟨rfl, rfl⟩
    | succ depth => exact .inr ⟨depth, rfl⟩
  · have hzero : [c].count ')' = 0 := List.count_eq_zero.2 (by simpa using Ne.symm hc)
    exact .inr ⟨depth + [c].count '(', by rw [hzero, Nat.add_zero]⟩

theorem paired_or_exists_unpaired (depth : Nat) (cs : List Char) :
    Paired depth cs ∨ ∃ before, Unpaired depth cs before := by
  induction cs generalizing depth with
  | nil =>
    rcases Nat.eq_zero_or_pos depth with hzero | hpos
    · exact .inl (paired_nil_iff.2 hzero)
    · exact .inr ⟨[], unpaired_nil_iff.2 ⟨rfl, hpos⟩⟩
  | cons c cs ih =>
    rcases exists_next c depth with ⟨rfl, rfl⟩ | ⟨next, hnext⟩
    · exact .inr ⟨[], unpaired_closing_iff.2 rfl⟩
    · rcases ih next with hpaired | ⟨before, hbefore⟩
      · exact .inl ((paired_cons_iff hnext).2 hpaired)
      · exact .inr ⟨c :: before, (unpaired_cons_iff hnext).2 ⟨before, rfl, hbefore⟩⟩

theorem Unpaired.not_paired (h : Unpaired depth cs before) : ¬Paired depth cs := by
  intro hpaired
  obtain ⟨after, rfl, hbefore⟩ | ⟨-, -, hexcess⟩ := h
  · have hle := hpaired.within (before ++ [')']) ⟨after, by simp⟩
    have heven := hbefore.even
    simp at hle
    omega
  · have heven := hpaired.even
    omega

theorem not_balanced_iff : ¬Balanced formula ↔ ∃ offset, UnbalancedAt formula offset := by
  constructor
  · intro h
    obtain ⟨before, hbefore⟩ := (paired_or_exists_unpaired 0 formula.toList).resolve_left h
    exact ⟨_, before, hbefore, rfl⟩
  · rintro ⟨-, before, hbefore, -⟩
    exact hbefore.not_paired

/-! ## Pieces -/

/-- The pieces close what is open if and only if the parentheses have partners. -/
theorem closes_pieces_iff (token : String) :
    closes (depth + 1) (pieces token cs) = true ↔ Paired depth cs := by
  induction cs generalizing depth token with
  | nil =>
    rw [pieces, closes, paired_nil_iff]
    simp [closes]
  | cons c cs ih =>
    rw [pieces]
    split
    · rename_i hc
      subst hc
      rw [closes, ih, paired_cons_iff next_of_opening]
    · rename_i hopen
      split
      · rename_i hc
        subst hc
        rw [closes]
        cases depth with
        | zero =>
          rw [closes_zero_pieces]
          exact ⟨fun h => absurd h Bool.false_ne_true, fun h => absurd h.within not_within_closing⟩
        | succ depth => rw [ih, paired_cons_iff next_of_closing]
      · rename_i hclose
        rw [paired_cons_iff (next_of_ordinary hopen hclose)]
        split
        · exact ih token
        · exact ih (token.push c)

theorem balanced_iff : balanced formula = true ↔ Balanced formula := closes_pieces_iff ""

end Formula

end Wiring
