import Wiring.Proofs.Circuit.Meaning
import Wiring.Proofs.Formula.Cycles

/-!
# Formulas that compute

What a formula computes can be said without a circuit. Each operand that is open has a gate so far
and the values of the operands that have ended in it; when it ends it hands its own value to the
operand that it is in. Not every formula makes sense in this way: a negation may have been given two
arguments, and a variable is no variable if other operands have ended in it.

## Main definitions

- `Gate.Takes` — how many arguments a gate may have
- `Formula.Frame` — an open operand
- `Formula.Yields` — what pieces make of the open operands, if they make sense

## Main statements

- `Formula.Yields.closes` — formulas that make sense have fitting parentheses
- `Formula.Yields.nestingsFrom_eq_nil` — and no variable is nested in another
-/

namespace Wiring

open scoped Unlimited

/-- Whether a gate with a single result may have that many arguments, constants being given none. -/
def Gate.Takes (gate : Gate) (n : Nat) : Prop := gate.Allows n 1 ∧ ∀ v, gate = .const v → n = 0

namespace Formula

/-- **An operand that is open**: its gate so far, and the values of the operands that have ended in
    it. -/
abbrev Frame := Gate × List Bool

/-- The gate that an operand is after a pending token, if there is one. -/
def pending (gate : Gate) (token : String) : Gate := if token = "" then gate else .ofToken token

/-- **What pieces make of the open operands**, where `ρ` gives the variables. The last operand is no
    operand of the formula but what the formula is read for. The variables are listed as they are
    met. -/
inductive Yields (ρ : String → Bool) :
    List Frame → List Piece → List Frame → List String → Prop
  /-- Nothing more is read. -/
  | done (frames : List Frame) : Yields ρ frames [] frames []
  /-- A new operand is a copy until it gets a token. -/
  | opening {gate : Gate} {args : List Bool} {outer : Frame} {frames final : List Frame}
      {token : String} {ps : List Piece} {met : List String}
      (h : Yields ρ ((.copy, []) :: (pending gate token, args) :: outer :: frames) ps final met) :
      Yields ρ ((gate, args) :: outer :: frames) (.opening token :: ps) final met
  /-- A variable, in which no operand has ended, has a value of its own. -/
  | name {gate outer : Gate} {values : List Bool} {frames final : List Frame} {token : String}
      {ps : List Piece} {met : List String} (hvar : isVariable token = true)
      (h : Yields ρ ((outer, values ++ [ρ token]) :: frames) ps final met) :
      Yields ρ ((gate, []) :: (outer, values) :: frames) (.closing token :: ps) final (token :: met)
  /-- A gate that takes its arguments has the value that it makes of them. -/
  | gate {gate outer : Gate} {args values : List Bool} {frames final : List Frame} {token : String}
      {ps : List Piece} {met : List String} (hvar : isVariable token = false)
      (htakes : (pending gate token).Takes args.length)
      (h : Yields ρ ((outer, values ++ [(pending gate token).truth args]) :: frames) ps final met) :
      Yields ρ ((gate, args) :: (outer, values) :: frames) (.closing token :: ps) final met

variable {ρ : String → Bool} {frames final : List Frame} {ps : List Piece} {met : List String}

/-- Whoever has no values has no names. -/
def Unnested (frames : List Frame) (inside : List (List String)) : Prop :=
  ∀ e ∈ frames.zip inside, e.1.2 = [] → e.2 = []

theorem unnested_cons {frame : Frame} {top : List String} {inside : List (List String)} :
    Unnested (frame :: frames) (top :: inside) ↔
      (frame.2 = [] → top = []) ∧ Unnested frames inside := by
  rw [Unnested, List.zip_cons_cons, List.forall_mem_cons, Unnested]

/-- Names are handed on together with a value. -/
theorem Unnested.pour {outer : Gate} {values : List Bool} {inside : List (List String)}
    (h : Unnested ((outer, values) :: frames) inside) (v : Bool) (closed : List String) :
    Unnested ((outer, values ++ [v]) :: frames) (Formula.pour closed inside) := by
  cases inside with
  | nil => simp [Unnested, Formula.pour]
  | cons top inside => exact unnested_cons.2 ⟨by simp, (unnested_cons.1 h).2⟩

namespace Yields

/-- What makes sense closes all operands. -/
theorem closes {n : Nat} (h : Yields ρ frames ps final met) (hfinal : final.length = 1)
    (hlength : frames.length = n + 1) : Formula.closes n ps = true := by
  induction h generalizing n with
  | done frames =>
    obtain rfl : n = 0 := by omega
    rfl
  | opening _ ih =>
    simp only [List.length_cons] at hlength ih
    obtain ⟨m, rfl⟩ : ∃ m, n = m + 1 := ⟨n - 1, by omega⟩
    exact ih hfinal (by omega)
  | name _ _ ih | gate _ _ _ ih =>
    simp only [List.length_cons] at hlength ih
    obtain ⟨m, rfl⟩ : ∃ m, n = m + 1 := ⟨n - 1, by omega⟩
    exact ih hfinal (by omega)

/-- No variable is nested in another, because an operand in which a variable has ended has been
    given its value. -/
theorem nestingsFrom_eq_nil {inside : List (List String)} (h : Yields ρ frames ps final met)
    (hinside : Unnested frames inside) : nestingsFrom inside ps = [] := by
  induction h generalizing inside with
  | done => rfl
  | opening _ ih =>
    refine (ih (unnested_cons.2 ⟨fun _ => rfl, ?_⟩) : nestingsFrom ([] :: inside) _ = [])
    cases inside with
    | nil => simp [Unnested]
    | cons top inside =>
      have hrest := unnested_cons.1 hinside
      exact unnested_cons.2 hrest
  | name _ _ ih =>
    cases inside with
    | nil => exact (ih (by simp [Unnested]) : nestingsFrom [] _ = [])
    | cons top inside =>
      obtain ⟨htop, hrest⟩ := unnested_cons.1 hinside
      obtain rfl : top = [] := htop rfl
      rw [nestingsFrom, nestingsAt]
      exact List.append_eq_nil_iff.2 ⟨by simp, ih (hrest.pour _ _)⟩
  | gate hvar _ _ ih =>
    cases inside with
    | nil => exact (ih (by simp [Unnested]) : nestingsFrom [] _ = [])
    | cons top inside =>
      rw [nestingsFrom, nestingsAt, variableOf, if_neg (by simp [hvar])]
      exact ih ((unnested_cons.1 hinside).2.pour _ _)

end Yields

end Formula

end Wiring
