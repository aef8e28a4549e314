import Wiring.Proofs.Formula.Inputs
import Wiring.Proofs.Text.ByteOrder

/-!
# Expressions

The formulas that are meant to be read: variables, constants, operands in parentheses, negations,
and operands joined by one connective. Written with blanks anywhere, they all make sense to the
reader, so that their circuit computes them.

## Main definitions

- `Formula.Expr` — expressions
- `Formula.Expr.eval`, `Formula.Expr.names` — their values and their variables
- `Formula.Expr.chars`, `Formula.Expr.Writes` — how they are written

## Main statements

- `Formula.Expr.reads` — the reader makes sense of every expression
- `Formula.circuit_of_expressions` — the circuit of expressions computes them
-/

namespace Wiring

open scoped Unlimited

namespace Formula

/-! ## Syntax -/

/-- **A variable**: a name that starts with `x` and has neither parentheses nor blanks in it. -/
structure Variable where
  /-- The name. -/
  name : String
  isVariable : isVariable name = true
  plain : ∀ c ∈ name.toList, c ≠ '(' ∧ c ≠ ')' ∧ Text.isBlank c = false

/-- What joins operands. -/
inductive Connective where
  /-- True if all operands are. -/
  | and
  /-- True if some operand is. -/
  | or
  /-- True if an odd number of operands are. -/
  | xor

namespace Connective

/-- The sign that is written between operands. -/
def sign : Connective → Char
  | .and => '&'
  | .or => '|'
  | .xor => '^'

/-- The value for given operands. -/
def apply : Connective → List Bool → Bool
  | .and, values => values.foldr (· && ·) true
  | .or, values => values.foldr (· || ·) false
  | .xor, values => values.foldr Bool.xor false

/-- The gate that computes it. -/
def gate : Connective → Gate
  | .and => .and
  | .or => .or
  | .xor => .xor

end Connective

/-- **An expression.** Operands are joined by one connective, at least two of them. -/
inductive Expr where
  /-- A variable. -/
  | var (x : Variable)
  /-- A constant. -/
  | bit (v : Bool)
  /-- An expression in parentheses. -/
  | group (e : Expr)
  /-- A negation. -/
  | not (e : Expr)
  /-- Operands that are joined. -/
  | join (c : Connective) (first second : Expr) (rest : List Expr)

namespace Expr

mutual

/-- The value of an expression, where `ρ` gives the variables. -/
def eval (ρ : String → Bool) : Expr → Bool
  | .var x => ρ x.name
  | .bit v => v
  | .group e => e.eval ρ
  | .not e => !e.eval ρ
  | .join c first second rest => c.apply (first.eval ρ :: second.eval ρ :: evalAll ρ rest)

/-- The values of expressions. -/
def evalAll (ρ : String → Bool) : List Expr → List Bool
  | [] => []
  | e :: es => e.eval ρ :: evalAll ρ es

end

mutual

/-- The variables of an expression, as they occur. -/
def names : Expr → List String
  | .var x => [x.name]
  | .bit _ => []
  | .group e => e.names
  | .not e => e.names
  | .join _ first second rest => first.names ++ (second.names ++ namesAll rest)

/-- The variables of expressions, as they occur. -/
def namesAll : List Expr → List String
  | [] => []
  | e :: es => e.names ++ namesAll es

end

mutual

/-- The characters that an expression is written with. -/
def chars : Expr → List Char
  | .var x => x.name.toList
  | .bit v => [Circuit.bitChar v]
  | .group e => '(' :: (e.chars ++ [')'])
  | .not e => '~' :: '(' :: (e.chars ++ [')'])
  | .join c first second rest =>
    '(' :: (first.chars ++ ')' :: c.sign :: '(' :: (second.chars ++ ')' :: charsAll c rest))

/-- The characters of further operands. -/
def charsAll (c : Connective) : List Expr → List Char
  | [] => []
  | e :: es => c.sign :: '(' :: (e.chars ++ ')' :: charsAll c es)

end

/-- **The formula writes the expression**, with blanks anywhere. -/
def Writes (e : Expr) (formula : String) : Prop :=
  formula.toList.filter (fun c => !Text.isBlank c) = e.chars

end Expr

/-! ## Pieces -/

variable {ρ : String → Bool} {outer : Gate} {args values : List Bool} {frames final : List Frame}
  {ps : List Piece} {token : String} {met : List String} {tail cs : List Char} {label : Gate}

/-- Blanks do not matter. -/
theorem pieces_filter (token : String) (cs : List Char) :
    pieces token (cs.filter fun c => !Text.isBlank c) = pieces token cs := by
  have hopen : Text.isBlank '(' = false := by decide
  have hclose : Text.isBlank ')' = false := by decide
  induction cs generalizing token with
  | nil => rfl
  | cons c cs ih =>
    cases hc : Text.isBlank c with
    | true =>
      have hne : c ≠ '(' ∧ c ≠ ')' := by
        constructor <;> rintro rfl
        · rw [hopen] at hc
          cases hc
        · rw [hclose] at hc
          cases hc
      rw [List.filter_cons_of_neg (by simp [hc]), pieces, if_neg hne.1, if_neg hne.2, if_pos hc, ih]
    | false =>
      rw [List.filter_cons_of_pos (by simp [hc]), pieces, pieces, ih, ih, ih]

/-- Other characters are added to the pending token. -/
theorem pieces_append (hcs : ∀ c ∈ cs, c ≠ '(' ∧ c ≠ ')' ∧ Text.isBlank c = false)
    (token : String) (tail : List Char) :
    pieces token (cs ++ tail) = pieces (token ++ String.ofList cs) tail := by
  induction cs generalizing token with
  | nil =>
    rw [List.nil_append]
    congr 1
    apply String.toList_injective
    simp
  | cons c cs ih =>
    obtain ⟨⟨hopen, hclose, hblank⟩, hcs⟩ := List.forall_mem_cons.1 hcs
    rw [List.cons_append, pieces, if_neg hopen, if_neg hclose, if_neg (by simp [hblank]), ih hcs]
    congr 1
    apply String.toList_injective
    simp

/-- The pending token is closed before the pieces `ps`: the formula ends here, or an operand. -/
def Ends (tail : List Char) (ps : List Piece) : Prop :=
  ∀ token, pieces token tail = .closing token :: ps

theorem ends_nil : Ends [] [] := fun _ => rfl

theorem ends_parenthesis (tail : List Char) : Ends (')' :: tail) (pieces "" tail) := fun _ => rfl

/-! ## Reading -/

/-- **The reader makes sense of the expression**, wherever it ends: its value arrives at the operand
    that it is in. -/
def Expr.Reads (e : Expr) : Prop :=
  ∀ ⦃ρ : String → Bool⦄ ⦃outer : Gate⦄ ⦃values : List Bool⦄ ⦃frames final : List Frame⦄
    ⦃tail : List Char⦄ ⦃ps : List Piece⦄ ⦃met : List String⦄, Ends tail ps →
    Yields ρ ((outer, values ++ [e.eval ρ]) :: frames) ps final met →
    Yields ρ ((.copy, []) :: (outer, values) :: frames) (pieces "" (e.chars ++ tail)) final
      (e.names ++ met)

/-- An operand in parentheses hands its value to the gate that it is an operand of. -/
theorem Expr.Reads.operand {e : Expr} (he : e.Reads) {frame : Frame}
    (h : Yields ρ ((pending label token, args ++ [e.eval ρ]) :: frame :: frames) (pieces "" tail)
      final met) :
    Yields ρ ((label, args) :: frame :: frames)
      (.opening token :: pieces "" (e.chars ++ ')' :: tail)) final (e.names ++ met) :=
  .opening (he (ends_parenthesis tail) h)

/-- An operand without a token ends as the gate that it is. -/
theorem Ends.gate (htail : Ends tail ps) (htakes : label.Takes args.length)
    (h : Yields ρ ((outer, values ++ [label.truth args]) :: frames) ps final met) :
    Yields ρ ((label, args) :: (outer, values) :: frames) (pieces "" tail) final met := by
  rw [htail]
  exact .gate (by decide) htakes h

theorem Connective.pieces_sign (c : Connective) (cs : List Char) :
    pieces "" (c.sign :: '(' :: cs) = .opening c.gate.token :: pieces "" cs := by
  cases c <;> rfl

theorem Connective.pending_token (c : Connective) (label : Gate) :
    pending label c.gate.token = c.gate := by
  cases c <;> rfl

theorem takes_copy : Gate.copy.Takes 1 := ⟨rfl, fun _ hv => nomatch hv⟩

theorem takes_not : Gate.not.Takes 1 := ⟨⟨rfl, Nat.le_refl 1⟩, fun _ hv => nomatch hv⟩

theorem Connective.takes (c : Connective) (n : Nat) : c.gate.Takes n := by
  cases c <;> exact ⟨Nat.le_refl 1, fun v hv => (nomatch hv)⟩

theorem count_true_eq_xor (values : List Bool) :
    (values.count true % 2 == 1) = values.foldr Bool.xor false := by
  induction values with
  | nil => rfl
  | cons v values ih =>
    rw [List.foldr_cons, ← ih, List.count_cons]
    cases v
    · simp
    · rcases Nat.mod_two_eq_zero_or_one (values.count true) with h | h <;>
        simp [Nat.add_mod, h]

theorem Connective.truth_gate (c : Connective) (values : List Bool) :
    c.gate.truth values = c.apply values := by
  cases c with
  | and =>
    show values.all id = values.foldr (· && ·) true
    induction values with
    | nil => rfl
    | cons v values ih => rw [List.all_cons, ih, List.foldr_cons, id]
  | or =>
    show values.any id = values.foldr (· || ·) false
    induction values with
    | nil => rfl
    | cons v values ih => rw [List.any_cons, ih, List.foldr_cons, id]
  | xor => exact count_true_eq_xor values

namespace Expr

theorem reads_var (x : Variable) : (var x).Reads := by
  intro ρ outer values frames final tail ps met htail h
  have hname : "" ++ String.ofList x.name.toList = x.name := by
    apply String.toList_injective
    simp
  rw [chars, pieces_append x.plain, hname, htail]
  exact .name x.isVariable h

theorem reads_bit (v : Bool) : (bit v).Reads := by
  intro ρ outer values frames final tail ps met htail h
  have hpieces : pieces "" ((bit v).chars ++ tail) = pieces (Gate.const v).token tail := by
    cases v <;> rfl
  rw [hpieces, htail]
  cases v
  · exact .gate (by decide) ⟨trivial, fun _ _ => rfl⟩ h
  · exact .gate (by decide) ⟨trivial, fun _ _ => rfl⟩ h

theorem reads_group {e : Expr} (he : e.Reads) : (group e).Reads := by
  intro ρ outer values frames final tail ps met htail h
  rw [chars, List.cons_append, List.append_assoc]
  exact he.operand (htail.gate takes_copy h)

theorem reads_not {e : Expr} (he : e.Reads) : (not e).Reads := by
  intro ρ outer values frames final tail ps met htail h
  rw [chars, List.cons_append, List.cons_append, List.append_assoc]
  exact he.operand (htail.gate takes_not h)

/-- Further operands are handed to the gate of the connective. -/
theorem reads_further {c : Connective} {es : List Expr} (hes : ∀ e ∈ es, e.Reads) {frame : Frame}
    (h : Yields ρ ((c.gate, args ++ evalAll ρ es) :: frame :: frames) (pieces "" tail) final met) :
    Yields ρ ((c.gate, args) :: frame :: frames) (pieces "" (charsAll c es ++ tail)) final
      (namesAll es ++ met) := by
  induction es generalizing args with
  | nil =>
    rw [evalAll, List.append_nil] at h
    exact h
  | cons e es ih =>
    obtain ⟨he, hes⟩ := List.forall_mem_cons.1 hes
    rw [charsAll, namesAll, List.cons_append, List.cons_append, List.append_assoc,
      List.cons_append, c.pieces_sign, List.append_assoc]
    refine he.operand ?_
    rw [c.pending_token]
    refine ih hes ?_
    rw [evalAll] at h
    rwa [List.append_assoc]

theorem reads_join {c : Connective} {first second : Expr} {rest : List Expr}
    (hfirst : first.Reads) (hsecond : second.Reads) (hrest : ∀ e ∈ rest, e.Reads) :
    (join c first second rest).Reads := by
  intro ρ outer values frames final tail ps met htail h
  rw [chars, names, List.cons_append, List.append_assoc, List.cons_append, List.append_assoc,
    List.append_assoc, List.cons_append, List.cons_append, List.append_assoc, List.cons_append]
  -- the first operand comes before the sign, and the gate is a copy so far
  refine hfirst.operand ?_
  rw [c.pieces_sign]
  refine hsecond.operand ?_
  rw [c.pending_token]
  refine reads_further hrest (htail.gate (c.takes _) ?_)
  rw [c.truth_gate]
  exact h

mutual

/-- **The reader makes sense of every expression.** -/
theorem reads : ∀ e : Expr, e.Reads
  | .var x => reads_var x
  | .bit v => reads_bit v
  | .group e => reads_group e.reads
  | .not e => reads_not e.reads
  | .join _ first second rest => reads_join first.reads second.reads (reads_all rest)

theorem reads_all : ∀ es : List Expr, ∀ e ∈ es, e.Reads
  | [] => fun _ he => (nomatch he)
  | e :: es => List.forall_mem_cons.2 ⟨e.reads, reads_all es⟩

end

/-- What an expression means. -/
def meaning (e : Expr) : Meaning := ⟨fun ρ => e.eval ρ, e.names⟩

/-- **A formula means the expression that it writes.** -/
theorem Writes.means {e : Expr} {formula : String} (h : e.Writes formula) :
    Means formula e.meaning := by
  intro ρ
  rw [Computes, ← pieces_filter, h]
  have hdone : Yields ρ [(.copy, [] ++ [e.eval ρ])] [] [(.copy, [e.eval ρ])] [] := .done _
  have hread := e.reads ends_nil hdone
  rwa [List.append_nil, List.append_nil] at hread

end Expr

/-- **The circuit of expressions computes them.** However they are written, it is well formed, has
    one output for each of them in their order and one input for each variable, labelled with its
    name, in the order of the bytes of the names. On all values of the variables it is evaluated to
    the values of the expressions. This holds with words of any size that have room for evaluating
    formulas of that length, as those of 64 bits have for all that fit into a memory. -/
theorem circuit_of_expressions [Words] {formulas : List String} {es : List Expr}
    (hroom : Words.Holds (17 * room formulas))
    (h : List.Forall₂ (fun f e => Expr.Writes e f) formulas es) :
    ∃ (c : Circuit) (names : List String), Circuit.ofFormulas formulas = .ok c ∧
      Circuit.isWellFormed c = true ∧ c.outputs.length = es.length ∧
      names.Pairwise (fun x y => Text.utf8 x < Text.utf8 y) ∧
      (∀ x, x ∈ names ↔ ∃ e ∈ es, x ∈ e.names) ∧
      c.inputs.map c.label? = names.map (fun x => some (.free x)) ∧
      ∀ ρ : String → Bool, Circuit.evaluateOn (Circuit.bitString (names.map ρ)) c =
        .ok (Circuit.bitString (es.map fun e => e.eval ρ)) := by
  have hmeans : List.Forall₂ Means formulas (es.map Expr.meaning) :=
    List.forall₂_map_right_iff.2 (h.imp fun _ _ hw => hw.means)
  obtain ⟨c, names, hok, hsound, hlength, hsorted, hmem, hlabels, heval⟩ :=
    Means.ofFormulas hmeans
  have hread : Words.Holds (room formulas) :=
    hroom.mono (Nat.le_mul_of_pos_left _ (Nat.succ_pos 16))
  have hleft := hasLeft_ofFormulas hok
  refine ⟨c, names, (ofFormulas_eq hread).trans hok, ?_, by rwa [List.length_map] at hlength,
    hsorted.imp Text.utf8_lt_utf8, fun x => ?_, hlabels, fun ρ => ?_⟩
  · rw [Circuit.isWellFormed_eq (hleft.held hread).degrees]
    exact letI := Unlimited.words; hsound.isWellFormed
  · simp only [hmem, List.mem_map, exists_exists_and_eq_and, Expr.meaning]
  · have haffords (values : List Bool) : Circuit.Affords (Circuit.valued c values) := by
      refine ((Circuit.isCopy_valued hsound.lax values).lax hsound.lax).affords (hroom.mono ?_)
      rw [Circuit.footprint_valued]
      exact Nat.mul_le_mul_left 17 hleft.le
    rw [hsound.lax.evaluateOn_eq haffords, heval, List.map_map]
    rfl

section Machine

open scoped Machine

/-- Two formulas with two variables, laid out with blanks. -/
theorem circuit_of_expressions_blanks :
    ∃ (c : Circuit) (names : List String),
      Circuit.ofFormulas ["( x1 ) &\t(~ (x0))", " x\n1"] = .ok c ∧
        Circuit.isWellFormed c = true ∧ c.outputs.length = 2 ∧
        (∀ x, x ∈ names ↔ x = "x1" ∨ x = "x0") ∧
        ∀ ρ : String → Bool, Circuit.evaluateOn (Circuit.bitString (names.map ρ)) c =
          .ok (Circuit.bitString [ρ "x1" && !ρ "x0", ρ "x1"]) := by
  obtain ⟨x0, h0⟩ : ∃ x : Variable, x.name = "x0" :=
    ⟨⟨"x0", by decide, List.forall_mem_cons.2
      ⟨by decide, List.forall_mem_cons.2 ⟨by decide, List.forall_mem_nil _⟩⟩⟩, rfl⟩
  obtain ⟨x1, h1⟩ : ∃ x : Variable, x.name = "x1" :=
    ⟨⟨"x1", by decide, List.forall_mem_cons.2
      ⟨by decide, List.forall_mem_cons.2 ⟨by decide, List.forall_mem_nil _⟩⟩⟩, rfl⟩
  have hfirst : Expr.Writes (.join .and (.var x1) (.not (.var x0)) []) "( x1 ) &\t(~ (x0))" := by
    simp only [Expr.Writes, Expr.chars, Expr.charsAll, h0, h1]
    decide +kernel
  have hsecond : Expr.Writes (.var x1) " x\n1" := by
    simp only [Expr.Writes, Expr.chars, h1]
    decide +kernel
  obtain ⟨c, names, hok, hwell, hlength, -, hnames, -, heval⟩ :=
    circuit_of_expressions (holds_room (by decide)) (.cons hfirst (.cons hsecond .nil))
  refine ⟨c, names, hok, hwell, hlength, fun x => ?_, fun ρ => ?_⟩
  · rw [hnames]
    have hmem : (∃ e ∈ [Expr.join .and (.var x1) (.not (.var x0)) [], .var x1], x ∈ e.names) ↔
        (x = "x1" ∨ x = "x0") ∨ x = "x1" := by
      simp [Expr.names, Expr.namesAll, h0, h1]
    rw [hmem, or_right_comm, or_self]
  · rw [heval]
    simp [Expr.eval, Expr.evalAll, Connective.apply, h0, h1]

end Machine

end Formula

end Wiring
