import Mathlib.Algebra.Order.BigOperators.Group.List
import Mathlib.Algebra.Order.Group.Nat
import Mathlib.Data.Prod.Lex
import Mathlib.Order.WithBot
import Wiring.Proofs.Diagram.Ranking
import Wiring.Proofs.Formula.Opening
import Wiring.Proofs.Saved.RoundTrip

/-!
# Formulas with cycles

Reading a formula checks nothing but its parentheses, and a variable may end an operand in which
other operands have ended before. All operands that end with the same variable become one node. So
there is a cycle as soon as the variables are nested in a circle, the simplest case being an operand
that ends with the name of an operand inside it, as in `(x)x`. There is no other way to get one.

## Main definitions

- `Formula.nestings` — the pairs of variables of which one ends an operand inside the other's
- `Formula.Layered` — ranks for all closed nodes, by the names and then by the depth
- `Formula.Tracked` — a path for every pair of nested variables

## Main statements

- `Formula.acyclic_of_nestings` — no cycle if the names can be ranked
- `Formula.cyclic_iff_nestings` — and a cycle otherwise
-/

namespace Wiring

open scoped Unlimited

namespace Formula

/-! ## Nested variables -/

/-- The variable that a token is, if it is one. -/
def variableOf (token : String) : List String := if isVariable token then [token] else []

/-- Adds the names of a closed operand to those of the operand that it is in. -/
def pour (closed : List String) : List (List String) → List (List String)
  | [] => []
  | outer :: rest => (closed ++ outer) :: rest

/-- What a piece does to the lists of variables that have ended operands inside each open one,
    innermost first. -/
def stepInside (inside : List (List String)) : Piece → List (List String)
  | .opening _ => [] :: inside
  | .closing token =>
    match inside with
    | [] => []
    | top :: rest => pour (variableOf token ++ top) rest

/-- The pairs of variables that come with a piece: all that have ended operands inside the one that
    ends now, if it ends with a variable itself. -/
def nestingsAt (inside : List (List String)) : Piece → List (String × String)
  | .opening _ => []
  | .closing token =>
    match inside with
    | [] => []
    | top :: _ => (variableOf token).flatMap fun y => top.map (·, y)

/-- The nested variables of pieces. -/
def nestingsFrom (inside : List (List String)) : List Piece → List (String × String)
  | [] => []
  | p :: ps => nestingsAt inside p ++ nestingsFrom (stepInside inside p) ps

/-- **The nested variables of a formula**: the pairs `(x, y)` for which an operand that ends with
    `x` is inside an operand that ends with `y`. -/
def nestings (formula : String) : List (String × String) :=
  nestingsFrom [[]] (pieces "" formula.toList)

variable {g h c : Circuit} {s : Reader} {inside rest' : List (List String)} {top : List String}
  {chain rest : List Nat} {current first i k o p : Nat} {token name : String}
  {formulas : List String} {names : Names} {r : String → Nat} {R : Nat → ℕ ×ₗ ℕ}

/-! ## Ranks -/

/-- The least number above the ranks of the names. -/
def level (r : String → Nat) : List String → Nat
  | [] => 0
  | x :: names => max (r x + 1) (level r names)

theorem level_le_iff {names : List String} {b : Nat} :
    level r names ≤ b ↔ ∀ x ∈ names, r x < b := by
  induction names with
  | nil => simp [level]
  | cons x names ih => rw [level, Nat.max_le, ih, List.forall_mem_cons, Nat.succ_le_iff]

theorem level_append (names names' : List String) :
    level r (names ++ names') = max (level r names) (level r names') := by
  induction names with
  | nil => simp [level]
  | cons x names ih => rw [List.cons_append, level, level, ih, Nat.max_assoc]

/-- **Ranks of the nodes, by name and then by depth**: a named node has the rank of its name, a
    closed node ranks above its parents, and what is closed inside an open operand ranks no higher
    than the names in there. -/
structure Layered (r : String → Nat) (R : Nat → ℕ ×ₗ ℕ) (s : Reader)
    (inside : List (List String)) : Prop where
  length_eq : inside.length = s.chain.length
  named : ∀ e ∈ s.names, (ofLex (R e.2)).1 = r e.1 + 1
  closed : ∀ k, s.circuit.contains k = true → k ∉ s.circuit.outputs → k ∉ s.chain →
    ∀ p ∈ s.circuit.above k, R p < R k
  opened : ∀ e ∈ s.chain.zip inside, ∀ p ∈ s.circuit.above e.1, p ∉ s.chain →
    (ofLex (R p)).1 ≤ level r e.2

namespace Layered

section Step

variable (hs : Reading s) (hchain : s.chain = current :: rest)
include hs hchain

theorem openOperand (h : Layered r R s inside) (token : String) :
    Layered r R (s.openOperand token) ([] :: inside) where
  length_eq := by
    rw [chain_openOperand hchain, ← hchain, List.length_cons, List.length_cons, h.length_eq]
  named e he := h.named e (names_openOperand ▸ he)
  closed k hk hout hch p hp := by
    rw [chain_openOperand hchain, ← hchain, List.mem_cons, not_or] at hch
    rw [Reading.outputs_openOperand] at hout
    have hkc := ((Reading.contains_openOperand hchain).1 hk).resolve_right hch.1
    have hne : k ≠ current := fun heq => hch.2 (hchain ▸ heq ▸ List.mem_cons_self)
    have hperm := hs.above_openOperand token hchain hkc
    rw [if_neg hne, List.append_nil] at hperm
    exact h.closed k hkc hout hch.2 p (hperm.mem_iff.1 hp)
  opened e he p hp hch := by
    rw [chain_openOperand hchain, ← hchain, List.mem_cons, not_or] at hch
    rw [chain_openOperand hchain, ← hchain, List.zip_cons_cons, List.mem_cons] at he
    rcases he with rfl | he
    · rw [hs.above_openOperand_new hchain] at hp
      cases hp
    · have hkc := hs.contains_of_mem_chain (List.of_mem_zip he).1
      rw [(hs.above_openOperand token hchain hkc).mem_iff, List.mem_append] at hp
      refine h.opened e he p (hp.resolve_right fun hnew => hch.1 ?_) hch.2
      split at hnew
      · exact List.mem_singleton.1 hnew
      · cases hnew

/-- What is closed inside the operand that ends is handed on to the one that it is in, with what it
    has become itself. -/
theorem opened_pour (h : Layered r R s (top :: inside)) {s' : Reader} {R' : Nat → ℕ ×ₗ ℕ}
    {f : Nat → Nat} {closed : List String} (hclosing : Closing s s' current rest f)
    (hR : ∀ p, p ∉ s.chain → R' p = R p) (hlevel : (ofLex (R' (f current))).1 ≤ level r closed) :
    ∀ e ∈ rest.zip (pour closed inside), ∀ p ∈ s'.circuit.above e.1, p ∉ rest →
      (ofLex (R' p)).1 ≤ level r e.2 := by
  intro e he p hp hch
  cases inside with
  | nil => simp [pour] at he
  | cons outer inside =>
    cases rest with
    | nil => cases he
    | cons c rest =>
      have hopen := h.opened
      have hnodup := hs.nodup_chain
      rw [hchain, List.nodup_cons, List.nodup_cons] at hnodup
      rw [hchain, List.zip_cons_cons, List.zip_cons_cons, ← hchain] at hopen
      have hrest : e.1 ∈ c :: rest := (List.of_mem_zip he).1
      have hcontains := hs.contains_of_mem_chain (hchain ▸ List.mem_cons_of_mem _ hrest)
      rw [pour, List.zip_cons_cons, List.mem_cons] at he
      rw [(hclosing.above e.1 hcontains (.inl hrest)).mem_iff, List.mem_map] at hp
      obtain ⟨q, hq, rfl⟩ := hp
      by_cases hqc : q = current
      · -- the operand that ends is a parent of the next one only
        have hec := hs.eq_of_current_mem_above hchain (hqc ▸ hq)
        rcases he with rfl | he
        · rw [level_append, hqc]
          exact le_max_of_le_left hlevel
        · exact absurd (hec ▸ (List.of_mem_zip he).1) hnodup.2.1
      · rw [hclosing.stays q hqc] at hch ⊢
        have hqch := (Reader.not_mem_chain_iff hchain).2 ⟨hqc, hch⟩
        rw [hR q hqch]
        rcases he with rfl | he
        · rw [level_append]
          exact le_max_of_le_right (hopen (c, outer) (by simp) q hq hqch)
        · exact hopen e (by simp [he]) q hq hqch

omit hs in
theorem length_pour (h : Layered r R s (top :: inside)) (closed : List String) :
    (pour closed inside).length = rest.length := by
  have hlen := h.length_eq
  rw [hchain, List.length_cons, List.length_cons] at hlen
  cases inside with
  | nil => exact Nat.succ.inj hlen
  | cons outer inside => exact Nat.succ.inj hlen

theorem level_of_mem_above_current (h : Layered r R s (top :: inside))
    (hp : p ∈ s.circuit.above current) : (ofLex (R p)).1 ≤ level r top :=
  h.opened (current, top) (by rw [hchain]; simp) p hp
    (hs.not_mem_chain_of_mem_above_current hchain hp)

/-- An operand that ends is ranked above its parents, and no higher than the names that are handed
    on. -/
theorem pop (h : Layered r R s (top :: inside)) {v : ℕ ×ₗ ℕ} {names : Names} {closed : List String}
    (hv : ∀ p ∈ s.circuit.above current, R p < v) (hlevel : (ofLex v).1 ≤ level r closed)
    (hnames : ∀ e ∈ names, e ∈ s.names ∨ e.2 = current ∧ (ofLex v).1 = r e.1 + 1) :
    Layered r (Function.update R current v) ⟨s.circuit, names, rest⟩ (pour closed inside) := by
  have hmem : current ∈ s.chain := hchain ▸ List.mem_cons_self
  have hold {k : Nat} (hk : k ∉ s.chain) : Function.update R current v k = R k :=
    Function.update_of_ne (ne_of_mem_of_not_mem hmem hk).symm v R
  have hself : (ofLex (Function.update R current v (id current))).1 ≤ level r closed := by
    rwa [id, Function.update_self]
  have hopened := h.opened_pour hs hchain (hs.closing_new hchain "") (fun p hp => hold hp) hself
  refine ⟨h.length_pour hchain closed, fun e he => ?_, fun k hk hout hch p hp => ?_, hopened⟩
  · rcases hnames e he with he | ⟨heq, hve⟩
    · rw [hold (hs.named e.2 (List.mem_map_of_mem he)).2.2]
      exact h.named e he
    · rw [heq, Function.update_self, hve]
  · by_cases hkc : k = current
    · subst hkc
      rw [hold (hs.not_mem_chain_of_mem_above_current hchain hp), Function.update_self]
      exact hv p hp
    · have hch' : k ∉ s.chain := (Reader.not_mem_chain_iff hchain).2 ⟨hkc, hch⟩
      rw [hold (hs.not_mem_chain_of_mem_above hout hch' hp), hold hch']
      exact h.closed k hk hout hch' p hp

/-- What is merged into the node of a variable ranks below it, if all that is nested in it does. -/
theorem merge (h : Layered r R s (top :: inside)) {closed : List String}
    (hfirst : (token, first) ∈ s.names) (htop : level r top ≤ r token)
    (hclosed : r token < level r closed) :
    Layered r R ⟨Diagram.merge s.circuit first current, s.names, rest⟩ (pour closed inside) := by
  have hnamed : first ∈ s.names.map (·.2) := List.mem_map_of_mem hfirst
  have hkeep {q : Nat} (hq : q ∉ s.chain) : Diagram.retarget first current q = q :=
    Diagram.retarget_of_ne ((Reader.not_mem_chain_iff hchain).1 hq).1
  have hf : (ofLex (R first)).1 = r token + 1 := h.named _ hfirst
  refine ⟨h.length_pour hchain closed, h.named, fun k hk hout hch p hp => ?_,
    h.opened_pour hs hchain (hs.closing_known hchain hnamed) (fun _ _ => rfl) ?_⟩
  · obtain ⟨hk, hkc, hout, hch⟩ := hs.closed_before_merge hchain hnamed hk hout hch
    obtain ⟨q, hq | ⟨hkf, hq⟩, rfl⟩ := (hs.mem_above_merge hchain hnamed hk hkc).1 hp
    · rw [hkeep (hs.not_mem_chain_of_mem_above hout hch hq)]
      exact h.closed k hk hout hch q hq
    · rw [hkeep (hs.not_mem_chain_of_mem_above_current hchain hq), hkf, Prod.Lex.lt_iff]
      have hq := h.level_of_mem_above_current hs hchain hq
      left
      omega
  · rw [Diagram.retarget_self, hf]
    exact hclosed

/-- The rank of an operand that ends without a name: the level of the names in it, and one more than
    the depths of its parents. -/
theorem exists_rank (h : Layered r R s (top :: inside)) :
    ∃ v : ℕ ×ₗ ℕ, (∀ p ∈ s.circuit.above current, R p < v) ∧ (ofLex v).1 = level r top := by
  refine ⟨toLex (level r top, ((s.circuit.above current).map fun p => (ofLex (R p)).2).sum + 1),
    fun p hp => ?_, rfl⟩
  rw [Prod.Lex.lt_iff]
  have hle := h.level_of_mem_above_current hs hchain hp
  have hdepth : (ofLex (R p)).2 ≤ ((s.circuit.above current).map fun p => (ofLex (R p)).2).sum :=
    List.le_sum_of_mem (List.mem_map_of_mem hp)
  rcases Nat.lt_or_eq_of_le hle with hlt | heq
  · exact .inl hlt
  · exact .inr ⟨heq, Nat.lt_succ_of_le hdepth⟩

end Step

theorem label (h : Layered r R s inside) (i : Nat) (token : String) :
    Layered r R { s with circuit := labelled s.circuit i token } inside where
  length_eq := h.length_eq
  named := h.named
  closed k hk hout hch p hp := by
    rw [contains_labelled] at hk
    rw [outputs_labelled] at hout
    rw [above_labelled] at hp
    exact h.closed k hk hout hch p hp
  opened e he p hp hch := by
    rw [above_labelled] at hp
    exact h.opened e he p hp hch

/-- **Closing keeps the ranks**, if the variable that ends the operand ranks above all that are
    nested in it. -/
theorem closeOperand (hs : Reading s) (hchain : s.chain = current :: rest)
    (h : Layered r R s (top :: inside))
    (hnest : ∀ y ∈ variableOf token, ∀ x ∈ top, r x < r y) :
    ∃ R', Layered r R' (s.closeOperand token) (pour (variableOf token ++ top) inside) := by
  cases hvar : isVariable token with
  | false =>
    have hof : variableOf token = [] := if_neg (by simp [hvar])
    rw [Reader.closeOperand_gate hchain hvar, hof, List.nil_append]
    obtain ⟨v, hv, hlevel⟩ := (h.label current token).exists_rank (hs.label current token) hchain
    exact ⟨_, (h.label current token).pop (hs.label current token) hchain hv hlevel.le
      fun e he => .inl he⟩
  | true =>
    have hof : variableOf token = [token] := if_pos hvar
    have htop : level r top ≤ r token :=
      level_le_iff.2 (hnest token (by rw [hof]; exact List.mem_singleton_self token))
    have hclosed : level r (variableOf token ++ top) = r token + 1 := by
      rw [hof, level_append, level, level, Nat.max_eq_left (Nat.zero_le _)]
      omega
    cases hlookup : s.names.lookup token with
    | some first =>
      rw [Reader.closeOperand_known hchain hvar hlookup]
      exact ⟨R, h.merge hs hchain (mem_of_lookup hlookup) htop (by rw [hclosed]; omega)⟩
    | none =>
      rw [Reader.closeOperand_new hchain hvar hlookup]
      refine ⟨_, h.pop hs hchain (v := toLex (r token + 1, 0)) (fun p hp => ?_) hclosed.ge
        fun e he => ?_⟩
      · have := h.level_of_mem_above_current hs hchain hp
        rw [Prod.Lex.lt_iff]
        exact .inl (by show _ < r token + 1; omega)
      · rcases List.mem_cons.1 he with rfl | he
        · exact .inr ⟨rfl, rfl⟩
        · exact .inl he

/-- **Reading keeps ranks for the nodes**, as long as nested variables rank as the names do. -/
theorem run (hs : Reading s) (h : Layered r R s inside) {ps : List Piece}
    (hcloses : closes s.chain.length ps = true)
    (hnest : ∀ e ∈ nestingsFrom inside ps, r e.1 < r e.2) : ∃ R', Layered r R' (s.run ps) [] := by
  induction s, ps, hcloses using run_induction generalizing inside R with
  | done s hcloses hnil =>
    have hlen := h.length_eq
    rw [hnil, List.length_nil, List.length_eq_zero_iff] at hlen
    exact ⟨R, hlen ▸ h⟩
  | opening s token ps current rest _ _ hchain ih =>
    exact ih (hs.openOperand token) (h.openOperand hs hchain token) hnest
  | closing s token ps current rest _ _ hchain ih =>
    cases inside with
    | nil => simpa [hchain] using h.length_eq
    | cons top inside =>
      obtain ⟨R', h'⟩ := h.closeOperand hs hchain fun y hy x hx =>
        hnest (x, y) (List.mem_append_left _
          (List.mem_flatMap.2 ⟨y, hy, List.mem_map_of_mem hx⟩))
      exact ih (hs.closeOperand token) h' fun e he => hnest e (List.mem_append_right _ he)

theorem openFormula (hs : Reading s) (hchain : s.chain = []) (h : Layered r R s []) :
    Layered r R s.openFormula [[]] where
  length_eq := rfl
  named := h.named
  closed k hk hout hch p hp := by
    have hout' : k ∉ s.circuit.outputs ++ [s.circuit.nextId + 1] := by
      rw [← outputs_rooted]
      exact hout
    rw [List.mem_append, List.mem_singleton, not_or] at hout'
    have hch' : k ≠ s.circuit.nextId := fun heq => hch (List.mem_singleton.2 heq)
    have hkc := (contains_rooted.1 hk).resolve_right (by tauto)
    exact h.closed k hkc hout'.1 (by simp [hchain]) p
      ((above_rooted hs.idsBelow hkc).mem_iff.1 hp)
  opened e he p hp := by
    obtain rfl : e = (s.circuit.nextId, []) := List.mem_singleton.1 he
    have hp' : p ∈ (rooted s.circuit).above s.circuit.nextId := hp
    rw [above_rooted_root] at hp'
    cases hp'

theorem readAll (hs : Reading s) (hchain : s.chain = []) (h : Layered r R s [])
    (hbalanced : ∀ f ∈ formulas, balanced f = true)
    (hnest : ∀ e ∈ formulas.flatMap nestings, r e.1 < r e.2) :
    ∃ R', Layered r R' (s.readAll formulas) [] := by
  induction formulas generalizing s R with
  | nil => exact ⟨R, h⟩
  | cons f formulas ih =>
    have hf := hbalanced f List.mem_cons_self
    rw [List.flatMap_cons] at hnest
    obtain ⟨R', h'⟩ := (h.openFormula hs hchain).run (hs.openFormula hchain) hf
      fun e he => hnest e (List.mem_append_left _ he)
    exact ih (hs.read hchain f) (chain_read hf) h'
      (fun f' hf' => hbalanced f' (List.mem_cons_of_mem _ hf'))
      fun e he => hnest e (List.mem_append_right _ he)

/-- When all is read, outputs rank above all that is closed. -/
theorem acyclic (hs : Reading s) (hchain : s.chain = []) (h : Layered r R s []) :
    s.circuit.Acyclic := by
  refine hs.coherent.acyclic_of_rank
    (r := fun k => if k ∈ s.circuit.outputs then (⊤ : WithTop (ℕ ×ₗ ℕ)) else R k) fun u v hu => ?_
  have huout : u ∉ s.circuit.outputs := fun hout => by
    rw [hs.coherent.mem_above_iff, (hs.output u hout).2.1] at hu
    cases hu
  rw [if_neg huout]
  split
  · exact WithTop.coe_lt_top _
  · rename_i hvout
    exact WithTop.coe_lt_coe.2
      (h.closed v (Diagram.contains_of_mem_above hu) hvout (by simp [hchain]) u hu)

end Layered

/-- Inputs have no parents, so that they make no cycles. -/
theorem acyclic_opened (hg : g.Coherent) (hids : g.IdsBelow) (hi : g.contains i = true)
    (h : g.Acyclic) : (opened g name i).Acyclic := by
  obtain ⟨rank, hrank⟩ := h
  refine ⟨fun k => if k = g.nextId then 0 else rank k + 1, fun u v hu => ?_⟩
  have hv := Diagram.contains_of_mem_above hu
  rw [contains_opened, Bool.or_eq_true, beq_iff_eq] at hv
  by_cases hvn : v = g.nextId
  · rw [hvn, above_opened_input hids hi] at hu
    cases hu
  · have hvc := hv.resolve_right hvn
    rw [(above_opened hids hi _ hvc).mem_iff, List.mem_append] at hu
    dsimp only
    rw [if_neg hvn]
    rcases hu with hu | hu
    · have := hids u (hg.contains_of_mem_above hu)
      have := hrank u v hu
      rw [if_neg (by omega)]
      omega
    · split at hu
      · rw [List.mem_singleton.1 hu, if_pos rfl]
        omega
      · cases hu

theorem acyclic_openAll (hg : g.Coherent) (h : Openable names g) (hacyclic : g.Acyclic) :
    (openAll g names).Acyclic :=
  (h.openAll (P := fun g => Diagram.Coherent g ∧ Diagram.Acyclic g) ⟨hg, hacyclic⟩
    fun e he _ hopen ⟨hcoh, hacyclic⟩ =>
      have hc := (hopen.named e.2 (List.mem_map_of_mem he)).1
      ⟨coherent_opened hopen.idsBelow hc hcoh, acyclic_opened hcoh hopen.idsBelow hc hacyclic⟩).2

/-- Circuits of formulas are coherent. -/
theorem coherent_ofFormulas (h : Circuit.ofFormulas formulas = .ok c) : Diagram.Coherent c := by
  obtain ⟨hbalanced, rfl⟩ := ofFormulas_eq_ok_iff.1 h
  obtain ⟨hs, -⟩ := Reading.start.readAll rfl hbalanced
  exact hs.openable.openAll hs.coherent fun e he _ hopen hcoh =>
    coherent_opened hopen.idsBelow (hopen.named e.2 (List.mem_map_of_mem he)).1 hcoh

/-- **No cycle if the names can be ranked** so that nested variables have smaller ranks. -/
theorem acyclic_of_nestings (h : Circuit.ofFormulas formulas = .ok c)
    (hr : ∀ e ∈ formulas.flatMap nestings, r e.1 < r e.2) : Diagram.Acyclic c := by
  obtain ⟨hbalanced, rfl⟩ := ofFormulas_eq_ok_iff.1 h
  obtain ⟨hs, hchain⟩ := Reading.start.readAll rfl hbalanced
  have hstart : Layered r (fun _ => toLex (0, 0)) .start [] :=
    ⟨rfl, fun _ he => (nomatch he), fun _ hk => (nomatch hk), fun _ he => (nomatch he)⟩
  obtain ⟨R, hR⟩ := hstart.readAll .start rfl hbalanced hr
  exact acyclic_openAll hs.coherent hs.openable (hR.acyclic hs hchain)

/-! ## Paths -/

/-- A path along edges. -/
def Path (g : Circuit) : Nat → Nat → Prop := Relation.TransGen fun u v => u ∈ g.above v

theorem Path.map (f : Nat → Nat) (hedge : ∀ u v, u ∈ g.above v → f u ∈ h.above (f v))
    (hpath : Path g i k) : Path h (f i) (f k) := Relation.TransGen.lift f hedge _ _ hpath

theorem Path.lt {rank : Nat → Nat} (hrank : g.Ranked rank) (hpath : Path g i k) :
    rank i < rank k := by
  induction hpath with
  | single hedge => exact hrank _ _ hedge
  | tail _ hedge ih => exact Nat.lt_trans ih (hrank _ _ hedge)

/-- **Paths for all pairs of nested variables**: from the node of the inner one to the node of the
    outer one, or to the operand that it is in as long as that is open. -/
structure Tracked (s : Reader) (inside : List (List String)) (seen : List (String × String)) :
    Prop where
  length_eq : inside.length = s.chain.length
  opened : ∀ e ∈ s.chain.zip inside, ∀ x ∈ e.2, ∃ k, (x, k) ∈ s.names ∧ Path s.circuit k e.1
  seen : ∀ e ∈ seen, ∃ i j, (e.1, i) ∈ s.names ∧ (e.2, j) ∈ s.names ∧ Path s.circuit i j

namespace Tracked

variable {seen seen' : List (String × String)} {s' : Reader}

theorem of_subset (h : Tracked s inside seen) (hsub : ∀ e ∈ seen', e ∈ seen) :
    Tracked s inside seen' := ⟨h.length_eq, h.opened, fun e he => h.seen e (hsub e he)⟩

theorem openOperand (hs : Reading s) (hchain : s.chain = current :: rest)
    (h : Tracked s inside seen) (token : String) :
    Tracked (s.openOperand token) ([] :: inside) seen := by
  have hpath {i k : Nat} (hpath : Path s.circuit i k) : Path (s.openOperand token).circuit i k :=
    hpath.map id fun u v hu => (hs.above_openOperand token hchain
      (Diagram.contains_of_mem_above hu)).mem_iff.2 (List.mem_append_left _ hu)
  refine ⟨?_, fun e he x hx => ?_, fun e he => ?_⟩
  · rw [chain_openOperand hchain, ← hchain, List.length_cons, List.length_cons, h.length_eq]
  · rw [chain_openOperand hchain, ← hchain, List.zip_cons_cons, List.mem_cons] at he
    rcases he with rfl | he
    · cases hx
    · obtain ⟨k, hk, hki⟩ := h.opened e he x hx
      exact ⟨k, by rwa [names_openOperand], hpath hki⟩
  · obtain ⟨i, j, hi, hj, hij⟩ := h.seen e he
    exact ⟨i, j, by rwa [names_openOperand], by rwa [names_openOperand], hpath hij⟩

/-- A named node stays where it is when an operand ends. -/
theorem stays_of_mem (hs : Reading s) (hchain : s.chain = current :: rest) {f : Nat → Nat}
    (hclosing : Closing s s' current rest f) {e : String × Nat} (he : e ∈ s.names) : f e.2 = e.2 :=
  hclosing.stays e.2 fun heq =>
    (hs.named e.2 (List.mem_map_of_mem he)).2.2 (hchain ▸ heq ▸ List.mem_cons_self)

section Pop

variable (hs : Reading s) (hchain : s.chain = current :: rest)
  (htracked : Tracked s (top :: inside) seen) {f : Nat → Nat}
  (hclosing : Closing s s' current rest f)
include hs hchain htracked hclosing

/-- The paths to the operand that ends go with it. -/
theorem path_current {x : String} (hx : x ∈ top) :
    ∃ k, (x, k) ∈ s'.names ∧ Path s'.circuit k (f current) := by
  obtain ⟨k, hk, hpath⟩ := htracked.opened (current, top) (by rw [hchain]; simp) x hx
  have := hpath.map f hclosing.edge
  rw [stays_of_mem hs hchain hclosing hk] at this
  exact ⟨k, hclosing.names _ hk, this⟩

/-- The paths to the operands that stay open. -/
theorem path_rest {e : Nat × List String} (he : e ∈ rest.zip inside) {x : String} (hx : x ∈ e.2) :
    ∃ k, (x, k) ∈ s'.names ∧ Path s'.circuit k e.1 := by
  obtain ⟨k, hk, hpath⟩ :=
    htracked.opened e (by rw [hchain, List.zip_cons_cons]; exact .tail _ he) x hx
  have := hpath.map f hclosing.edge
  have hne : e.1 ≠ current :=
    ne_of_mem_of_not_mem (List.of_mem_zip he).1 (hs.current_not_mem_rest hchain)
  rw [stays_of_mem hs hchain hclosing hk, hclosing.stays e.1 hne] at this
  exact ⟨k, hclosing.names _ hk, this⟩

omit htracked in
/-- The operand that has ended is a parent of the one that it is in. -/
theorem mem_above_next {c : Nat} {rest' : List Nat} (hrest : rest = c :: rest') :
    f current ∈ s'.circuit.above c := by
  have hcur : current ∈ s.circuit.above c := by
    have hd := hs.descends
    rw [hchain, hrest] at hd
    rw [hs.coherent.mem_above_iff, hd.1]
    exact List.mem_singleton_self c
  have hne : c ≠ current := by
    rintro rfl
    exact hs.current_not_mem_rest hchain (hrest ▸ List.mem_cons_self)
  have hedge := hclosing.edge current c hcur
  rwa [hclosing.stays c hne] at hedge

/-- When an operand ends all paths are kept. -/
theorem pop (htoken : ∀ y ∈ variableOf token, (y, f current) ∈ s'.names) :
    Tracked s' (pour (variableOf token ++ top) inside)
      (nestingsAt (top :: inside) (.closing token) ++ seen) := by
  have hlen := htracked.length_eq
  rw [hchain] at hlen
  refine ⟨?_, fun e he x hx => ?_, fun e he => ?_⟩
  · rw [hclosing.chain_eq]
    cases inside with
    | nil => exact Nat.succ.inj hlen
    | cons outer inside => exact Nat.succ.inj hlen
  · rw [hclosing.chain_eq] at he
    cases inside with
    | nil => simp [pour] at he
    | cons outer inside =>
      cases rest with
      | nil => cases he
      | cons c rest =>
        have hnext := mem_above_next hs hchain hclosing rfl
        rw [pour, List.zip_cons_cons, List.mem_cons] at he
        rcases he with rfl | he
        · rw [List.mem_append, List.mem_append] at hx
          rcases hx with (hx | hx) | hx
          · exact ⟨f current, htoken x hx, .single hnext⟩
          · obtain ⟨k, hk, hpath⟩ := htracked.path_current hs hchain hclosing hx
            exact ⟨k, hk, hpath.tail hnext⟩
          · exact htracked.path_rest hs hchain hclosing (e := (c, outer)) (by simp) hx
        · exact htracked.path_rest hs hchain hclosing
            (by rw [List.zip_cons_cons]; exact .tail _ he) hx
  · rcases List.mem_append.1 he with he | he
    · obtain ⟨y, hy, he⟩ := List.mem_flatMap.1 he
      obtain ⟨x, hx, rfl⟩ := List.mem_map.1 he
      obtain ⟨k, hk, hpath⟩ := htracked.path_current hs hchain hclosing hx
      exact ⟨k, f current, hk, htoken y hy, hpath⟩
    · obtain ⟨i, j, hi, hj, hpath⟩ := htracked.seen e he
      have := hpath.map f hclosing.edge
      rw [stays_of_mem hs hchain hclosing hi, stays_of_mem hs hchain hclosing hj] at this
      exact ⟨i, j, hclosing.names _ hi, hclosing.names _ hj, this⟩

end Pop

theorem closeOperand (hs : Reading s) (hchain : s.chain = current :: rest)
    (h : Tracked s (top :: inside) seen) (token : String) :
    Tracked (s.closeOperand token) (pour (variableOf token ++ top) inside)
      (nestingsAt (top :: inside) (.closing token) ++ seen) := by
  cases hvar : isVariable token with
  | false =>
    rw [Reader.closeOperand_gate hchain hvar]
    refine h.pop hs hchain (hs.closing_gate hchain token) fun y hy => ?_
    rw [variableOf, if_neg (by simp [hvar])] at hy
    cases hy
  | true =>
    have hof {y : String} (hy : y ∈ variableOf token) : y = token := by
      rw [variableOf, if_pos hvar] at hy
      exact List.mem_singleton.1 hy
    cases hlookup : s.names.lookup token with
    | some first =>
      have hfirst := mem_of_lookup hlookup
      rw [Reader.closeOperand_known hchain hvar hlookup]
      refine h.pop hs hchain (hs.closing_known hchain (List.mem_map_of_mem hfirst)) fun y hy => ?_
      rw [hof hy, Diagram.retarget_self]
      exact hfirst
    | none =>
      rw [Reader.closeOperand_new hchain hvar hlookup]
      refine h.pop hs hchain (hs.closing_new hchain token) fun y hy => ?_
      rw [hof hy]
      exact List.mem_cons_self

/-- **Reading finds a path for every pair of nested variables.** -/
theorem run (hs : Reading s) (h : Tracked s inside seen) {ps : List Piece}
    (hcloses : closes s.chain.length ps = true) :
    Tracked (s.run ps) [] (nestingsFrom inside ps ++ seen) := by
  induction s, ps, hcloses using run_induction generalizing inside seen with
  | done s hcloses hnil =>
    have hlen := h.length_eq
    rw [hnil, List.length_nil, List.length_eq_zero_iff] at hlen
    exact hlen ▸ h
  | opening s token ps current rest _ _ hchain ih =>
    exact ih (hs.openOperand token) (h.openOperand hs hchain token)
  | closing s token ps current rest _ _ hchain ih =>
    cases inside with
    | nil => simpa [hchain] using h.length_eq
    | cons top inside =>
      refine (ih (hs.closeOperand token) (h.closeOperand hs hchain token)).of_subset fun e he => ?_
      simp only [nestingsFrom, stepInside, List.mem_append] at he ⊢
      tauto

theorem openFormula (hs : Reading s) (h : Tracked s [] seen) :
    Tracked s.openFormula [[]] seen where
  length_eq := rfl
  opened e he x hx := by
    obtain rfl : e = (s.circuit.nextId, []) := List.mem_singleton.1 he
    cases hx
  seen e he := by
    obtain ⟨i, j, hi, hj, hpath⟩ := h.seen e he
    refine ⟨i, j, hi, hj, hpath.map (h := s.openFormula.circuit) id fun u v hu => ?_⟩
    exact (above_rooted hs.idsBelow (Diagram.contains_of_mem_above hu)).mem_iff.2 hu

theorem readAll (hs : Reading s) (hchain : s.chain = []) (h : Tracked s [] seen)
    (hbalanced : ∀ f ∈ formulas, balanced f = true) :
    Tracked (s.readAll formulas) [] (formulas.flatMap nestings ++ seen) := by
  induction formulas generalizing s seen with
  | nil => exact h
  | cons f formulas ih =>
    have hf := hbalanced f List.mem_cons_self
    refine (ih (hs.read hchain f) (chain_read hf)
      ((h.openFormula hs).run (hs.openFormula hchain) hf)
      fun f' hf' => hbalanced f' (List.mem_cons_of_mem _ hf')).of_subset fun e he => ?_
    simp only [List.flatMap_cons, List.mem_append, nestings] at he ⊢
    tauto

end Tracked

/-- Opening inputs leaves all paths. -/
theorem path_openAll (h : Openable names g) (hpath : Path g i k) : Path (openAll g names) i k :=
  h.openAll (P := fun g => Path g i k) hpath fun e he g hopen hpath =>
    hpath.map (h := opened g e.1 e.2) id fun _ _ hu =>
      (above_opened hopen.idsBelow (hopen.named e.2 (List.mem_map_of_mem he)).1 _
        (Diagram.contains_of_mem_above hu)).mem_iff.2 (List.mem_append_left _ hu)

theorem lookup_of_mem (hkeys : (names.map (·.1)).Nodup) (hmem : (name, k) ∈ names) :
    names.lookup name = some k := by
  induction names with
  | nil => cases hmem
  | cons e names ih =>
    rw [List.map_cons, List.nodup_cons] at hkeys
    rw [List.lookup_cons]
    rcases List.mem_cons.1 hmem with rfl | hmem
    · rw [beq_self_eq_true]
    · have hne : (name == e.1) = false := by
        simpa using fun heq : name = e.1 => hkeys.1 (heq ▸ List.mem_map_of_mem (f := (·.1)) hmem)
      rw [hne]
      exact ih hkeys.2 hmem

/-- Without a cycle the names have ranks: those of their nodes. -/
theorem exists_rank_of_acyclic (h : Circuit.ofFormulas formulas = .ok c)
    (hacyclic : Diagram.Acyclic c) :
    ∃ r : String → Nat, ∀ e ∈ formulas.flatMap nestings, r e.1 < r e.2 := by
  obtain ⟨hbalanced, rfl⟩ := ofFormulas_eq_ok_iff.1 h
  obtain ⟨hs, -⟩ := Reading.start.readAll rfl hbalanced
  have hstart : Tracked .start [] [] :=
    ⟨rfl, fun _ he => (nomatch he), fun _ he => (nomatch he)⟩
  have htracked := hstart.readAll .start rfl hbalanced
  obtain ⟨rank, hrank⟩ := hacyclic
  refine ⟨fun x => ((Reader.start.readAll formulas).names.lookup x).elim 0 rank, fun e he => ?_⟩
  obtain ⟨i, j, hi, hj, hpath⟩ := htracked.seen e (List.mem_append_left _ he)
  dsimp only
  rw [lookup_of_mem hs.nodup_keys hi, lookup_of_mem hs.nodup_keys hj]
  exact (path_openAll hs.openable hpath).lt hrank

/-- **A circuit of formulas has a cycle exactly if its variables are nested in a circle**, that is,
    if they cannot be ranked so that nested variables have smaller ranks. Its diagram is no circuit
    then and is refused when it is loaded after saving; otherwise it is loaded as it is. This holds
    with words of any size that have room for the formulas, as those of 64 bits have for all that fit
    into a memory. -/
theorem cyclic_iff_nestings [Words] (hroom : Words.Holds (room formulas))
    (h : Circuit.ofFormulas formulas = .ok c) :
    (Diagram.isCyclic c = .ok false ∧ Circuit.ofDiagram c = .ok c ∧
        (Diagram.Fits c → Circuit.load (Diagram.save c) = .ok c) ∧
        ∃ r : String → Nat, ∀ e ∈ formulas.flatMap nestings, r e.1 < r e.2) ∨
      (Diagram.isCyclic c = .ok true ∧ Circuit.ofDiagram c = .error .cyclic ∧
        (Diagram.Fits c → Circuit.load (Diagram.save c) = .error (.rejected .cyclic)) ∧
        ¬∃ r : String → Nat, ∀ e ∈ formulas.flatMap nestings, r e.1 < r e.2) := by
  rw [ofFormulas_eq hroom] at h
  have hdegrees : Diagram.DegreesHold c := ((hasLeft_ofFormulas h).held hroom).degrees
  obtain ⟨cyclic, hval, hiff⟩ := (coherent_ofFormulas h).exists_isCyclic
  rw [← hdegrees.isCyclic_eq] at hval
  have hdiagram : Circuit.ofDiagram c = if cyclic then .error .cyclic else .ok c := by
    rw [Circuit.ofDiagram, hval]
    rfl
  have hload (hfits : Diagram.Fits c) := hdiagram ▸ Circuit.load_save hfits
  cases cyclic with
  | false => exact .inl ⟨hval, hdiagram, hload, exists_rank_of_acyclic h (hiff.1 rfl)⟩
  | true =>
    refine .inr ⟨hval, hdiagram, hload, ?_⟩
    rintro ⟨r, hr⟩
    cases hiff.2 (acyclic_of_nestings h hr)

section Machine

open scoped Machine

/-- An operand that ends with the name of an operand inside it is a cycle. -/
theorem cyclic_iff_nestings_circle :
    ∃ c, Circuit.ofFormulas ["(x)x"] = .ok c ∧ Diagram.isCyclic c = .ok true ∧
      Circuit.ofDiagram c = .error .cyclic ∧
      Circuit.load (Diagram.save c) = .error (.rejected .cyclic) := by
  have hroom : Words.Holds (room ["(x)x"]) := by decide
  have h : Circuit.ofFormulas ["(x)x"] = .ok (finished (Reader.start.readAll ["(x)x"])) :=
    (ofFormulas_eq hroom).trans (ofFormulas_eq_ok_iff.2 ⟨by decide, rfl⟩)
  refine ⟨_, h, ?_⟩
  rcases cyclic_iff_nestings hroom h with ⟨-, -, -, r, hr⟩ | ⟨hcyclic, hdiagram, hload, -⟩
  · exact absurd (hr ("x", "x") (by decide)) (Nat.lt_irrefl _)
  · exact ⟨hcyclic, hdiagram, hload (by decide +kernel)⟩

end Machine

end Formula

end Wiring
