import Wiring.Circuit.Evaluation
import Wiring.Proofs.Circuit.FoldShapes
import Wiring.Proofs.Diagram.Amounts
import Wiring.Proofs.Diagram.EditRuns

/-!
# How simple a circuit is

A circuit is simpler than another one if it has fewer variadic gates, or as many and less bulk, or
as much and fewer nodes. Nothing can be made simpler for ever. What the pieces of folding do to the
three measures is known for every circuit: edges may be recorded at one end only, degrees may have
wrapped around, and a new node may take the place of another one after ids have.

## Main definitions

- `Circuit.Spares` — no more variadic gates, one of which stays unless there are fewer
- `Circuit.Adds` — an edit that makes no variadic gate, and only so much bulk

## Main statements

- `Circuit.Simpler.wellFounded` — no circuit can be made simpler for ever
- `Circuit.simpler_removeNodes` — circuits without some nodes are simpler
- `Circuit.moves_divertAll`, `Circuit.moves_negateAll`, `Circuit.adds_feedAll` — new nodes around a
  gate, or in the place of one
-/

namespace Wiring

namespace Gate

theorem bulk_mono (label : Gate) : Monotone label.bulk := by
  intro m n hmn
  cases label <;> simp only [bulk] <;> omega

theorem bulk_of_isVariadic {label : Gate} (h : label.isVariadic = true) (outs : Nat) :
    label.bulk outs = 0 := by
  cases label <;> first | rfl | cases h

/-- What a gate adds to the number of variadic gates. -/
def gateCount (label : Gate) (_outs : Nat) : Nat := if label.isVariadic then 1 else 0

theorem gateCount_mono (label : Gate) : Monotone label.gateCount := fun _ _ _ => Nat.le_refl _

end Gate

namespace Circuit

variable {g h : Circuit} {s c k : Nat} {v : Bool} {label : Gate} {ps cs : List Nat}

/-! ## Simpler circuits -/

namespace Simpler

theorem of_bulk_lt (hgates : h.gateCount ≤ g.gateCount) (hbulk : h.bulk < g.bulk) :
    Simpler h g := by
  rcases Nat.lt_or_eq_of_le hgates with hlt | heq
  · exact .inl hlt
  · exact .inr ⟨heq, .inl hbulk⟩

theorem of_size_lt (hgates : h.gateCount ≤ g.gateCount) (hbulk : h.bulk ≤ g.bulk)
    (hsize : h.size < g.size) : Simpler h g := by
  rcases Nat.lt_or_eq_of_le hbulk with hlt | heq
  · exact .of_bulk_lt hgates hlt
  · rcases Nat.lt_or_eq_of_le hgates with hlt | hgates
    · exact .inl hlt
    · exact .inr ⟨hgates, .inr ⟨heq, hsize⟩⟩

theorem trans {f : Circuit} (hh : Simpler h g) (hg : Simpler g f) : Simpler h f := by
  unfold Simpler at *
  omega

/-- **No circuit can be made simpler for ever.** -/
theorem wellFounded : WellFounded Simpler := by
  have hlex := (Prod.lex Nat.lt_wfRel (Prod.lex Nat.lt_wfRel Nat.lt_wfRel)).wf
  exact Subrelation.wf (fun h => h.lex)
    (InvImage.wf (fun g : Circuit => (g.gateCount, g.bulk, g.size)) hlex)

end Simpler

/-! ## What changes do to the measures -/

theorem gateCount_eq (g : Circuit) : g.gateCount = g.totalAmount Gate.gateCount :=
  Diagram.sumOf_eq_totalAmount g Gate.gateCount

theorem bulk_eq (g : Circuit) : g.bulk = g.totalAmount Gate.bulk := by
  rw [← Diagram.sumOf_eq_totalAmount, bulk]
  refine congrArg g.sumOf (funext fun n => ?_)
  rw [Tally.length_spread]
  rfl

/-- The node `c` is a variadic gate. -/
def VariadicAt (g : Circuit) (c : Nat) : Prop :=
  ∃ label, g.label? c = some label ∧ label.isVariadic = true

theorem VariadicAt.amount_gateCount (hc : g.VariadicAt c) : g.amount Gate.gateCount c = 1 := by
  obtain ⟨label, hlabel, hvariadic⟩ := hc
  rw [Diagram.amount_of_label? hlabel, Gate.gateCount, if_pos hvariadic]

theorem VariadicAt.amount_bulk (hc : g.VariadicAt c) : g.amount Gate.bulk c = 0 := by
  obtain ⟨label, hlabel, hvariadic⟩ := hc
  rw [Diagram.amount_of_label? hlabel, Gate.bulk_of_isVariadic hvariadic]

theorem one_le_amount_bulk (hs : g.label? s = some (.const v)) : 1 ≤ g.amount Gate.bulk s := by
  rw [Diagram.amount_of_label? hs, Gate.bulk]
  omega

/-! ### Removal -/

theorem gateCount_removeNodes_le (g : Circuit) (ids : List Nat) :
    gateCount (g.removeNodes ids) ≤ g.gateCount := by
  rw [gateCount_eq, gateCount_eq]
  exact Nat.le_of_add_right_le (Diagram.totalAmount_removeNodes Gate.gateCount_mono g ids)

theorem bulk_removeNodes (g : Circuit) (ids : List Nat) :
    bulk (g.removeNodes ids) + ∑ k ∈ ids.toFinset, g.amount Gate.bulk k ≤ g.bulk := by
  rw [bulk_eq, bulk_eq]
  exact Diagram.totalAmount_removeNodes Gate.bulk_mono g ids

/-- **Removing nodes** makes a circuit simpler, if one of them is there. -/
theorem simpler_removeNodes {ids : List Nat} (hk : k ∈ ids) (hc : g.contains k = true) :
    Simpler (g.removeNodes ids) g :=
  .of_size_lt (gateCount_removeNodes_le g ids) (Nat.le_of_add_right_le (bulk_removeNodes g ids))
    (Diagram.size_removeNodes_lt hk hc)

/-- A source that goes leaves less bulk. -/
theorem bulk_removeNodes_source (hs : g.label? s = some (.const v)) :
    bulk (g.removeNodes [s]) + g.amount Gate.bulk s ≤ g.bulk ∧
      bulk (g.removeNodes [s]) < g.bulk := by
  have hle := bulk_removeNodes g [s]
  rw [List.toFinset_cons, List.toFinset_nil, insert_empty_eq, Finset.sum_singleton] at hle
  have := one_le_amount_bulk hs
  exact ⟨hle, by omega⟩

/-! ### Labels -/

theorem gateCount_relabel_le (g : Circuit) (c : Nat) (label : Gate)
    (hlabel : label.isVariadic = false) :
    gateCount (g.relabel c label) + g.amount Gate.gateCount c ≤ g.gateCount := by
  have hle := Diagram.totalAmount_relabel (F := Gate.gateCount) g c label
  have hnew : (g.relabel c label).amount Gate.gateCount c = 0 := by
    rw [Diagram.amount, Diagram.label?_relabel, if_pos rfl]
    cases g.label? c with
    | none => rfl
    | some old => simp [Gate.gateCount, hlabel]
  rwa [hnew, Nat.add_zero, ← gateCount_eq, ← gateCount_eq] at hle

theorem bulk_relabel {old : Gate} (hc : g.label? c = some old) (label : Gate) :
    bulk (g.relabel c label) + old.bulk (g.below c).length ≤
      g.bulk + label.bulk (g.below c).length := by
  have hle := Diagram.totalAmount_relabel (F := Gate.bulk) g c label
  have hnew : (g.relabel c label).label? c = some label :=
    Diagram.label?_relabel_self (Diagram.contains_iff_label?.2 ⟨old, hc⟩)
  rwa [Diagram.amount_of_label? hc, Diagram.amount_of_label? hnew, Diagram.below_relabel,
    ← bulk_eq, ← bulk_eq] at hle

/-! ### New nodes -/

theorem gateCount_attach [Words] (g : Circuit) (hlabel : label.isVariadic = false)
    (ps cs : List Nat) :
    gateCount (g.attach label ps cs) + g.amount Gate.gateCount g.nextId ≤ g.gateCount := by
  have hle := Diagram.totalAmount_attach Gate.gateCount_mono g label ps cs fun p _ hp => by
      rw [Diagram.amount, Diagram.amount, Diagram.label?_attach, if_neg hp]
      exact Nat.le_refl _
  have hnew : (g.attach label ps cs).amount Gate.gateCount g.nextId = 0 := by
    rw [Diagram.amount, Diagram.label?_attach, if_pos rfl, Option.elim_some, Gate.gateCount,
      hlabel]
    rfl
  rwa [hnew, Nat.add_zero, ← gateCount_eq, ← gateCount_eq] at hle

theorem bulk_attach [Words] (g : Circuit) (label : Gate) (ps cs : List Nat)
    (hps : ∀ p ∈ ps, p ≠ g.nextId → g.VariadicAt p) :
    bulk (g.attach label ps cs) ≤ g.bulk + label.bulk (cs.length + ps.count g.nextId) := by
  have hle := Diagram.totalAmount_attach Gate.bulk_mono g label ps cs fun p hmem hp => by
      obtain ⟨old, hold, hvariadic⟩ := hps p hmem hp
      have hkept : (g.attach label ps cs).label? p = some old := by
        rw [Diagram.label?_attach, if_neg hp, hold]
      rw [VariadicAt.amount_bulk ⟨old, hkept, hvariadic⟩]
      exact Nat.zero_le _
  have hnew : (g.attach label ps cs).amount Gate.bulk g.nextId ≤
      label.bulk (cs.length + ps.count g.nextId) := by
    rw [Diagram.amount, Diagram.label?_attach, if_pos rfl, Option.elim_some]
    have hlen := Diagram.length_below_attach_le g label ps cs g.nextId
    rw [if_pos rfl] at hlen
    exact label.bulk_mono hlen
  rw [← bulk_eq, ← bulk_eq] at hle
  omega

theorem gateCount_sever_le (g : Circuit) (a b : Nat) :
    gateCount (g.sever a b) ≤ g.gateCount := by
  rw [gateCount_eq, gateCount_eq]
  exact Diagram.totalAmount_sever_le Gate.gateCount_mono g a b

theorem bulk_sever_le (g : Circuit) (a b : Nat) : bulk (g.sever a b) ≤ g.bulk := by
  rw [bulk_eq, bulk_eq]
  exact Diagram.totalAmount_sever_le Gate.bulk_mono g a b

/-! ## Rebuilding a gate -/

/-- **There are fewer variadic gates, or not more** and `c` still is one if it was, and then `q` is
    not larger either. -/
def Spares (q : Circuit → Nat) (c : Nat) (g h : Circuit) : Prop :=
  h.gateCount < g.gateCount ∨ h.gateCount ≤ g.gateCount ∧
    (g.VariadicAt c → h.VariadicAt c ∧ q h ≤ q g)

section Spares

variable {q : Circuit → Nat}

instance : Std.Refl (Spares q c) := ⟨fun _ => .inr ⟨Nat.le_refl _, fun hc => ⟨hc, Nat.le_refl _⟩⟩⟩

instance : IsTrans Circuit (Spares q c) := ⟨fun _ _ _ hfirst hsecond => by
  rcases hfirst with hlt | ⟨hle, hkept⟩
  · rcases hsecond with hlt' | ⟨hle', -⟩
    · exact .inl (hlt'.trans hlt)
    · exact .inl (hle'.trans_lt hlt)
  · rcases hsecond with hlt' | ⟨hle', hkept'⟩
    · exact .inl (hlt'.trans_le hle)
    · refine .inr ⟨hle'.trans hle, fun hc => ?_⟩
      obtain ⟨hmid, hq⟩ := hkept hc
      obtain ⟨hlast, hq'⟩ := hkept' hmid
      exact ⟨hlast, hq'.trans hq⟩⟩

theorem spares_sever (hq : ∀ g a b, q (g.sever a b) ≤ q g) (g : Circuit) (a b : Nat) :
    Spares q c g (g.sever a b) := by
  refine .inr ⟨gateCount_sever_le g a b, fun ⟨label, hlabel, hvariadic⟩ => ⟨⟨label, ?_, hvariadic⟩,
    hq g a b⟩⟩
  rw [Diagram.label?_sever, hlabel]

/-- A new node that is not variadic may take the place of a variadic gate. -/
theorem spares_attach [Words] (hlabel : label.isVariadic = false)
    (hq : g.VariadicAt c → c ≠ g.nextId → q (g.attach label ps cs) ≤ q g) :
    Spares q c g (g.attach label ps cs) := by
  have hcount := gateCount_attach g hlabel ps cs
  by_cases hc : c = g.nextId
  · by_cases hvariadic : g.VariadicAt c
    · rw [← hc, hvariadic.amount_gateCount] at hcount
      exact .inl hcount
    · exact .inr ⟨Nat.le_of_add_right_le hcount, fun h => absurd h hvariadic⟩
  · refine .inr ⟨Nat.le_of_add_right_le hcount, fun hvariadic => ⟨?_, hq hvariadic hc⟩⟩
    obtain ⟨old, hold, hold'⟩ := hvariadic
    exact ⟨old, by rw [Diagram.label?_attach, if_neg hc, hold], hold'⟩

end Spares

/-- Diverting the arguments of a gate spares it. -/
theorem moves_divertAll [Words] (c : Nat) (parents : Tally) :
    Edit.Moves (Spares (fun _ => 0) c) (divertAll c parents) := by
  refine Edit.Moves.forM (fun e => ?_) parents.entries
  have hnew : Edit.Moves (Spares (fun _ => 0) c) (Edit.addNode .copy [e.1] []) :=
    Edit.moves_addNode fun g => spares_attach rfl fun _ _ => Nat.le_refl 0
  refine (Edit.moves_change fun g => ?_).bind fun _ => hnew.discard.repeated _
  exact spares_sever (fun _ _ _ => Nat.le_refl 0) g e.1 c

/-- So does negating its results, and that does not make more bulk: a negation with a single edge
    out has none. -/
theorem moves_negateAll [Words] (c : Nat) (children : Tally) :
    Edit.Moves (Spares bulk c) (negateAll c children) := by
  refine Edit.Moves.forM (fun e => ?_) children.entries
  have hnew : Edit.Moves (Spares bulk c) (Edit.addNode .not [c] [e.1]) := by
    refine Edit.moves_addNode fun g => spares_attach rfl fun hvariadic hc => ?_
    have hle := bulk_attach g .not [c] [e.1]
      fun p hp _ => List.mem_singleton.1 hp ▸ hvariadic
    rwa [List.count_singleton, if_neg (by simpa using hc)] at hle
  refine (Edit.moves_change fun g => ?_).bind fun _ => hnew.discard.repeated _
  exact spares_sever bulk_sever_le g c e.1

/-! ## Constants for edges -/

/-- **The edit adds `n` at most** to the bulk of a circuit, and no variadic gate. -/
def Adds {β : Type} (n : Nat) (e : Edit Gate β) : Prop :=
  ∀ g : Circuit, gateCount (e.runOn g).2 ≤ g.gateCount ∧ bulk (e.runOn g).2 ≤ g.bulk + n

theorem adds_pure {β : Type} (b : β) : Adds 0 (pure b) := fun _ =>
  ⟨Nat.le_refl _, Nat.le_refl _⟩

theorem Adds.bind {β γ : Type} {m n : Nat} {e : Edit Gate β} {f : β → Edit Gate γ}
    (he : Adds m e) (hf : ∀ b, Adds n (f b)) : Adds (m + n) (e >>= f) := by
  intro g
  obtain ⟨hcount, hbulk⟩ := he g
  rw [Edit.runOn_bind]
  generalize e.runOn g = run at hcount hbulk
  obtain ⟨answer, mid⟩ := run
  dsimp only at hcount hbulk
  cases answer with
  | ok b =>
    obtain ⟨hcount', hbulk'⟩ := hf b mid
    exact ⟨hcount'.trans hcount, by dsimp only; omega⟩
  | error fault => exact ⟨hcount, by dsimp only; omega⟩

theorem adds_addNode [Words] (v : Bool) (k : Nat) : Adds 1 (Edit.addNode (.const v) [] [k]) := by
  refine fun g => Edit.leaves_addNode
    (fun h : Circuit => h.gateCount ≤ gateCount g ∧ h.bulk ≤ bulk g + 1)
    ⟨Nat.le_refl _, Nat.le_succ _⟩
    fun _ => ⟨Nat.le_of_add_right_le (gateCount_attach g rfl [] [k]), ?_⟩
  exact bulk_attach g (.const v) [] [k] fun _ hp => nomatch hp

theorem adds_feedAll [Words] (v : Bool) (t : Tally) : Adds t.spread.length (feedAll v t) := by
  have hrepeated (k m : Nat) :
      Adds m (Edit.repeated (discard (Edit.addNode (.const v) [] [k])) m) := by
    induction m with
    | zero => exact adds_pure ()
    | succ m ih =>
      rw [Edit.repeated, Edit.discard_eq_bind, Nat.add_comm]
      exact ((adds_addNode v k).bind fun _ => adds_pure _).bind fun _ => ih
  rw [feedAll, Tally.spread]
  induction t.entries with
  | nil => exact adds_pure _
  | cons e l ih =>
    rw [List.flatMap_cons, List.length_append, List.length_replicate, List.forM_eq_forM,
      List.forM_cons]
    exact (hrepeated e.1 e.2).bind fun _ => ih

end Circuit

end Wiring
