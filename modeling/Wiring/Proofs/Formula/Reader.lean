import Wiring.Circuit.Formula
import Wiring.Proofs.Diagram.Merging

/-!
# Reading a formula piece by piece

The scan of a formula has no stack: it finds its way back from an operand by the only child of the
node that it is at. What it does is said here with a stack, the chain of operands that are open, and
with a step for each parenthesis. A structure of the circuit that every step keeps ties the two
together: open operands hang on each other and the last on an output, and whatever has been closed
without a name has a single child.

## Main definitions

- `Formula.Piece`, `Formula.pieces` — a formula cut at its parentheses
- `Formula.closes`, `Formula.balanced` — whether the parentheses fit
- `Formula.Reader`, `Formula.Reader.step` — the state of reading, and what a piece does to it
- `Formula.Reading` — what the circuit looks like meanwhile
- `Formula.Closing` — what becomes of the nodes when an operand ends

## Main statements

- `Formula.Reading.openOperand`, `Formula.Reading.closeOperand` — every step keeps the structure
- `Formula.Reading.not_mem_chain_of_mem_above` — the parents of closed nodes are closed
-/

namespace Wiring

open scoped Unlimited

namespace Formula

/-! ## Pieces -/

/-- A parenthesis, or the end of the formula, with the token that is pending there. -/
inductive Piece where
  /-- An operand starts. -/
  | opening (token : String)
  /-- An operand ends, or the formula. -/
  | closing (token : String)

/-- The pieces of a formula of which `token` has been read. Blanks are skipped. -/
def pieces (token : String) : List Char → List Piece
  | [] => [.closing token]
  | c :: rest =>
    if c = '(' then .opening token :: pieces "" rest
    else if c = ')' then .closing token :: pieces "" rest
    else if Text.isBlank c then pieces token rest
    else pieces (token.push c) rest

/-- Whether the pieces close `depth` operands, the last of them at the very end. -/
def closes : Nat → List Piece → Bool
  | depth, [] => depth == 0
  | 0, _ :: _ => false
  | depth + 1, .opening _ :: rest => closes (depth + 2) rest
  | depth + 1, .closing _ :: rest => closes depth rest

/-- Whether the parentheses of the formula fit. -/
def balanced (formula : String) : Bool := closes 1 (pieces "" formula.toList)

theorem pieces_ne_nil (token : String) (cs : List Char) : pieces token cs ≠ [] := by
  induction cs generalizing token with
  | nil => simp [pieces]
  | cons c cs ih =>
    rw [pieces]
    repeat' split
    all_goals first | exact List.cons_ne_nil _ _ | exact ih _

theorem closes_zero_pieces (token : String) (cs : List Char) :
    closes 0 (pieces token cs) = false := by
  obtain ⟨p, ps, hps⟩ := List.exists_cons_of_ne_nil (pieces_ne_nil token cs)
  rw [hps, closes]

/-! ## The reader -/

/-- **The state of reading**: the circuit so far, the nodes that stand for variables, and the
    operands that are open, innermost first. -/
structure Reader where
  /-- The circuit so far. -/
  circuit : Circuit
  /-- The nodes that stand for variables. -/
  names : Names
  /-- The nodes of the open operands. -/
  chain : List Nat

/-- The circuit with a node labelled by a pending token, if there is one. -/
def labelled (g : Circuit) (id : Nat) (token : String) : Circuit :=
  if token = "" then g else g.relabel id (.ofToken token)

namespace Reader

/-- Before anything is read. -/
def start : Reader := ⟨Diagram.empty, [], []⟩

/-- Labels the current node and opens an operand above it. -/
def openOperand (s : Reader) (token : String) : Reader :=
  match s.chain with
  | [] => s
  | current :: _ =>
    { s with
      circuit := (labelled s.circuit current token).attach .copy [] [current]
      chain := s.circuit.nextId :: s.chain }

/-- Ends the current operand. -/
def closeOperand (s : Reader) (token : String) : Reader :=
  match s.chain with
  | [] => s
  | current :: rest =>
    if isVariable token then
      match s.names.lookup token with
      | some first => { s with circuit := Diagram.merge s.circuit first current, chain := rest }
      | none => { s with names := (token, current) :: s.names, chain := rest }
    else { s with circuit := labelled s.circuit current token, chain := rest }

/-- What a piece does. -/
def step (s : Reader) : Piece → Reader
  | .opening token => s.openOperand token
  | .closing token => s.closeOperand token

/-- What the pieces do one after the other. -/
def run (s : Reader) (ps : List Piece) : Reader := ps.foldl step s

/-- Starts a formula: a new output, and a node that feeds it. -/
def openFormula (s : Reader) : Reader :=
  let root := s.circuit.nextId
  { s with
    circuit := ((s.circuit.attach .copy [] []).attach .copy [root] []).pushOutput (root + 1)
    chain := [root] }

/-- Reads a formula. -/
def read (s : Reader) (formula : String) : Reader :=
  s.openFormula.run (pieces "" formula.toList)

/-- Reads formulas one after the other. -/
def readAll (s : Reader) (formulas : List String) : Reader := formulas.foldl read s

end Reader

/-! ## The structure of the circuit -/

variable {g h : Circuit} {s : Reader} {names : Names} {chain rest : List Nat}
  {current first i k o : Nat} {token : String}

/-- Each node of the chain has the next one as its only child, and the last one an output. -/
def Descends (g : Circuit) : List Nat → Prop
  | [] => True
  | [last] => ∃ o ∈ g.outputs, g.below last = [o]
  | k :: c :: rest => g.below k = [c] ∧ Descends g (c :: rest)

/-- **What the circuit looks like while it is read**: there are no inputs yet; outputs are fed by a
    single edge; the open operands form a chain down to an output; names stand for nodes that are
    closed, and all other closed nodes have a single child. -/
structure Reading (s : Reader) : Prop where
  coherent : s.circuit.Coherent
  idsBelow : s.circuit.IdsBelow
  inputs : s.circuit.inputs = []
  nodup_outputs : s.circuit.outputs.Nodup
  output : ∀ o ∈ s.circuit.outputs,
    s.circuit.contains o = true ∧ s.circuit.below o = [] ∧ (s.circuit.above o).length = 1
  nodup_chain : s.chain.Nodup
  descends : Descends s.circuit s.chain
  nodup_keys : (s.names.map (·.1)).Nodup
  nodup_named : (s.names.map (·.2)).Nodup
  named : ∀ k ∈ s.names.map (·.2),
    s.circuit.contains k = true ∧ k ∉ s.circuit.outputs ∧ k ∉ s.chain
  unnamed : ∀ k, s.circuit.contains k = true → k ∉ s.circuit.outputs → k ∉ s.chain →
    k ∉ s.names.map (·.2) → (s.circuit.below k).length = 1

/-- **What the end of an operand does to the circuit**: the node of the operand goes where `f` says,
    and all others stay. The edges go with the nodes. -/
structure Closing (s s' : Reader) (current : Nat) (rest : List Nat) (f : Nat → Nat) : Prop where
  chain_eq : s'.chain = rest
  outputs_eq : s'.circuit.outputs = s.circuit.outputs
  stays : ∀ k, k ≠ current → f k = k
  not_mem : f current ∉ rest
  names : ∀ e ∈ s.names, e ∈ s'.names
  edge : ∀ u v, u ∈ s.circuit.above v → f u ∈ s'.circuit.above (f v)
  below : ∀ k ∈ rest, s'.circuit.below k = s.circuit.below k
  above : ∀ k, s.circuit.contains k = true → k ∈ rest ∨ k ∈ s.circuit.outputs →
    (s'.circuit.above k).Perm ((s.circuit.above k).map f)
  label : ∀ k, k ∈ rest ∨ k ∈ s.circuit.outputs → s'.circuit.label? k = s.circuit.label? k

/-- The child of a node of the chain is a later one or an output. -/
theorem Descends.below_eq (hd : Descends g chain) (hk : k ∈ chain) :
    ∃ c, g.below k = [c] ∧ (c ∈ chain.tail ∨ c ∈ g.outputs) := by
  induction chain with
  | nil => cases hk
  | cons a chain ih =>
    cases chain with
    | nil =>
      obtain ⟨o, hout, ho⟩ := hd
      obtain rfl := List.mem_singleton.1 hk
      exact ⟨o, ho, .inr hout⟩
    | cons b chain =>
      rcases List.mem_cons.1 hk with rfl | hk
      · exact ⟨b, hd.1, .inl List.mem_cons_self⟩
      · obtain ⟨c, hc, hmem⟩ := ih hd.2 hk
        exact ⟨c, hc, hmem.imp_left (List.mem_cons_of_mem _)⟩

theorem Descends.tail {chain : List Nat} (hd : Descends g (k :: chain)) : Descends g chain := by
  cases chain with
  | nil => trivial
  | cons c chain => exact hd.2

/-- A chain is not touched by changes of other lists of children. -/
theorem Descends.congr (hd : Descends g chain) (hout : ∀ o ∈ g.outputs, o ∈ h.outputs)
    (hbelow : ∀ k ∈ chain, h.below k = g.below k) : Descends h chain := by
  induction chain with
  | nil => trivial
  | cons k chain ih =>
    have hk := hbelow k List.mem_cons_self
    have hrest := ih hd.tail fun j hj => hbelow j (List.mem_cons_of_mem _ hj)
    cases chain with
    | nil =>
      obtain ⟨o, ho, hko⟩ := hd
      exact ⟨o, hout o ho, hk.trans hko⟩
    | cons c chain => exact ⟨hk.trans hd.1, hrest⟩

theorem mem_of_lookup (h : names.lookup token = some k) : (token, k) ∈ names := by
  obtain ⟨before, after, heq, -⟩ := List.lookup_eq_some_iff.1 h
  rw [heq]
  exact List.mem_append_right _ List.mem_cons_self

theorem not_mem_of_lookup (h : names.lookup token = none) : token ∉ names.map (·.1) := by
  intro hmem
  obtain ⟨e, he, rfl⟩ := List.mem_map.1 hmem
  simpa using List.lookup_eq_none_iff.1 h e he

/-! ## The end of an operand -/

namespace Reader

variable (hchain : s.chain = current :: rest)
include hchain

theorem not_mem_chain_iff : k ∉ s.chain ↔ k ≠ current ∧ k ∉ rest := by
  rw [hchain, List.mem_cons, not_or]

/-- An operand that ends with a name that is known. -/
theorem closeOperand_known (hvar : isVariable token = true)
    (hlookup : s.names.lookup token = some first) :
    s.closeOperand token = ⟨Diagram.merge s.circuit first current, s.names, rest⟩ := by
  simp only [closeOperand, hchain, hvar, if_true, hlookup]

/-- An operand that ends with a new name. -/
theorem closeOperand_new (hvar : isVariable token = true)
    (hlookup : s.names.lookup token = none) :
    s.closeOperand token = ⟨s.circuit, (token, current) :: s.names, rest⟩ := by
  simp only [closeOperand, hchain, hvar, if_true, hlookup]

/-- An operand that ends as a gate. -/
theorem closeOperand_gate (hvar : isVariable token = false) :
    s.closeOperand token = ⟨labelled s.circuit current token, s.names, rest⟩ := by
  simp only [closeOperand, hchain, hvar, Bool.false_eq_true, if_false]

end Reader

/-! ## Labels -/

@[simp] theorem contains_labelled : (labelled g i token).contains k = g.contains k := by
  unfold labelled
  split
  · rfl
  · exact Diagram.contains_relabel

@[simp] theorem above_labelled : (labelled g i token).above k = g.above k := by
  unfold labelled
  split
  · rfl
  · exact Diagram.above_relabel

@[simp] theorem below_labelled : (labelled g i token).below k = g.below k := by
  unfold labelled
  split
  · rfl
  · exact Diagram.below_relabel

@[simp] theorem inputs_labelled : (labelled g i token).inputs = g.inputs := by
  unfold labelled
  split <;> rfl

@[simp] theorem outputs_labelled : (labelled g i token).outputs = g.outputs := by
  unfold labelled
  split <;> rfl

@[simp] theorem nextId_labelled : (labelled g i token).nextId = g.nextId := by
  unfold labelled
  split <;> rfl

theorem label?_labelled_of_ne (hk : k ≠ i) : (labelled g i token).label? k = g.label? k := by
  unfold labelled
  split
  · rfl
  · rw [Diagram.label?_relabel, if_neg hk]

theorem coherent_labelled (hg : g.Coherent) : (labelled g i token).Coherent := by
  unfold labelled
  split
  · exact hg
  · exact hg.relabel i _

theorem idsBelow_labelled (hg : g.IdsBelow) : (labelled g i token).IdsBelow := by
  unfold labelled
  split
  · exact hg
  · exact hg.relabel i _

theorem runOn_labelPending (hi : g.contains i = true) :
    (labelPending i token).runOn g = (.ok (), labelled g i token) := by
  unfold labelPending labelled
  split
  · rfl
  · exact Edit.runOn_setLabel hi

namespace Reading

variable (hs : Reading s)
include hs

theorem contains_of_mem_chain (hk : k ∈ s.chain) : s.circuit.contains k = true := by
  obtain ⟨c, hc, -⟩ := hs.descends.below_eq hk
  exact Diagram.contains_of_mem_below (i := c) (by rw [hc]; exact List.mem_singleton_self c)

theorem not_output_of_mem_chain (hk : k ∈ s.chain) : k ∉ s.circuit.outputs := by
  obtain ⟨c, hc, -⟩ := hs.descends.below_eq hk
  intro ho
  rw [(hs.output k ho).2.1] at hc
  cases hc

theorem label (i : Nat) (token : String) :
    Reading { s with circuit := labelled s.circuit i token } where
  coherent := coherent_labelled hs.coherent
  idsBelow := idsBelow_labelled hs.idsBelow
  inputs := inputs_labelled.trans hs.inputs
  nodup_outputs := by simpa using hs.nodup_outputs
  output o ho := by
    rw [contains_labelled, below_labelled, above_labelled]
    exact hs.output o (outputs_labelled ▸ ho)
  nodup_chain := hs.nodup_chain
  descends := hs.descends.congr (fun o ho => by rwa [outputs_labelled]) fun k _ => below_labelled
  nodup_keys := hs.nodup_keys
  nodup_named := hs.nodup_named
  named k hk := by
    rw [contains_labelled, outputs_labelled]
    exact hs.named k hk
  unnamed k hk := by
    rw [contains_labelled] at hk
    rw [outputs_labelled, below_labelled]
    exact hs.unnamed k hk

/-! ## Opening -/

/-- No node is stored under the next id. -/
theorem ne_nextId (hk : s.circuit.contains k = true) : k ≠ s.circuit.nextId :=
  Nat.ne_of_lt (hs.idsBelow k hk)

theorem hosts_current (hchain : s.chain = current :: rest) :
    s.circuit.Hosts [] [current] where
  parent p hp := by cases hp
  child c hc := by
    obtain rfl := List.mem_singleton.1 hc
    refine ⟨hs.contains_of_mem_chain (hchain ▸ List.mem_cons_self), ?_⟩
    rw [hs.inputs]
    exact List.not_mem_nil

/-- An old node keeps its children when nothing above it is attached. -/
theorem below_attach_old (cs : List Nat) (hk : s.circuit.contains k = true) :
    ((s.circuit.attach .copy [] cs).below k).Perm (s.circuit.below k) := by
  have hperm := Diagram.below_attach (g := s.circuit) .copy [] cs List.not_mem_nil (.inr hk)
  rwa [if_neg (hs.ne_nextId hk), List.count_nil, List.replicate_zero, List.append_nil] at hperm

theorem descends_attach (cs : List Nat) :
    Descends (s.circuit.attach .copy [] cs) s.chain := by
  refine hs.descends.congr (fun o ho => by rwa [Diagram.outputs_attach]) fun k hk => ?_
  obtain ⟨c, hc, -⟩ := hs.descends.below_eq hk
  have hperm := hs.below_attach_old cs (hs.contains_of_mem_chain hk)
  rw [hc] at hperm ⊢
  exact List.perm_singleton.1 hperm

theorem attachOperand (hchain : s.chain = current :: rest) :
    Reading ⟨s.circuit.attach .copy [] [current], s.names, s.circuit.nextId :: s.chain⟩ := by
  have hcurrent : current ∈ s.chain := hchain ▸ List.mem_cons_self
  have hnew := hs.idsBelow.not_contains (Nat.le_refl _)
  have hcs : ∀ c ∈ [current], s.circuit.contains c = true := fun c hc =>
    ((hs.hosts_current hchain).child c hc).1
  -- only the operand that stays open below gets another parent
  have habove {k : Nat} (hk : s.circuit.contains k = true) (hne : k ≠ current) :
      ((s.circuit.attach .copy [] [current]).above k).Perm (s.circuit.above k) := by
    have hperm := Diagram.above_attach .copy [] [current] (hs.idsBelow.not_mem hcs) (.inr hk)
    rwa [if_neg (hs.ne_nextId hk), List.count_singleton, if_neg (by simpa using Ne.symm hne),
      List.replicate_zero, List.append_nil] at hperm
  have hbelow : (s.circuit.attach .copy [] [current]).below s.circuit.nextId = [current] := by
    have hperm := Diagram.below_attach (g := s.circuit) .copy [] [current] List.not_mem_nil
      (.inl rfl)
    rw [if_pos rfl] at hperm
    exact List.perm_singleton.1 hperm
  have hfresh {l : List Nat} (hl : ∀ k ∈ l, s.circuit.contains k = true) :
      s.circuit.nextId ∉ l := hs.idsBelow.not_mem hl
  refine
    { coherent := hs.coherent.attach hnew (fun p hp => (nomatch hp)) hcs
      idsBelow := hs.idsBelow.attach
      inputs := Diagram.inputs_attach.trans hs.inputs
      nodup_outputs := by simpa using hs.nodup_outputs
      output := fun o ho => ?_
      nodup_chain := List.nodup_cons.2
        ⟨hfresh fun k hk => hs.contains_of_mem_chain hk, hs.nodup_chain⟩
      descends := ?_
      nodup_keys := hs.nodup_keys
      nodup_named := hs.nodup_named
      named := fun k hk => ?_
      unnamed := fun k hk hout hch hname => ?_ }
  · rw [Diagram.outputs_attach] at ho
    obtain ⟨hc, hnil, hone⟩ := hs.output o ho
    have hne : o ≠ current := fun heq => hs.not_output_of_mem_chain hcurrent (heq ▸ ho)
    refine ⟨by rw [Diagram.contains_attach, hc, Bool.true_or], ?_, (habove hc hne).length_eq ▸ hone⟩
    exact List.perm_nil.1 (hnil ▸ hs.below_attach_old _ hc)
  · have htail := hs.descends_attach [current]
    rw [hchain] at htail ⊢
    exact ⟨hbelow, htail⟩
  · obtain ⟨hc, hout, hch⟩ := hs.named k hk
    refine ⟨by rw [Diagram.contains_attach, hc, Bool.true_or], by rwa [Diagram.outputs_attach], ?_⟩
    rw [List.mem_cons, not_or]
    exact ⟨hs.ne_nextId hc, hch⟩
  · rw [List.mem_cons, not_or] at hch
    rw [Diagram.contains_attach, Bool.or_eq_true, beq_iff_eq, or_iff_left hch.1] at hk
    rw [Diagram.outputs_attach] at hout
    rw [(hs.below_attach_old _ hk).length_eq]
    exact hs.unnamed k hk hout hch.2 hname

/-- **Opening an operand keeps the structure.** -/
theorem openOperand (token : String) : Reading (s.openOperand token) := by
  cases hchain : s.chain with
  | nil =>
    rw [Reader.openOperand, hchain]
    exact hs
  | cons current rest =>
    have := (hs.label current token).attachOperand hchain
    rw [Reader.openOperand, hchain]
    rwa [nextId_labelled, hchain] at this

/-! ## Closing -/

theorem current_not_mem_rest (hchain : s.chain = current :: rest) : current ∉ rest :=
  (List.nodup_cons.1 (hchain ▸ hs.nodup_chain)).1

theorem descends_rest (hchain : s.chain = current :: rest) : Descends s.circuit rest := by
  have hd := hs.descends
  rw [hchain] at hd
  exact hd.tail

/-- An operand that ends without a name has a single child. -/
theorem pop (hchain : s.chain = current :: rest) : Reading ⟨s.circuit, s.names, rest⟩ where
  coherent := hs.coherent
  idsBelow := hs.idsBelow
  inputs := hs.inputs
  nodup_outputs := hs.nodup_outputs
  output := hs.output
  nodup_chain := (List.nodup_cons.1 (hchain ▸ hs.nodup_chain)).2
  descends := hs.descends_rest hchain
  nodup_keys := hs.nodup_keys
  nodup_named := hs.nodup_named
  named k hk := by
    obtain ⟨hc, hout, hch⟩ := hs.named k hk
    exact ⟨hc, hout, fun hmem => hch (hchain ▸ List.mem_cons_of_mem _ hmem)⟩
  unnamed k hk hout hrest hname := by
    by_cases hcur : k = current
    · obtain ⟨c, hc, -⟩ := hs.descends.below_eq (k := k) (hchain ▸ hcur ▸ List.mem_cons_self)
      rw [hc]
      rfl
    · exact hs.unnamed k hk hout ((Reader.not_mem_chain_iff hchain).2 ⟨hcur, hrest⟩) hname

theorem current_not_named (hchain : s.chain = current :: rest) : current ∉ s.names.map (·.2) :=
  fun hmem => (hs.named current hmem).2.2 (hchain ▸ List.mem_cons_self)

/-- An operand that ends with a new name stands for it from then on. -/
theorem name (hchain : s.chain = current :: rest) (hnew : token ∉ s.names.map (·.1)) :
    Reading ⟨s.circuit, (token, current) :: s.names, rest⟩ where
  coherent := hs.coherent
  idsBelow := hs.idsBelow
  inputs := hs.inputs
  nodup_outputs := hs.nodup_outputs
  output := hs.output
  nodup_chain := (hs.pop hchain).nodup_chain
  descends := hs.descends_rest hchain
  nodup_keys := List.nodup_cons.2 ⟨hnew, hs.nodup_keys⟩
  nodup_named := List.nodup_cons.2 ⟨hs.current_not_named hchain, hs.nodup_named⟩
  named k hk := by
    rcases List.mem_cons.1 hk with rfl | hk
    · have hmem : k ∈ s.chain := hchain ▸ List.mem_cons_self
      exact ⟨hs.contains_of_mem_chain hmem, hs.not_output_of_mem_chain hmem,
        hs.current_not_mem_rest hchain⟩
    · exact (hs.pop hchain).named k hk
  unnamed k hk hout hrest hname :=
    (hs.pop hchain).unnamed k hk hout hrest fun hmem => hname (List.mem_cons_of_mem _ hmem)

section Merge

variable (hchain : s.chain = current :: rest) (hfirst : first ∈ s.names.map (·.2))
include hchain hfirst

theorem first_ne_current : first ≠ current := fun heq =>
  hs.current_not_named hchain (heq ▸ hfirst)

/-- Nodes other than the two that are merged keep the children that they have, if the current node
    is not among them. -/
theorem below_merge_of_not_mem (hk : s.circuit.contains k = true) (hkf : k ≠ first)
    (hkc : k ≠ current) :
    ((Diagram.merge s.circuit first current).below k).Perm
      ((s.circuit.below k).map (Diagram.retarget first current)) := by
  have hcur := hs.contains_of_mem_chain (k := current) (hchain ▸ List.mem_cons_self)
  have hperm := Diagram.below_merge hs.coherent (hs.first_ne_current hchain hfirst) hcur hk hkc
  rwa [if_neg hkf] at hperm

theorem above_merge_of_not_mem (hk : s.circuit.contains k = true) (hkf : k ≠ first)
    (hkc : k ≠ current) :
    ((Diagram.merge s.circuit first current).above k).Perm
      ((s.circuit.above k).map (Diagram.retarget first current)) := by
  have hcur := hs.contains_of_mem_chain (k := current) (hchain ▸ List.mem_cons_self)
  have hperm := Diagram.above_merge hs.coherent (hs.first_ne_current hchain hfirst) hcur hk hkc
  rwa [if_neg hkf] at hperm

/-- Parents are as before, with `first` in the place of the current node. -/
theorem mem_above_merge (hk : s.circuit.contains k = true) (hkc : k ≠ current) :
    i ∈ (Diagram.merge s.circuit first current).above k ↔
      ∃ q, (q ∈ s.circuit.above k ∨ k = first ∧ q ∈ s.circuit.above current) ∧
        i = Diagram.retarget first current q := by
  have hcur := hs.contains_of_mem_chain (k := current) (hchain ▸ List.mem_cons_self)
  rw [(Diagram.above_merge hs.coherent (hs.first_ne_current hchain hfirst) hcur hk hkc).mem_iff,
    List.mem_map]
  by_cases hkf : k = first
  · simp [hkf, eq_comm]
  · simp [hkf, eq_comm]

/-- The current node is no child of the rest of the chain. -/
theorem below_merge_rest (hk : k ∈ rest) :
    (Diagram.merge s.circuit first current).below k = s.circuit.below k := by
  have hkc : k ≠ current := fun heq => hs.current_not_mem_rest hchain (heq ▸ hk)
  have hmem : k ∈ s.chain := hchain ▸ List.mem_cons_of_mem _ hk
  have hkf : k ≠ first := fun heq => (hs.named first hfirst).2.2 (heq ▸ hmem)
  have hperm := hs.below_merge_of_not_mem hchain hfirst (hs.contains_of_mem_chain hmem) hkf hkc
  -- children in the rest of the chain are in it too, or outputs
  obtain ⟨c, hc, hcmem⟩ := (hs.descends_rest hchain).below_eq hk
  have hcc : c ≠ current := by
    rintro rfl
    rcases hcmem with hcmem | hcmem
    · exact hs.current_not_mem_rest hchain (List.mem_of_mem_tail hcmem)
    · exact hs.not_output_of_mem_chain (hchain ▸ List.mem_cons_self) hcmem
  rw [hc] at hperm ⊢
  rw [List.map_singleton, Diagram.retarget_of_ne hcc] at hperm
  exact List.perm_singleton.1 hperm

theorem outputs_merge :
    (Diagram.merge s.circuit first current).outputs = s.circuit.outputs := by
  have hmem : current ∈ s.chain := hchain ▸ List.mem_cons_self
  rw [Diagram.outputs_merge (hs.first_ne_current hchain hfirst) (hs.contains_of_mem_chain hmem)]
  refine (List.map_congr_left fun o ho => Diagram.retarget_of_ne fun heq => ?_).trans
    (List.map_id' _)
  exact hs.not_output_of_mem_chain hmem (heq ▸ ho)

theorem contains_merge : (Diagram.merge s.circuit first current).contains k = true ↔
    s.circuit.contains k = true ∧ k ≠ current := by
  rw [Diagram.contains_merge (hs.first_ne_current hchain hfirst)
    (hs.contains_of_mem_chain (hchain ▸ List.mem_cons_self)), Bool.and_eq_true, bne_iff_ne]

/-- What is closed after the current node is merged is another node that was closed before. -/
theorem closed_before_merge (hk : (Diagram.merge s.circuit first current).contains k = true)
    (hout : k ∉ (Diagram.merge s.circuit first current).outputs) (hrest : k ∉ rest) :
    s.circuit.contains k = true ∧ k ≠ current ∧ k ∉ s.circuit.outputs ∧ k ∉ s.chain := by
  obtain ⟨hc, hkc⟩ := (hs.contains_merge hchain hfirst).1 hk
  rw [hs.outputs_merge hchain hfirst] at hout
  exact ⟨hc, hkc, hout, (Reader.not_mem_chain_iff hchain).2 ⟨hkc, hrest⟩⟩

theorem merge : Reading ⟨Diagram.merge s.circuit first current, s.names, rest⟩ := by
  have hmem : current ∈ s.chain := hchain ▸ List.mem_cons_self
  have hcur := hs.contains_of_mem_chain hmem
  have hcout := hs.not_output_of_mem_chain hmem
  obtain ⟨hf, hfout, hfchain⟩ := hs.named first hfirst
  have hne := hs.first_ne_current hchain hfirst
  have houtputs := hs.outputs_merge hchain hfirst
  have hpop := hs.pop hchain
  refine
    { coherent := Diagram.Coherent.merge hs.coherent hne hf hcur
      idsBelow := hs.idsBelow.merge hne hcur
      inputs := by
        rw [Diagram.inputs_merge hne hcur, hs.inputs]
        rfl
      nodup_outputs := by
        rw [houtputs]
        exact hs.nodup_outputs
      output := fun o ho => ?_
      nodup_chain := hpop.nodup_chain
      descends := hpop.descends.congr (fun o ho => by rwa [houtputs]) fun k hk =>
        hs.below_merge_rest hchain hfirst hk
      nodup_keys := hs.nodup_keys
      nodup_named := hs.nodup_named
      named := fun k hk => ?_
      unnamed := fun k hk hout hrest hname => ?_ }
  · rw [houtputs] at ho
    obtain ⟨hc, hnil, hone⟩ := hs.output o ho
    -- an output is neither of the two nodes that become one
    have hof : o ≠ first := fun heq => hfout (heq ▸ ho)
    have hoc : o ≠ current := fun heq => hcout (heq ▸ ho)
    have hbelow := hs.below_merge_of_not_mem hchain hfirst hc hof hoc
    rw [hnil] at hbelow
    refine ⟨(hs.contains_merge hchain hfirst).2 ⟨hc, hoc⟩, List.perm_nil.1 hbelow, ?_⟩
    rw [(hs.above_merge_of_not_mem hchain hfirst hc hof hoc).length_eq, List.length_map, hone]
  · obtain ⟨hc, hout, hch⟩ := hs.named k hk
    exact ⟨(hs.contains_merge hchain hfirst).2 ⟨hc, fun heq => hch (heq ▸ hmem)⟩,
      by rwa [houtputs], (hpop.named k hk).2.2⟩
  · obtain ⟨hc, hkc, hout, -⟩ := hs.closed_before_merge hchain hfirst hk hout hrest
    have hkf : k ≠ first := fun heq => hname (heq ▸ hfirst)
    rw [(hs.below_merge_of_not_mem hchain hfirst hc hkf hkc).length_eq, List.length_map]
    exact hpop.unnamed k hc hout hrest hname

end Merge

/-- **Closing an operand keeps the structure.** -/
theorem closeOperand (token : String) : Reading (s.closeOperand token) := by
  cases hchain : s.chain with
  | nil =>
    rw [Reader.closeOperand, hchain]
    exact hs
  | cons current rest =>
    cases hvar : isVariable token with
    | false =>
      rw [Reader.closeOperand_gate hchain hvar]
      exact (hs.label current token).pop hchain
    | true =>
      cases hlookup : s.names.lookup token with
      | none =>
        rw [Reader.closeOperand_new hchain hvar hlookup]
        exact hs.name hchain (not_mem_of_lookup hlookup)
      | some first =>
        rw [Reader.closeOperand_known hchain hvar hlookup]
        exact hs.merge hchain (List.mem_map_of_mem (mem_of_lookup hlookup))

/-- The current node is not below itself. -/
theorem ne_current_of_mem (hchain : s.chain = current :: rest)
    (hk : k ∈ rest ∨ k ∈ s.circuit.outputs) : k ≠ current := by
  rintro rfl
  exact hk.elim (hs.current_not_mem_rest hchain)
    (hs.not_output_of_mem_chain (hchain ▸ List.mem_cons_self))

theorem closing_gate (hchain : s.chain = current :: rest) (token : String) :
    Closing s ⟨labelled s.circuit current token, s.names, rest⟩ current rest id where
  chain_eq := rfl
  outputs_eq := outputs_labelled
  stays _ _ := rfl
  not_mem := hs.current_not_mem_rest hchain
  names _ he := he
  edge u v hu := by rwa [id, id, above_labelled]
  below _ _ := below_labelled
  above k _ _ := by rw [above_labelled, List.map_id]
  label k hk := label?_labelled_of_ne (hs.ne_current_of_mem hchain hk)

theorem closing_new (hchain : s.chain = current :: rest) (token : String) :
    Closing s ⟨s.circuit, (token, current) :: s.names, rest⟩ current rest id where
  chain_eq := rfl
  outputs_eq := rfl
  stays _ _ := rfl
  not_mem := hs.current_not_mem_rest hchain
  names _ he := List.mem_cons_of_mem _ he
  edge _ _ hu := hu
  below _ _ := rfl
  above k _ _ := by rw [List.map_id]
  label _ _ := rfl

theorem closing_known (hchain : s.chain = current :: rest) (hfirst : first ∈ s.names.map (·.2)) :
    Closing s ⟨Diagram.merge s.circuit first current, s.names, rest⟩ current rest
      (Diagram.retarget first current) := by
  have hne := hs.first_ne_current hchain hfirst
  have hcur := hs.contains_of_mem_chain (k := current) (hchain ▸ List.mem_cons_self)
  obtain ⟨hf, hfout, hfch⟩ := hs.named first hfirst
  have hfrest : first ∉ rest := fun hrest => hfch (hchain ▸ List.mem_cons_of_mem _ hrest)
  have hkf {k : Nat} (hk : k ∈ rest ∨ k ∈ s.circuit.outputs) : k ≠ first := by
    rintro rfl
    exact hk.elim hfrest hfout
  refine
    { chain_eq := rfl
      outputs_eq := hs.outputs_merge hchain hfirst
      stays := fun k hk => Diagram.retarget_of_ne hk
      not_mem := by rwa [Diagram.retarget_self]
      names := fun _ he => he
      edge := fun u v hu => ?_
      below := fun k hk => hs.below_merge_rest hchain hfirst hk
      above := fun k hc hk => hs.above_merge_of_not_mem hchain hfirst hc (hkf hk)
        (hs.ne_current_of_mem hchain hk)
      label := fun k hk => (Diagram.label?_merge hne hcur).trans
        (if_neg (hs.ne_current_of_mem hchain hk)) }
  by_cases hvc : v = current
  · rw [hvc, Diagram.retarget_self]
    exact (hs.mem_above_merge hchain hfirst hf hne).2 ⟨u, .inr ⟨rfl, hvc ▸ hu⟩, rfl⟩
  · rw [Diagram.retarget_of_ne hvc]
    exact (hs.mem_above_merge hchain hfirst (Diagram.contains_of_mem_above hu) hvc).2
      ⟨u, .inl hu, rfl⟩

/-- **Every step keeps the structure.** -/
theorem step (p : Piece) : Reading (s.step p) := by
  cases p with
  | opening token => exact hs.openOperand token
  | closing token => exact hs.closeOperand token

theorem run (ps : List Piece) : Reading (s.run ps) := by
  induction ps generalizing s with
  | nil => exact hs
  | cons p ps ih => exact ih (hs.step p)

/-! ## Parents -/

/-- The parents of closed nodes are closed. -/
theorem not_mem_chain_of_mem_above (hout : k ∉ s.circuit.outputs) (hch : k ∉ s.chain)
    (hi : i ∈ s.circuit.above k) : i ∉ s.chain := by
  intro hmem
  obtain ⟨c, hc, hcmem⟩ := hs.descends.below_eq hmem
  rw [hs.coherent.mem_above_iff, hc, List.mem_singleton] at hi
  rcases hcmem with hcmem | hcmem
  · exact hch (hi ▸ List.mem_of_mem_tail hcmem)
  · exact hout (hi ▸ hcmem)

/-- The parents of the current operand are closed. -/
theorem not_mem_chain_of_mem_above_current (hchain : s.chain = current :: rest)
    (hi : i ∈ s.circuit.above current) : i ∉ s.chain := by
  intro hmem
  obtain ⟨c, hc, hcmem⟩ := hs.descends.below_eq hmem
  rw [hs.coherent.mem_above_iff, hc, List.mem_singleton] at hi
  rw [hchain, List.tail_cons, ← hi] at hcmem
  rcases hcmem with hcmem | hcmem
  · exact hs.current_not_mem_rest hchain hcmem
  · exact hs.not_output_of_mem_chain (hchain ▸ List.mem_cons_self) hcmem

/-- The current operand has a single child, the next one of the chain. -/
theorem eq_of_current_mem_above {c : Nat} {rest' : List Nat}
    (hchain : s.chain = current :: c :: rest') (hk : current ∈ s.circuit.above k) : k = c := by
  have hd := hs.descends
  rw [hchain] at hd
  rwa [hs.coherent.mem_above_iff, hd.1, List.mem_singleton] at hk

omit hs in
theorem contains_openOperand (hchain : s.chain = current :: rest) :
    (s.openOperand token).circuit.contains k = true ↔
      s.circuit.contains k = true ∨ k = s.circuit.nextId := by
  rw [Reader.openOperand, hchain]
  show ((labelled s.circuit current token).attach .copy [] [current]).contains k = true ↔ _
  rw [Diagram.contains_attach, contains_labelled, nextId_labelled, Bool.or_eq_true, beq_iff_eq]

omit hs in
theorem outputs_openOperand : (s.openOperand token).circuit.outputs = s.circuit.outputs := by
  unfold Reader.openOperand
  split
  · rfl
  · show ((labelled s.circuit _ token).attach .copy [] _).outputs = _
    rw [Diagram.outputs_attach, outputs_labelled]

/-- The current operand gets the new one for a parent. -/
theorem above_openOperand (token : String) (hchain : s.chain = current :: rest)
    (hk : s.circuit.contains k = true) : ((s.openOperand token).circuit.above k).Perm
      (s.circuit.above k ++ if k = current then [s.circuit.nextId] else []) := by
  have hl := hs.label current token
  have hperm := Diagram.above_attach (g := labelled s.circuit current token) (j := k) .copy []
    [current] (hl.idsBelow.not_mem fun c hc =>
      ((hl.hosts_current hchain).child c hc).1)
    (.inr (by rwa [contains_labelled]))
  rw [nextId_labelled, if_neg (hs.ne_nextId hk), above_labelled, List.count_singleton] at hperm
  rw [Reader.openOperand, hchain]
  refine hperm.trans (.of_eq ?_)
  by_cases hkc : k = current
  · rw [if_pos hkc, if_pos (by simpa using hkc.symm)]
    rfl
  · rw [if_neg hkc, if_neg (by simpa using Ne.symm hkc)]
    rfl

/-- Old nodes keep their children. -/
theorem below_openOperand (token : String) (hchain : s.chain = current :: rest)
    (hk : s.circuit.contains k = true) :
    ((s.openOperand token).circuit.below k).Perm (s.circuit.below k) := by
  have hperm := (hs.label current token).below_attach_old [current]
    (contains_labelled.trans hk)
  rw [below_labelled] at hperm
  rwa [Reader.openOperand, hchain]

/-- The new operand has no parents. -/
theorem above_openOperand_new (hchain : s.chain = current :: rest) :
    (s.openOperand token).circuit.above s.circuit.nextId = [] := by
  have hl := hs.label current token
  have hperm := Diagram.above_attach (g := labelled s.circuit current token) .copy []
    [current] (hl.idsBelow.not_mem fun c hc =>
      ((hl.hosts_current hchain).child c hc).1) (.inl rfl)
  rw [if_pos rfl, nextId_labelled, List.perm_nil] at hperm
  rwa [Reader.openOperand, hchain]

end Reading

end Formula

end Wiring
