import Wiring.Proofs.Diagram.Orderly
import Wiring.Proofs.Formula.Parentheses

/-!
# The scan makes the reader's steps

What the scan leaves of a formula whose parentheses fit is what the reader's steps leave. Any other
formula is refused for its first parenthesis without a partner, and for no other reason.

## Main definitions

- `Formula.rooted` — a new output and the node that feeds it
- `Formula.RefusedAt` — a refusal for a parenthesis without a partner

## Main statements

- `Formula.Reading.openFormula` — a new output keeps the structure
- `Formula.run_induction` — induction over the pieces of a formula whose parentheses fit
- `Formula.runOn_scan`, `Formula.runOn_readAll` — what reading leaves, and when it is refused
-/

namespace Wiring

open scoped Unlimited

namespace Formula

variable {g h : Circuit} {s : Reader} {names : Names} {rest : List Nat} {current i k o : Nat}
  {token name : String} {formulas : List String}

/-! ## Formulas start -/

theorem Reading.start : Reading .start where
  coherent := Diagram.Orderly.empty.coherent
  idsBelow := Diagram.Orderly.empty.idsBelow
  inputs := rfl
  nodup_outputs := .nil
  output _ ho := nomatch ho
  nodup_chain := .nil
  descends := trivial
  nodup_keys := .nil
  nodup_named := .nil
  named _ hk := nomatch hk
  unnamed _ hk := nomatch hk

/-- The circuit with a new node and another one, its only child, that is to be an output. -/
def rooted (g : Circuit) : Circuit := (g.attach .copy [] []).attach .copy [g.nextId] []

theorem contains_rooted : (rooted g).contains k = true ↔
    g.contains k = true ∨ k = g.nextId ∨ k = g.nextId + 1 := by
  rw [rooted, Diagram.contains_attach, Diagram.contains_attach, Diagram.nextId_attach,
    Bool.or_eq_true, Bool.or_eq_true, beq_iff_eq, beq_iff_eq, or_assoc]

@[simp] theorem inputs_rooted : (rooted g).inputs = g.inputs := by
  rw [rooted, Diagram.inputs_attach, Diagram.inputs_attach]

@[simp] theorem outputs_rooted : (rooted g).outputs = g.outputs := by
  rw [rooted, Diagram.outputs_attach, Diagram.outputs_attach]

theorem not_mem_root : (g.attach .copy [] []).nextId ∉ [g.nextId] := by
  rw [Diagram.nextId_attach, List.mem_singleton]
  omega

theorem contains_root : (g.attach .copy [] []).contains g.nextId = true := by
  simp [Diagram.contains_attach]

theorem above_rooted_root : (rooted g).above g.nextId = [] := by
  have hfirst := Diagram.above_attach (g := g) .copy [] [] List.not_mem_nil (.inl rfl)
  have hsecond := Diagram.above_attach (g := g.attach .copy [] []) .copy [g.nextId] []
    List.not_mem_nil (.inr contains_root)
  rw [if_pos rfl] at hfirst
  rw [Diagram.nextId_attach, if_neg (by omega), List.count_nil, List.replicate_zero,
    List.append_nil] at hsecond
  exact List.perm_nil.1 (hsecond.trans hfirst)

theorem below_rooted_root : (rooted g).below g.nextId = [g.nextId + 1] := by
  have hfirst := Diagram.below_attach (g := g) .copy [] [] List.not_mem_nil (.inl rfl)
  have hsecond := Diagram.below_attach (g := g.attach .copy [] []) .copy [g.nextId] [] not_mem_root
    (.inr contains_root)
  rw [if_pos rfl, List.perm_nil] at hfirst
  rw [Diagram.nextId_attach, if_neg (by omega), hfirst, List.count_singleton_self] at hsecond
  exact List.perm_singleton.1 hsecond

theorem above_rooted_output : (rooted g).above (g.nextId + 1) = [g.nextId] := by
  have hperm := Diagram.above_attach (g := g.attach .copy [] []) .copy [g.nextId] []
    List.not_mem_nil (.inl rfl)
  rw [if_pos rfl, Diagram.nextId_attach] at hperm
  exact List.perm_singleton.1 hperm

theorem below_rooted_output : (rooted g).below (g.nextId + 1) = [] := by
  have hperm := Diagram.below_attach (g := g.attach .copy [] []) .copy [g.nextId] [] not_mem_root
    (.inl rfl)
  rw [if_pos rfl, Diagram.nextId_attach] at hperm
  exact List.perm_nil.1 hperm

section Rooted

variable (hids : g.IdsBelow)
include hids

theorem coherent_rooted (hg : g.Coherent) : (rooted g).Coherent := by
  refine (hg.attach (hids.not_contains (Nat.le_refl _)) (by simp) (by simp)).attach
    (hids.attach.not_contains (Nat.le_refl _)) (fun p hp => ?_) (by simp)
  obtain rfl := List.mem_singleton.1 hp
  exact contains_root

theorem idsBelow_rooted : (rooted g).IdsBelow := hids.attach.attach

/-- Old nodes keep their parents and their children. -/
theorem above_rooted (hk : g.contains k = true) : ((rooted g).above k).Perm (g.above k) := by
  have hlt := hids k hk
  have hfirst := Diagram.above_attach (g := g) .copy [] [] List.not_mem_nil (.inr hk)
  have hsecond := Diagram.above_attach (g := g.attach .copy [] []) .copy [g.nextId] []
    List.not_mem_nil (.inr (by rw [Diagram.contains_attach, hk, Bool.true_or]))
  rw [if_neg (Nat.ne_of_lt hlt), List.count_nil, List.replicate_zero, List.append_nil] at hfirst
  rw [Diagram.nextId_attach, if_neg (by omega), List.count_nil, List.replicate_zero,
    List.append_nil] at hsecond
  exact hsecond.trans hfirst

theorem below_rooted (hk : g.contains k = true) : ((rooted g).below k).Perm (g.below k) := by
  have hlt := hids k hk
  have hfirst := Diagram.below_attach (g := g) .copy [] [] List.not_mem_nil (.inr hk)
  have hsecond := Diagram.below_attach (g := g.attach .copy [] []) .copy [g.nextId] [] not_mem_root
    (.inr (by rw [Diagram.contains_attach, hk, Bool.true_or]))
  rw [if_neg (Nat.ne_of_lt hlt), List.count_nil, List.replicate_zero, List.append_nil] at hfirst
  rw [Diagram.nextId_attach, if_neg (by omega), List.count_singleton,
    if_neg (by simp; omega), List.replicate_zero, List.append_nil] at hsecond
  exact hsecond.trans hfirst

end Rooted

namespace Reading

variable (hs : Reading s)
include hs

/-- **Starting a formula keeps the structure.** -/
theorem openFormula (hchain : s.chain = []) : Reading s.openFormula := by
  have hnew : s.circuit.nextId + 1 ∉ s.circuit.outputs := fun hmem => by
    have := hs.idsBelow _ (hs.output _ hmem).1
    omega
  have houtputs : s.openFormula.circuit.outputs =
      s.circuit.outputs ++ [s.circuit.nextId + 1] := by
    show (rooted s.circuit).outputs ++ [_] = _
    rw [outputs_rooted]
  have hcoh := coherent_rooted hs.idsBelow hs.coherent
  refine
    { coherent := ⟨hcoh.id_eq, hcoh.positive, hcoh.agree⟩
      idsBelow := idsBelow_rooted hs.idsBelow
      inputs := inputs_rooted.trans hs.inputs
      nodup_outputs := by
        rw [houtputs]
        exact List.nodup_append_comm.1 (List.nodup_cons.2 ⟨hnew, hs.nodup_outputs⟩)
      output := fun o ho => ?_
      nodup_chain := List.nodup_singleton _
      descends := ⟨s.circuit.nextId + 1, by rw [houtputs]; simp, below_rooted_root⟩
      nodup_keys := hs.nodup_keys
      nodup_named := hs.nodup_named
      named := fun k hk => ?_
      unnamed := fun k hk hout hch hname => ?_ }
  -- an output of this formula has the new root above it, and one of an earlier formula what it had
  · rw [houtputs, List.mem_append, List.mem_singleton] at ho
    rcases ho with ho | rfl
    · obtain ⟨hc, hnil, hone⟩ := hs.output o ho
      exact ⟨contains_rooted.2 (.inl hc),
        List.perm_nil.1 (hnil ▸ below_rooted hs.idsBelow hc),
        (above_rooted hs.idsBelow hc).length_eq.trans hone⟩
    · exact ⟨contains_rooted.2 (.inr (.inr rfl)), below_rooted_output,
        congrArg List.length above_rooted_output⟩
  · obtain ⟨hc, hout, -⟩ := hs.named k hk
    have hlt := hs.idsBelow k hc
    refine ⟨contains_rooted.2 (.inl hc), ?_, ?_⟩
    · rw [houtputs, List.mem_append, List.mem_singleton, not_or]
      exact ⟨hout, by omega⟩
    · show k ∉ [s.circuit.nextId]
      rw [List.mem_singleton]
      omega
  · rw [houtputs, List.mem_append, List.mem_singleton, not_or] at hout
    have hch : k ∉ [s.circuit.nextId] := hch
    rw [List.mem_singleton] at hch
    have hc := (contains_rooted.1 hk).resolve_right (by tauto)
    exact (below_rooted hs.idsBelow hc).length_eq.trans
      (hs.unnamed k hc hout.1 (by simp [hchain]) hname)

end Reading

/-! ## The scan -/

section Scan

variable (hs : Reading s) (hchain : s.chain = current :: rest)
include hs hchain

theorem runOn_close : (close s.names current token).runOn s.circuit =
    (.ok (s.closeOperand token).names, (s.closeOperand token).circuit) := by
  have hmem : current ∈ s.chain := hchain ▸ List.mem_cons_self
  rw [Reader.closeOperand, hchain, close]
  split
  · cases hlookup : s.names.lookup token with
    | none => rfl
    | some first =>
      obtain ⟨hf, hfout, -⟩ := hs.named first (List.mem_map_of_mem (mem_of_lookup hlookup))
      have hcheck : s.circuit.checkMerge first current = .ok () := by
        refine Diagram.checkMerge_eq_ok hf (hs.contains_of_mem_chain hmem) ?_
          ⟨hfout, hs.not_output_of_mem_chain hmem⟩
        rw [hs.inputs]
        exact ⟨List.not_mem_nil, List.not_mem_nil⟩
      have hrun : (Edit.merge first current).runOn s.circuit =
          (.ok (), Diagram.merge s.circuit first current) := by
        rw [Edit.merge, Edit.runOn_ask_bind, hcheck]
        rfl
      exact Edit.runOn_bind_ok hrun _
  · exact Edit.runOn_bind_ok (runOn_labelPending (hs.contains_of_mem_chain hmem)) _

/-- The child of an open operand that is not the outermost one. -/
theorem single?_current {below : Nat} {rest' : List Nat} (hrest : rest = below :: rest') :
    ∃ n, s.circuit.find current = .ok n ∧ n.children.single? = some below := by
  have hmem : current ∈ s.chain := hchain ▸ List.mem_cons_self
  obtain ⟨n, hn⟩ := Diagram.contains_iff.1 (hs.contains_of_mem_chain hmem)
  have hd := hs.descends
  rw [hchain, hrest] at hd
  refine ⟨n, Diagram.find_eq_ok_iff.2 hn, ?_⟩
  rw [(hs.coherent.positive current n hn).2.single?_eq_some_iff, ← Diagram.below_of_node? hn]
  exact hd.1

theorem runOn_addOperand : (Edit.addNode .copy [] [current]).runOn
    (labelled s.circuit current token) =
      (.ok s.circuit.nextId, (s.openOperand token).circuit) := by
  have hhosts := (hs.label current token).hosts_current hchain
  rw [Edit.runOn_addNode hhosts, nextId_labelled, Reader.openOperand, hchain]

end Scan

theorem chain_openOperand (hchain : s.chain = current :: rest) :
    (s.openOperand token).chain = s.circuit.nextId :: current :: rest := by
  rw [Reader.openOperand, hchain]

theorem names_openOperand : (s.openOperand token).names = s.names := by
  unfold Reader.openOperand
  split <;> rfl

theorem chain_closeOperand (hchain : s.chain = current :: rest) :
    (s.closeOperand token).chain = rest := by
  rw [Reader.closeOperand, hchain]
  dsimp only
  repeat' split
  all_goals rfl

/-- The edit was refused because of a parenthesis, noticed at that byte. -/
def RefusedAt {β : Type} (x : Except Fault β × Circuit) (offset : Nat) : Prop :=
  x.1 = .error (.unbalanced offset)

/-- What would come next is not done. -/
theorem RefusedAt.bind {β γ : Type} {e : Edit Gate β} {offset : Nat}
    (h : RefusedAt (e.runOn g) offset) (f : β → Edit Gate γ) :
    RefusedAt ((e >>= f).runOn g) offset := by
  rw [Edit.runOn_bind]
  cases hrun : e.runOn g with
  | mk x left =>
    rw [hrun, RefusedAt] at h
    subst h
    rfl

/-- **The scan makes the steps of the pieces**, if the parentheses fit. Otherwise it is refused for
    the first one without a partner. -/
theorem runOn_scan (hs : Reading s) (hchain : s.chain = current :: rest) (token : String)
    (offset : Nat) (cs : List Char) :
    (closes (rest.length + 1) (pieces token cs) = true →
      (scan s.names current token rest.length offset cs).runOn s.circuit =
        (.ok (s.run (pieces token cs)).names, (s.run (pieces token cs)).circuit)) ∧
    ∀ before, Unpaired rest.length cs before →
      RefusedAt ((scan s.names current token rest.length offset cs).runOn s.circuit)
        (offset + (String.ofList before).utf8ByteSize) := by
  induction cs generalizing s current rest token offset with
  | nil =>
    rw [pieces, scan]
    cases rest with
    | nil =>
      refine ⟨fun _ => runOn_close hs hchain, fun before h => ?_⟩
      exact absurd (unpaired_nil_iff.1 h).2 (Nat.lt_irrefl 0)
    | cons below rest =>
      refine ⟨fun h => ?_, fun before h => ?_⟩
      · cases h
      · rw [(unpaired_nil_iff.1 h).1]
        rfl
  | cons c cs ih =>
    rw [pieces, scan]
    split
    · -- an operand starts
      rename_i hc
      subst hc
      obtain ⟨hok, herror⟩ := ih (hs.openOperand token) (chain_openOperand hchain) ""
        (offset + Char.utf8Size '(')
      rw [names_openOperand] at hok herror
      rw [Edit.runOn_bind_ok (runOn_labelPending
          (hs.contains_of_mem_chain (hchain ▸ List.mem_cons_self))),
        Edit.runOn_bind_ok (runOn_addOperand hs hchain)]
      exact ⟨hok, forall_unpaired_cons next_of_opening herror⟩
    · rename_i hopen
      split
      · rename_i hc
        subst hc
        cases rest with
        | nil =>
          refine ⟨fun h => ?_, fun before h => ?_⟩
          · rw [List.length_nil, closes, closes_zero_pieces] at h
            cases h
          · rw [unpaired_closing_iff.1 h]
            rfl
        | cons below rest =>
          -- an operand ends, and the reader goes back to its child
          obtain ⟨n, hn, hsingle⟩ := single?_current hs hchain rfl
          obtain ⟨hok, herror⟩ := ih (hs.closeOperand token) (chain_closeOperand hchain) ""
            (offset + Char.utf8Size ')')
          rw [List.length_cons, if_neg (Nat.succ_ne_zero _), Edit.runOn_ask_bind, hn]
          dsimp only
          rw [hsingle]
          dsimp only
          rw [Edit.runOn_bind_ok (runOn_close hs hchain)]
          exact ⟨hok, forall_unpaired_cons next_of_closing herror⟩
      · rename_i hclose
        split
        · obtain ⟨hok, herror⟩ := ih hs hchain token (offset + c.utf8Size)
          exact ⟨hok, forall_unpaired_cons (next_of_ordinary hopen hclose) herror⟩
        · obtain ⟨hok, herror⟩ := ih hs hchain (token.push c) (offset + c.utf8Size)
          exact ⟨hok, forall_unpaired_cons (next_of_ordinary hopen hclose) herror⟩

/-! ## Whole formulas -/

/-- **Induction over pieces that fit**: as long as there are pieces there is an open operand. -/
@[elab_as_elim]
theorem run_induction
    {motive : (s : Reader) → (ps : List Piece) → closes s.chain.length ps = true → Prop}
    (done : ∀ s h, s.chain = [] → motive s [] h)
    (opening : ∀ s token ps current rest h h', s.chain = current :: rest →
      motive (s.openOperand token) ps h' → motive s (.opening token :: ps) h)
    (closing : ∀ s token ps current rest h h', s.chain = current :: rest →
      motive (s.closeOperand token) ps h' → motive s (.closing token :: ps) h)
    (s : Reader) (ps : List Piece) (h : closes s.chain.length ps = true) : motive s ps h := by
  induction ps generalizing s with
  | nil => exact done s h (by simpa [closes] using h)
  | cons p ps ih =>
    cases hchain : s.chain with
    | nil => simp [hchain, closes] at h
    | cons current rest =>
      have hps := h
      rw [hchain, List.length_cons] at hps
      cases p with
      | opening token =>
        have hnext : closes (s.openOperand token).chain.length ps = true := by
          rwa [chain_openOperand hchain]
        exact opening s token ps current rest h hnext hchain (ih _ hnext)
      | closing token =>
        have hnext : closes (s.closeOperand token).chain.length ps = true := by
          rwa [chain_closeOperand hchain]
        exact closing s token ps current rest h hnext hchain (ih _ hnext)

/-- Pieces that fit leave no operand open. -/
theorem chain_run {ps : List Piece} (h : closes s.chain.length ps = true) :
    (s.run ps).chain = [] := by
  induction s, ps, h using run_induction with
  | done s h hnil => exact hnil
  | opening s token ps current rest h h' hchain ih => exact ih
  | closing s token ps current rest h h' hchain ih => exact ih

theorem chain_read {formula : String} (h : balanced formula = true) :
    (s.read formula).chain = [] := chain_run h

theorem Reading.read (hs : Reading s) (hchain : s.chain = []) (formula : String) :
    Reading (s.read formula) := (hs.openFormula hchain).run _

/-- Reading a formula whose parentheses fit makes the reader's steps. Any other is refused for the
    first one without a partner. -/
theorem runOn_read (hs : Reading s) (hchain : s.chain = []) (formula : String) :
    (balanced formula = true → (read s.names formula).runOn s.circuit =
      (.ok (s.read formula).names, (s.read formula).circuit)) ∧
    ∀ offset, UnbalancedAt formula offset →
      RefusedAt ((read s.names formula).runOn s.circuit) offset := by
  have hroot : s.circuit.Hosts [] [] := ⟨by simp, by simp⟩
  have hnot : s.circuit.nextId ∉ s.circuit.outputs := fun hmem =>
    absurd (hs.idsBelow _ (hs.output _ hmem).1) (Nat.lt_irrefl _)
  have hhosts : (s.circuit.attach .copy [] []).Hosts [s.circuit.nextId] [] := by
    refine ⟨fun p hp => ?_, by simp⟩
    obtain rfl := List.mem_singleton.1 hp
    rw [Diagram.outputs_attach]
    exact ⟨contains_root, hnot⟩
  have hcheck : (s.circuit.attach .copy [] []).checkOutputAt s.circuit.nextId = .ok () := by
    obtain ⟨n, hn⟩ := Diagram.contains_iff.1 (contains_root (g := s.circuit))
    rw [Diagram.checkOutputAt, Diagram.find_eq_ok_iff.2 hn]
    dsimp only [bind, Except.bind]
    simp [Diagram.isOutput, Diagram.isInput, hnot, hs.inputs]
  obtain ⟨hok, herror⟩ := runOn_scan (hs.openFormula hchain) (rfl : _ = s.circuit.nextId :: []) ""
    0 formula.toList
  have hstart : (read s.names formula).runOn s.circuit =
      (scan s.names s.circuit.nextId "" 0 0 formula.toList).runOn s.openFormula.circuit := by
    rw [read, Edit.runOn_bind_ok (Edit.runOn_addNode hroot), Edit.runOn_bind_ok]
    rw [Edit.addOutputAt, Edit.runOn_ask_bind, hcheck]
    dsimp only
    rw [Edit.runOn_bind_ok (Edit.runOn_addNode hhosts), Diagram.nextId_attach]
    rfl
  rw [hstart]
  refine ⟨hok, ?_⟩
  rintro - ⟨before, hbefore, rfl⟩
  rw [← Nat.zero_add (String.ofList before).utf8ByteSize]
  exact herror before hbefore

/-- **Reading formulas makes the reader's steps**, if all parentheses fit, and is refused for the
    first one without a partner otherwise. -/
theorem runOn_readAll (hs : Reading s) (hchain : s.chain = []) (formulas : List String) :
    ((∀ f ∈ formulas, balanced f = true) → (readAll s.names formulas).runOn s.circuit =
      (.ok (s.readAll formulas).names, (s.readAll formulas).circuit)) ∧
    ∀ before f after offset, formulas = before ++ f :: after → (∀ b ∈ before, balanced b = true) →
      UnbalancedAt f offset →
        RefusedAt ((readAll s.names formulas).runOn s.circuit) offset := by
  induction formulas generalizing s with
  | nil =>
    refine ⟨fun _ => rfl, fun before f after offset hsplit => ?_⟩
    simp at hsplit
  | cons f formulas ih =>
    obtain ⟨hok, herror⟩ := runOn_read hs hchain f
    constructor
    · intro h
      have hf := h f List.mem_cons_self
      rw [readAll, Edit.runOn_bind_ok (hok hf)]
      exact (ih (hs.read hchain f) (chain_read hf)).1
        fun f' hf' => h f' (List.mem_cons_of_mem _ hf')
    · intro before f' after offset hsplit hbefore hoffset
      cases before with
      | nil =>
        obtain ⟨rfl, -⟩ := List.cons.inj hsplit
        exact (herror offset hoffset).bind _
      | cons b before =>
        obtain ⟨rfl, hrest⟩ := List.cons.inj hsplit
        have hf := hbefore f List.mem_cons_self
        rw [readAll, Edit.runOn_bind_ok (hok hf)]
        exact (ih (hs.read hchain f) (chain_read hf)).2 before f' after offset hrest
          (fun b hb => hbefore b (List.mem_cons_of_mem _ hb)) hoffset

theorem Reading.readAll (hs : Reading s) (hchain : s.chain = [])
    (h : ∀ f ∈ formulas, balanced f = true) :
    Reading (s.readAll formulas) ∧ (s.readAll formulas).chain = [] := by
  induction formulas generalizing s with
  | nil => exact ⟨hs, hchain⟩
  | cons f formulas ih =>
    exact ih (hs.read hchain f) (chain_read (h f List.mem_cons_self))
      fun f' hf' => h f' (List.mem_cons_of_mem _ hf')

end Formula

end Wiring
