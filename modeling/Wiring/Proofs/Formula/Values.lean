import Mathlib.Data.List.Chain
import Mathlib.Data.List.Forall2
import Wiring.Proofs.Formula.Frames

/-!
# The circuit of a formula that computes

While a formula that makes sense is read, the values of closed nodes can be given already: a named
node has the value of its variable, and every other one the value that its gate makes of its
parents. What has arrived at an open operand are the arguments that its frame lists.

## Main definitions

- `Formula.Computed` — closed nodes have their values
- `Formula.Awaiting` — the values that have arrived at open operands and at outputs

## Main statements

- `Formula.Yields.computed_run` — reading keeps both
-/

namespace Wiring

open scoped Unlimited

namespace Formula

variable {g : Circuit} {s s' : Reader} {ρ : String → Bool} {τ τ' : Nat → Bool}
  {rest others tail : List Nat} {current first k p : Nat} {token : String} {label outer : Gate}
  {args values answers : List Bool} {frames final : List Frame} {v : Bool} {ps : List Piece}
  {met : List String}

/-! ## Labels -/

theorem label?_labelled {i : Nat} : (labelled g i token).label? k =
    if k = i then (g.label? k).map (pending · token) else g.label? k := by
  by_cases hki : k = i
  · subst hki
    unfold labelled pending
    by_cases htoken : token = ""
    · simp [htoken]
    · rw [if_neg htoken, Diagram.label?_relabel]
      simp only [if_neg htoken]
  · rw [label?_labelled_of_ne hki, if_neg hki]

theorem label?_openOperand (hchain : s.chain = current :: rest) :
    (s.openOperand token).circuit.label? k = if k = s.circuit.nextId then some .copy
      else if k = current then (s.circuit.label? k).map (pending · token)
      else s.circuit.label? k := by
  rw [Reader.openOperand, hchain]
  show ((labelled s.circuit current token).attach .copy [] [current]).label? k = _
  rw [Diagram.label?_attach, nextId_labelled, label?_labelled]

/-! ## Closed nodes -/

/-- **Closed nodes have their values.** Nothing feeds the node of a variable so far. -/
structure Computed (ρ : String → Bool) (τ : Nat → Bool) (s : Reader) : Prop where
  named : ∀ e ∈ s.names, τ e.2 = ρ e.1 ∧ s.circuit.above e.2 = []
  closed : ∀ k label, s.circuit.label? k = some label → k ∉ s.circuit.outputs → k ∉ s.chain →
    k ∉ s.names.map (·.2) →
    label.Takes (s.circuit.above k).length ∧ τ k = label.truth ((s.circuit.above k).map τ)

namespace Computed

variable (hs : Reading s) (hchain : s.chain = current :: rest) (h : Computed ρ τ s)
include hs hchain h

theorem openOperand (token : String) : Computed ρ τ (s.openOperand token) where
  named e he := by
    rw [names_openOperand] at he
    obtain ⟨hc, -, hch⟩ := hs.named e.2 (List.mem_map_of_mem he)
    have hperm := hs.above_openOperand token hchain hc
    have hne : e.2 ≠ current := fun heq => hch (hchain ▸ heq ▸ List.mem_cons_self)
    rw [if_neg hne, (h.named e he).2] at hperm
    exact ⟨(h.named e he).1, List.perm_nil.1 hperm⟩
  closed k label hl hout hch hname := by
    rw [Reading.outputs_openOperand] at hout
    rw [chain_openOperand hchain, ← hchain, List.mem_cons, not_or] at hch
    rw [names_openOperand] at hname
    have hne : k ≠ current := fun heq => hch.2 (hchain ▸ heq ▸ List.mem_cons_self)
    rw [label?_openOperand hchain, if_neg hch.1, if_neg hne] at hl
    have hperm := hs.above_openOperand token hchain (Diagram.contains_iff_label?.2 ⟨_, hl⟩)
    rw [if_neg hne, List.append_nil] at hperm
    rw [hperm.length_eq, Gate.truth_perm (hperm.map τ)]
    exact h.closed k label hl hout hch.2 hname

/-- A new value for an operand that ends touches no closed node. -/
theorem update_of_closed (v : Bool) (hl : s.circuit.label? k = some label)
    (hout : k ∉ s.circuit.outputs) (hch : k ∉ s.chain) (hname : k ∉ s.names.map (·.2)) :
    label.Takes (s.circuit.above k).length ∧ Function.update τ current v k =
      label.truth ((s.circuit.above k).map (Function.update τ current v)) := by
  have hmem : current ∈ s.chain := hchain ▸ List.mem_cons_self
  have hold {p : Nat} (hp : p ∉ s.chain) : Function.update τ current v p = τ p :=
    Function.update_of_ne (ne_of_mem_of_not_mem hmem hp).symm v τ
  have hmap : (s.circuit.above k).map (Function.update τ current v) = (s.circuit.above k).map τ :=
    List.map_congr_left fun p hp => hold (hs.not_mem_chain_of_mem_above hout hch hp)
  rw [hold hch, hmap]
  exact h.closed k label hl hout hch hname

/-- An operand that ends with a new name. -/
theorem name (habove : s.circuit.above current = []) :
    Computed ρ (Function.update τ current (ρ token))
      ⟨s.circuit, (token, current) :: s.names, rest⟩ where
  named e he := by
    rcases List.mem_cons.1 he with rfl | he
    · exact ⟨Function.update_self .., habove⟩
    · have hne : e.2 ≠ current := fun heq =>
        (hs.named e.2 (List.mem_map_of_mem he)).2.2 (hchain ▸ heq ▸ List.mem_cons_self)
      exact ⟨(Function.update_of_ne hne _ _).trans (h.named e he).1, (h.named e he).2⟩
  closed k label hl hout hch hname := by
    rw [List.map_cons, List.mem_cons, not_or] at hname
    exact h.update_of_closed hs hchain _ hl hout
      ((Reader.not_mem_chain_iff hchain).2 ⟨hname.1, hch⟩) hname.2

/-- An operand that ends with a name that is known. -/
theorem merge (hfirst : first ∈ s.names.map (·.2)) (habove : s.circuit.above current = []) :
    Computed ρ τ ⟨Diagram.merge s.circuit first current, s.names, rest⟩ := by
  have hmem : current ∈ s.chain := hchain ▸ List.mem_cons_self
  have hne := hs.first_ne_current hchain hfirst
  have hcur := hs.contains_of_mem_chain hmem
  refine ⟨fun e he => ⟨(h.named e he).1, ?_⟩, fun k label hl hout hch hname => ?_⟩
  · obtain ⟨hc, -, hch⟩ := hs.named e.2 (List.mem_map_of_mem he)
    have hec : e.2 ≠ current := fun heq => hch (heq ▸ hmem)
    refine List.eq_nil_iff_forall_not_mem.2 fun i hi => ?_
    obtain ⟨q, hq, -⟩ := (hs.mem_above_merge hchain hfirst hc hec).1 hi
    rw [(h.named e he).2, habove] at hq
    simp at hq
  · obtain ⟨hk, hkc, hout, hch⟩ := hs.closed_before_merge hchain hfirst
      (Diagram.contains_iff_label?.2 ⟨_, hl⟩) hout hch
    have hlk : (Diagram.merge s.circuit first current).label? k = some label := hl
    rw [Diagram.label?_merge hne hcur, if_neg hkc] at hlk
    have hkf : k ≠ first := fun heq => hname (heq ▸ hfirst)
    have hperm := hs.above_merge_of_not_mem hchain hfirst hk hkf hkc
    -- no parent of a closed node is the operand that ends
    have hmap : (s.circuit.above k).map (Diagram.retarget first current) = s.circuit.above k :=
      (List.map_congr_left fun p hp => Diagram.retarget_of_ne fun heq : p = current =>
        hs.not_mem_chain_of_mem_above hout hch hp (heq ▸ hmem)).trans (List.map_id' _)
    rw [hmap] at hperm
    rw [hperm.length_eq, Gate.truth_perm (hperm.map τ)]
    exact h.closed k label hlk hout hch hname

/-- An operand that ends as a gate. -/
theorem gate (hl : s.circuit.label? current = some label)
    (htakes : (pending label token).Takes (s.circuit.above current).length) :
    Computed ρ (Function.update τ current
        ((pending label token).truth ((s.circuit.above current).map τ)))
      ⟨labelled s.circuit current token, s.names, rest⟩ := by
  have hmem : current ∈ s.chain := hchain ▸ List.mem_cons_self
  refine ⟨fun e he => ?_, fun k label' hl' hout hch hname => ?_⟩
  · have hne : e.2 ≠ current := fun heq =>
      (hs.named e.2 (List.mem_map_of_mem he)).2.2 (heq ▸ hmem)
    show Function.update τ current _ e.2 = _ ∧ (labelled s.circuit current token).above e.2 = []
    rw [above_labelled]
    exact ⟨(Function.update_of_ne hne _ _).trans (h.named e he).1, (h.named e he).2⟩
  · have hlk : (labelled s.circuit current token).label? k = some label' := hl'
    rw [label?_labelled] at hlk
    have hout : k ∉ (labelled s.circuit current token).outputs := hout
    rw [outputs_labelled] at hout
    show label'.Takes ((labelled s.circuit current token).above k).length ∧ _ =
      label'.truth (((labelled s.circuit current token).above k).map _)
    rw [above_labelled]
    by_cases hkc : k = current
    · subst hkc
      rw [if_pos rfl, hl] at hlk
      obtain rfl := Option.some.inj hlk
      refine ⟨htakes, ?_⟩
      rw [Function.update_self]
      refine congrArg _ (List.map_congr_left fun p hp => ?_)
      have hpch := hs.not_mem_chain_of_mem_above_current hchain hp
      exact (Function.update_of_ne (ne_of_mem_of_not_mem hmem hpch).symm _ _).symm
    · rw [if_neg hkc] at hlk
      exact h.update_of_closed hs hchain _ hlk hout
        ((Reader.not_mem_chain_iff hchain).2 ⟨hkc, hch⟩) hname

end Computed

/-! ## Open operands -/

/-- The values that have arrived at a node: those of its closed parents. -/
def arrived (τ : Nat → Bool) (s : Reader) (k : Nat) : List Bool :=
  ((s.circuit.above k).filter (· ∉ s.chain)).map τ

/-- **What has arrived**: open operands hang on each other and end in `tail`, the output of the
    formula that is being read; each of them has the gate and the arguments that its frame says; the
    other outputs have their answers. -/
structure Awaiting (τ : Nat → Bool) (s : Reader) (others tail : List Nat) (answers : List Bool)
    (frames : List Frame) : Prop where
  outputs_eq : s.circuit.outputs = others ++ tail
  line : (s.chain ++ tail).IsChain fun k c => s.circuit.below k = [c]
  frames : List.Forall₂ (fun k frame => s.circuit.label? k = some frame.1 ∧
    (arrived τ s k).Perm frame.2) (s.chain ++ tail) frames
  answers : others.map (arrived τ s) = answers.map ([·])

/-- Closing hands the value of the operand on to all that it is a parent of. -/
theorem filter_close_perm {f : Nat → Nat} (hcur : f current ∉ rest) (hv : τ' (f current) = v)
    (hold : ∀ p, p ≠ current → f p = p) (hτ : ∀ p, p ∉ current :: rest → τ' p = τ p)
    (l : List Nat) : (((l.map f).filter (· ∉ rest)).map τ').Perm
      ((l.filter (· ∉ current :: rest)).map τ ++ List.replicate (l.count current) v) := by
  induction l with
  | nil => exact .nil
  | cons p l ih =>
    by_cases hp : p = current
    · subst hp
      rw [List.map_cons, List.filter_cons_of_pos (by simpa using hcur), List.map_cons, hv,
        List.filter_cons_of_neg (by simp), List.count_cons_self, List.replicate_succ]
      exact (ih.cons v).trans List.perm_middle.symm
    · rw [List.map_cons, hold p hp, List.count_cons_of_ne hp]
      by_cases hrest : p ∈ rest
      · rw [List.filter_cons_of_neg (by simpa using hrest),
          List.filter_cons_of_neg (by simp [hrest])]
        exact ih
      · have hmem : p ∉ current :: rest := by simp [hp, hrest]
        rw [List.filter_cons_of_pos (by simpa using hrest),
          List.filter_cons_of_pos (by simpa using hmem), List.map_cons, List.map_cons, hτ p hmem]
        exact ih.cons (τ p)

/-- Answers stay if nothing more arrives at the outputs. -/
theorem map_arrived_eq (h : others.map (arrived τ s) = answers.map ([·]))
    (hperm : ∀ o ∈ others, (arrived τ' s' o).Perm (arrived τ s o)) :
    others.map (arrived τ' s') = answers.map ([·]) := by
  rw [← h]
  refine List.map_congr_left fun o ho => ?_
  have hmem : arrived τ s o ∈ answers.map ([·]) := h ▸ List.mem_map_of_mem ho
  obtain ⟨a, -, ha⟩ := List.mem_map.1 hmem
  have := hperm o ho
  rw [← ha] at this ⊢
  exact List.perm_singleton.1 this

namespace Awaiting

theorem mem_outputs (h : Awaiting τ s others tail answers frames) (hk : k ∈ others ++ tail) :
    k ∈ s.circuit.outputs := h.outputs_eq ▸ hk

theorem contains_of_mem_line (hs : Reading s) (h : Awaiting τ s others tail answers frames)
    (hk : k ∈ s.chain ++ tail) : s.circuit.contains k = true :=
  (List.mem_append.1 hk).elim hs.contains_of_mem_chain fun hk =>
    (hs.output k (h.mem_outputs (List.mem_append_right _ hk))).1

theorem nodup_line (hs : Reading s) (h : Awaiting τ s others tail answers frames) :
    (s.chain ++ tail).Nodup := by
  have hout := hs.nodup_outputs
  rw [h.outputs_eq] at hout
  refine List.nodup_append'.2 ⟨hs.nodup_chain, hout.of_append_right, fun k hk htail => ?_⟩
  exact hs.not_output_of_mem_chain hk (h.mem_outputs (List.mem_append_right _ htail))

section Step

variable (hs : Reading s) (hchain : s.chain = current :: rest)
include hs hchain

/-- Nothing has arrived at a new operand, and nothing more at the others. -/
theorem arrived_openOperand (hk : s.circuit.contains k = true) :
    (arrived τ (s.openOperand token) k).Perm (arrived τ s k) := by
  rw [arrived, arrived, chain_openOperand hchain, ← hchain]
  refine (((hs.above_openOperand token hchain hk).filter _).map τ).trans (.of_eq ?_)
  have hnew : (if k = current then [s.circuit.nextId] else []).filter
      (· ∉ s.circuit.nextId :: s.chain) = [] := by
    split <;> simp
  rw [List.filter_append, hnew, List.append_nil]
  refine congrArg _ (List.filter_congr fun p hp => ?_)
  simp [hs.ne_nextId (hs.coherent.contains_of_mem_above hp)]

theorem openOperand {frame : Frame} (h : Awaiting τ s others tail answers (frame :: frames))
    (token : String) : Awaiting τ (s.openOperand token) others tail answers
      ((.copy, []) :: (pending frame.1 token, frame.2) :: frames) := by
  have hchain' : (s.openOperand token).chain = s.circuit.nextId :: current :: rest :=
    chain_openOperand hchain
  have hnodup := h.nodup_line hs
  have hline := h.line
  have hframes := h.frames
  have hcontains {k : Nat} (hk : k ∈ current :: (rest ++ tail)) : s.circuit.contains k = true :=
    h.contains_of_mem_line hs (by rwa [hchain])
  rw [hchain, List.cons_append] at hnodup hline hframes
  obtain ⟨⟨hlabel, hargs⟩, hrest⟩ := List.forall₂_cons.1 hframes
  have hnew : (s.openOperand token).circuit.below s.circuit.nextId = [current] := by
    have hd := (hs.openOperand token).descends
    rw [hchain'] at hd
    exact hd.1
  -- the new operand waits with no arguments, the one below it has read its operator, and further
  -- down nothing has changed
  refine ⟨Reading.outputs_openOperand.trans h.outputs_eq, ?_, ?_, ?_⟩
  · rw [hchain', List.cons_append, List.cons_append, List.isChain_cons_cons]
    refine ⟨hnew, hline.imp_of_mem_imp fun k c hk _ hbelow => ?_⟩
    have hperm := hs.below_openOperand token hchain (hcontains hk)
    rw [hbelow] at hperm
    exact List.perm_singleton.1 hperm
  · rw [hchain', List.cons_append, List.cons_append]
    refine .cons ⟨?_, ?_⟩ (.cons ⟨?_, ?_⟩ ?_)
    · rw [label?_openOperand hchain, if_pos rfl]
    · rw [arrived, hs.above_openOperand_new hchain]
      exact .nil
    · rw [label?_openOperand hchain, if_neg (hs.ne_nextId (hcontains List.mem_cons_self)),
        if_pos rfl, hlabel]
      rfl
    · exact (arrived_openOperand hs hchain (hcontains List.mem_cons_self)).trans hargs
    · have hmem : ∀ k ∈ rest ++ tail, s.circuit.contains k = true ∧ k ≠ current := fun k hk =>
        ⟨hcontains (List.mem_cons_of_mem _ hk),
          ne_of_mem_of_not_mem hk (List.nodup_cons.1 hnodup).1⟩
      refine ((List.forall₂_and_left _ _).2 ⟨hmem, hrest⟩).imp
        fun k frame' ⟨⟨hk, hne⟩, hl, hperm⟩ => ⟨?_, (arrived_openOperand hs hchain hk).trans hperm⟩
      rw [label?_openOperand hchain, if_neg (hs.ne_nextId hk), if_neg hne, hl]
  · exact map_arrived_eq h.answers fun o ho => arrived_openOperand hs hchain
      (hs.output o (h.mem_outputs (List.mem_append_left _ ho))).1

/-- The value of an operand that ends arrives at its child. -/
theorem arrived_close {f : Nat → Nat} {c : Nat} (hclosing : Closing s s' current rest f)
    (hv : τ' (f current) = v) (hτ : ∀ p, p ∉ s.chain → τ' p = τ p)
    (hchild : s.circuit.below current = [c]) (hk : s.circuit.contains k = true)
    (hplace : k ∈ rest ∨ k ∈ s.circuit.outputs) :
    (arrived τ' s' k).Perm (arrived τ s k ++ if k = c then [v] else []) := by
  have hcount : List.replicate ((s.circuit.above k).count current) v =
      if k = c then [v] else [] := by
    rw [hs.coherent.agree, hchild, List.count_singleton]
    by_cases hkc : k = c
    · simp [hkc]
    · simp [hkc, Ne.symm hkc]
  rw [hchain] at hτ
  rw [arrived, arrived, hclosing.chain_eq, hchain, ← hcount]
  exact (((hclosing.above k hk hplace).filter _).map τ').trans
    (filter_close_perm hclosing.not_mem hv hclosing.stays hτ _)

/-- **What has arrived when an operand has ended**: its value `v` has arrived where it is a parent.
    Its node may have been merged into another one, `f` saying where it goes. -/
theorem closeOperand {frame : Frame} {f : Nat → Nat}
    (h : Awaiting τ s others tail answers (frame :: (outer, values) :: frames))
    (hclosing : Closing s s' current rest f) (hv : τ' (f current) = v)
    (hτ : ∀ p, p ∉ s.chain → τ' p = τ p) :
    Awaiting τ' s' others tail answers ((outer, values ++ [v]) :: frames) := by
  have hnodup := h.nodup_line hs
  have hline := h.line
  have hframes := h.frames
  have hcontains {k : Nat} (hk : k ∈ rest ++ tail) : s.circuit.contains k = true :=
    h.contains_of_mem_line hs (by rw [hchain]; exact List.mem_cons_of_mem _ hk)
  have houts {k : Nat} (hk : k ∈ others ++ tail) : k ∈ s.circuit.outputs := h.mem_outputs hk
  have hplace {k : Nat} (hk : k ∈ rest ++ tail) : k ∈ rest ∨ k ∈ s.circuit.outputs :=
    (List.mem_append.1 hk).imp_right fun hk => houts (List.mem_append_right _ hk)
  rw [hchain, List.cons_append] at hnodup hline hframes
  obtain ⟨-, hframes⟩ := List.forall₂_cons.1 hframes
  obtain ⟨c, more, ⟨hlabel, hargs⟩, hmore, hsplit⟩ := List.forall₂_cons_right_iff.1 hframes
  rw [hsplit] at hnodup hline hcontains hplace
  -- the only child of the operand that ends is the next one in the line
  obtain ⟨hchild, hline⟩ := List.isChain_cons_cons.1 hline
  have harrived {k : Nat} (hk : s.circuit.contains k = true)
      (hp : k ∈ rest ∨ k ∈ s.circuit.outputs) :
      (arrived τ' s' k).Perm (arrived τ s k ++ if k = c then [v] else []) :=
    arrived_close hs hchain hclosing hv hτ hchild hk hp
  refine ⟨hclosing.outputs_eq.trans h.outputs_eq, ?_, ?_, ?_⟩
  · rw [hclosing.chain_eq, hsplit]
    refine hline.imp_of_mem_imp fun k c' hk _ hkc => ?_
    rcases hplace hk with hk | hk
    · rw [hclosing.below k hk, hkc]
    · rw [(hs.output k hk).2.1] at hkc
      cases hkc
  · rw [hclosing.chain_eq, hsplit]
    refine .cons ⟨(hclosing.label c (hplace List.mem_cons_self)).trans hlabel, ?_⟩ ?_
    · refine (harrived (hcontains List.mem_cons_self) (hplace List.mem_cons_self)).trans ?_
      rw [if_pos rfl]
      exact hargs.append_right _
    · have hmem : ∀ k ∈ more, k ∈ c :: more ∧ k ≠ c := fun k hk =>
        ⟨List.mem_cons_of_mem _ hk,
          ne_of_mem_of_not_mem hk (List.nodup_cons.1 (List.nodup_cons.1 hnodup).2).1⟩
      refine ((List.forall₂_and_left _ _).2 ⟨hmem, hmore⟩).imp
        fun k frame' ⟨⟨hk, hne⟩, hl, hperm⟩ => ⟨(hclosing.label k (hplace hk)).trans hl, ?_⟩
      have := harrived (hcontains hk) (hplace hk)
      rw [if_neg hne, List.append_nil] at this
      exact this.trans hperm
  · refine map_arrived_eq h.answers fun o ho => ?_
    have hout := houts (List.mem_append_left tail ho)
    have hoc : o ≠ c := by
      rintro rfl
      have hmem : o ∈ rest ++ tail := hsplit ▸ List.mem_cons_self
      rcases List.mem_append.1 hmem with hmem | hmem
      · exact hs.not_output_of_mem_chain (hchain ▸ List.mem_cons_of_mem _ hmem) hout
      · have hnodup := hs.nodup_outputs
        rw [h.outputs_eq] at hnodup
        exact List.disjoint_of_nodup_append hnodup ho hmem
    have := harrived (hs.output o hout).1 (.inr hout)
    rwa [if_neg hoc, List.append_nil] at this

/-- All that has arrived at the current operand are the values of its parents. -/
theorem arrived_current : arrived τ s current = (s.circuit.above current).map τ := by
  rw [arrived, List.filter_eq_self.2 fun p hp => by
    simpa using hs.not_mem_chain_of_mem_above_current hchain hp]

end Step

end Awaiting

/-! ## Steps -/

section Step

variable (hs : Reading s) (hchain : s.chain = current :: rest) (hc : Computed ρ τ s)
include hs hchain hc

/-- An operand that ends with a name, and has nothing in it, has the value of that variable. -/
theorem computed_closeOperand_name (hvar : isVariable token = true)
    (ha : Awaiting τ s others tail answers ((label, []) :: (outer, values) :: frames)) :
    ∃ τ', Computed ρ τ' (s.closeOperand token) ∧
      Awaiting τ' (s.closeOperand token) others tail answers
        ((outer, values ++ [ρ token]) :: frames) := by
  have hmem : current ∈ s.chain := hchain ▸ List.mem_cons_self
  have hframes := ha.frames
  rw [hchain, List.cons_append] at hframes
  have habove : s.circuit.above current = [] := by
    have hnil := (List.forall₂_cons.1 hframes).1.2.eq_nil
    rwa [Awaiting.arrived_current hs hchain, List.map_eq_nil_iff] at hnil
  cases hlookup : s.names.lookup token with
  | none =>
    rw [Reader.closeOperand_new hchain hvar hlookup]
    refine ⟨_, hc.name hs hchain habove, ha.closeOperand hs hchain (hs.closing_new hchain token)
      (Function.update_self ..) fun p hp => ?_⟩
    exact Function.update_of_ne (ne_of_mem_of_not_mem hmem hp).symm _ _
  | some first =>
    have hentry := mem_of_lookup hlookup
    have hfirst : first ∈ s.names.map (·.2) := List.mem_map_of_mem hentry
    rw [Reader.closeOperand_known hchain hvar hlookup]
    refine ⟨τ, hc.merge hs hchain hfirst habove, ha.closeOperand hs hchain
      (hs.closing_known hchain hfirst) ?_ fun p _ => rfl⟩
    rw [Diagram.retarget_self]
    exact (hc.named _ hentry).1

/-- An operand that ends as a gate has the value that the gate makes of what has arrived. -/
theorem computed_closeOperand_gate (hvar : isVariable token = false)
    (htakes : (pending label token).Takes args.length)
    (ha : Awaiting τ s others tail answers ((label, args) :: (outer, values) :: frames)) :
    ∃ τ', Computed ρ τ' (s.closeOperand token) ∧
      Awaiting τ' (s.closeOperand token) others tail answers
        ((outer, values ++ [(pending label token).truth args]) :: frames) := by
  have hmem : current ∈ s.chain := hchain ▸ List.mem_cons_self
  have hframes := ha.frames
  rw [hchain, List.cons_append] at hframes
  obtain ⟨hlabel, hargs⟩ := (List.forall₂_cons.1 hframes).1
  rw [Awaiting.arrived_current hs hchain] at hargs
  rw [← hargs.length_eq, List.length_map] at htakes
  rw [Reader.closeOperand_gate hchain hvar, ← Gate.truth_perm hargs]
  refine ⟨_, hc.gate hs hchain hlabel htakes, ha.closeOperand hs hchain
    (hs.closing_gate hchain token) (Function.update_self ..) fun p hp => ?_⟩
  exact Function.update_of_ne (ne_of_mem_of_not_mem hmem hp).symm _ _

end Step

theorem mem_names_closeOperand (hchain : s.chain = current :: rest) (x : String) :
    x ∈ (s.closeOperand token).names.map (·.1) ↔
      x ∈ s.names.map (·.1) ∨ isVariable token = true ∧ x = token := by
  cases hvar : isVariable token with
  | false =>
    rw [Reader.closeOperand_gate hchain hvar]
    simp
  | true =>
    cases hlookup : s.names.lookup token with
    | none =>
      rw [Reader.closeOperand_new hchain hvar hlookup]
      simp [or_comm]
    | some first =>
      have hmem : token ∈ s.names.map (·.1) := List.mem_map_of_mem (mem_of_lookup hlookup)
      have hold : x = token → x ∈ s.names.map (·.1) := fun heq => heq ▸ hmem
      rw [Reader.closeOperand_known hchain hvar hlookup]
      tauto

/-- **Reading a formula that makes sense computes it**: closed nodes have values, what the output is
    awaiting is what the frames say, and the variables that were met have names. -/
theorem Yields.computed_run {o : Nat} (h : Yields ρ frames ps final met) (hs : Reading s)
    (hc : Computed ρ τ s) (ha : Awaiting τ s others [o] answers frames) :
    (∃ τ', Computed ρ τ' (s.run ps) ∧ Awaiting τ' (s.run ps) others [o] answers final) ∧
      ∀ x, x ∈ (s.run ps).names.map (·.1) ↔ x ∈ s.names.map (·.1) ∨ x ∈ met := by
  have hcons {frame frame' : Frame} {frames : List Frame} {s : Reader} {τ : Nat → Bool}
      (ha : Awaiting τ s others [o] answers (frame :: frame' :: frames)) :
      ∃ current rest, s.chain = current :: rest := by
    refine List.exists_cons_of_ne_nil fun hnil => ?_
    have := ha.frames.length_eq
    simp [hnil] at this
  induction h generalizing s τ with
  | done => exact ⟨⟨τ, hc, ha⟩, by simp [Reader.run]⟩
  | opening _ ih =>
    obtain ⟨current, rest, hchain⟩ := hcons ha
    have := ih (hs.openOperand _) (hc.openOperand hs hchain _) (ha.openOperand hs hchain _)
    rwa [names_openOperand] at this
  | @name _ _ _ _ _ token _ _ hvar _ ih =>
    obtain ⟨current, rest, hchain⟩ := hcons ha
    obtain ⟨τ', hc', ha'⟩ := computed_closeOperand_name hs hchain hc hvar ha
    obtain ⟨hrun, hnames⟩ := ih (hs.closeOperand token) hc' ha'
    refine ⟨hrun, fun x => (hnames x).trans ?_⟩
    rw [mem_names_closeOperand hchain, List.mem_cons, or_assoc]
    simp only [hvar, true_and]
  | @gate _ _ _ _ _ _ token _ _ hvar htakes _ ih =>
    obtain ⟨current, rest, hchain⟩ := hcons ha
    obtain ⟨τ', hc', ha'⟩ := computed_closeOperand_gate hs hchain hc hvar htakes ha
    obtain ⟨hrun, hnames⟩ := ih (hs.closeOperand token) hc' ha'
    refine ⟨hrun, fun x => (hnames x).trans ?_⟩
    rw [mem_names_closeOperand hchain]
    simp only [hvar, Bool.false_eq_true, false_and, or_false]

/-! ## Whole formulas -/

/-- **The formula computes `v`**, when `ρ` gives its variables. -/
def Computes (ρ : String → Bool) (formula : String) (v : Bool) (met : List String) : Prop :=
  Yields ρ [(.copy, []), (.copy, [])] (pieces "" formula.toList) [(.copy, [v])] met

theorem Computes.balanced {formula : String} (h : Computes ρ formula v met) :
    balanced formula = true := Yields.closes h rfl rfl

theorem Computes.nestings_eq_nil {formula : String} (h : Computes ρ formula v met) :
    nestings formula = [] := Yields.nestingsFrom_eq_nil h (by simp [Unnested])

theorem label?_rooted : (rooted g).label? k =
    if k = g.nextId + 1 then some .copy else if k = g.nextId then some .copy else g.label? k := by
  rw [rooted, Diagram.label?_attach, Diagram.nextId_attach, Diagram.label?_attach]

section Formulas

variable (hs : Reading s) (hchain : s.chain = []) (hc : Computed ρ τ s)
include hs hchain hc

theorem Computed.openFormula : Computed ρ τ s.openFormula := by
  refine ⟨fun e he => ?_, fun k label hl hout hch hname => ?_⟩
  · obtain ⟨hcontains, -, -⟩ := hs.named e.2 (List.mem_map_of_mem he)
    refine ⟨(hc.named e he).1, List.perm_nil.1 ?_⟩
    have hperm := above_rooted hs.idsBelow hcontains
    rw [(hc.named e he).2] at hperm
    exact hperm
  · have hl' : (rooted s.circuit).label? k = some label := hl
    have hout' : k ∉ (rooted s.circuit).outputs ++ [s.circuit.nextId + 1] := hout
    have hch' : k ∉ [s.circuit.nextId] := hch
    rw [outputs_rooted, List.mem_append, List.mem_singleton, not_or] at hout'
    rw [List.mem_singleton] at hch'
    rw [label?_rooted, if_neg hout'.2, if_neg hch'] at hl'
    have hperm := above_rooted hs.idsBelow (Diagram.contains_iff_label?.2 ⟨_, hl'⟩)
    show label.Takes ((rooted s.circuit).above k).length ∧
      τ k = label.truth (((rooted s.circuit).above k).map τ)
    rw [hperm.length_eq, Gate.truth_perm (hperm.map τ)]
    exact hc.closed k label hl' hout'.1 (by simp [hchain]) hname

omit hc in
theorem Awaiting.openFormula (ha : Awaiting τ s others [] answers []) :
    Awaiting τ s.openFormula others [s.circuit.nextId + 1] answers
      [(.copy, []), (.copy, [])] := by
  have hfresh {k : Nat} (hk : s.circuit.contains k = true) :
      (arrived τ s.openFormula k).Perm (arrived τ s k) := by
    rw [arrived, arrived, hchain]
    refine (((above_rooted hs.idsBelow hk).filter _).map τ).trans (.of_eq (congrArg _ ?_))
    refine List.filter_congr fun p hp => ?_
    have := hs.ne_nextId (hs.coherent.contains_of_mem_above hp)
    show decide (p ∉ [s.circuit.nextId]) = _
    simp [this]
  have hroot : arrived τ s.openFormula s.circuit.nextId = [] := by
    show (((rooted s.circuit).above s.circuit.nextId).filter (· ∉ [s.circuit.nextId])).map τ = []
    rw [above_rooted_root]
    rfl
  have houtput : arrived τ s.openFormula (s.circuit.nextId + 1) = [] := by
    show (((rooted s.circuit).above (s.circuit.nextId + 1)).filter
      (· ∉ [s.circuit.nextId])).map τ = []
    rw [above_rooted_output]
    simp
  have hout := ha.outputs_eq
  rw [List.append_nil] at hout
  refine ⟨?_, ?_, ?_, map_arrived_eq ha.answers fun o ho => hfresh (hs.output o (hout ▸ ho)).1⟩
  · show (rooted s.circuit).outputs ++ [_] = _
    rw [outputs_rooted, hout]
  · show List.IsChain _ [s.circuit.nextId, s.circuit.nextId + 1]
    exact List.isChain_cons_cons.2 ⟨below_rooted_root, .singleton _⟩
  · show List.Forall₂ _ [s.circuit.nextId, s.circuit.nextId + 1] _
    refine .cons ⟨?_, ?_⟩ (.cons ⟨?_, ?_⟩ .nil)
    · show (rooted s.circuit).label? s.circuit.nextId = _
      rw [label?_rooted, if_neg (by omega), if_pos rfl]
    · exact .of_eq hroot
    · show (rooted s.circuit).label? (s.circuit.nextId + 1) = _
      rw [label?_rooted, if_pos rfl]
    · exact .of_eq houtput

omit hs hc in
/-- A formula that has been read has its answer. -/
theorem Awaiting.done {o : Nat} (ha : Awaiting τ s others [o] answers [(.copy, [v])]) :
    Awaiting τ s (others ++ [o]) [] (answers ++ [v]) [] := by
  have hframes := ha.frames
  rw [hchain, List.nil_append] at hframes
  have ho := List.perm_singleton.1 (List.forall₂_cons.1 hframes).1.2
  refine ⟨by rw [ha.outputs_eq, List.append_nil], ?_, ?_, ?_⟩
  · rw [hchain]
    exact .nil
  · rw [hchain]
    exact .nil
  · rw [List.map_append, List.map_append, ha.answers, List.map_singleton, List.map_singleton, ho]

/-- **Reading formulas that make sense computes them all.** -/
theorem computed_readAll {formulas : List String} {results : List (Bool × List String)}
    (ha : Awaiting τ s others [] answers [])
    (h : List.Forall₂ (fun f e => Computes ρ f e.1 e.2) formulas results) :
    (∃ τ' outs, Computed ρ τ' (s.readAll formulas) ∧
      Awaiting τ' (s.readAll formulas) outs [] (answers ++ results.map (·.1)) []) ∧
    ∀ x, x ∈ (s.readAll formulas).names.map (·.1) ↔
      x ∈ s.names.map (·.1) ∨ x ∈ results.flatMap (·.2) := by
  induction h generalizing s τ others answers with
  | nil =>
    refine ⟨⟨τ, others, hc, ?_⟩, by simp [Reader.readAll]⟩
    rwa [List.map_nil, List.append_nil]
  | @cons f e formulas results hf _ ih =>
    obtain ⟨⟨τ', hc', ha'⟩, hnames⟩ := hf.computed_run (hs.openFormula hchain)
      (hc.openFormula hs hchain) (ha.openFormula hs hchain)
    have hchain' := chain_read (s := s) hf.balanced
    obtain ⟨hread, hall⟩ := ih (hs.read hchain f) hchain' hc' (ha'.done hchain')
    rw [List.append_assoc] at hread
    refine ⟨hread, fun x => (hall x).trans ?_⟩
    rw [List.flatMap_cons, List.mem_append, ← or_assoc]
    exact or_congr_left (hnames x)

end Formulas

end Formula

end Wiring
