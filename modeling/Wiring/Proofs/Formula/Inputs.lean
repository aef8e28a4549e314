import Wiring.Proofs.Circuit.Inputs
import Wiring.Proofs.Formula.Values

/-!
# The finished circuit of formulas that compute

When all formulas have been read, nodes are missing their arguments only where they stand for
variables. Each input that is opened supplies one of them, and when the last one has been supplied
the circuit is sound and its outputs have the values of the formulas.

## Main definitions

- `Formula.Supplied` — some of the variables have inputs
- `Formula.Meaning`, `Formula.Means` — what a formula is to compute

## Main statements

- `Formula.Supplied.openAll` — opening inputs supplies all variables
- `Formula.Means.ofFormulas` — the circuit of formulas that mean something
-/

namespace Wiring

open scoped Unlimited

namespace Formula

variable {g : Circuit} {s : Reader} {ρ : String → Bool} {τ : Nat → Bool} {names : Names}
  {outs : List Nat} {given : List String} {answers : List Bool} {k : Nat} {e : String × Nat}

/-- **Some of the variables have inputs**: those that are `given`, in this order, and not those of
    `names`. All nodes but theirs have the arguments that they need. -/
structure Supplied (ρ : String → Bool) (τ : Nat → Bool) (g : Circuit) (names : Names)
    (given : List String) (answers : List Bool) : Prop where
  coherent : g.Coherent
  idsBelow : g.IdsBelow
  nodup_inputs : g.inputs.Nodup
  nodup_outputs : g.outputs.Nodup
  nodup_named : (names.map (·.2)).Nodup
  input : ∀ i ∈ g.inputs, g.contains i = true ∧ g.above i = [] ∧ (g.below i).length = 1
  output : ∀ o ∈ g.outputs, g.contains o = true ∧ g.below o = [] ∧ (g.above o).length = 1
  named : ∀ e ∈ names, g.contains e.2 = true ∧ e.2 ∉ g.inputs ∧ e.2 ∉ g.outputs ∧
    g.above e.2 = [] ∧ τ e.2 = ρ e.1
  gate : ∀ k label, g.label? k = some label → k ∉ g.inputs → k ∉ g.outputs →
    k ∉ names.map (·.2) → label.Allows (g.above k).length (g.below k).length ∧
      (label.hasResult = true → g.below k ≠ []) ∧ (∀ v, label = .const v → g.above k = []) ∧
      τ k = label.truth ((g.above k).map τ)
  labels : g.inputs.map g.label? = given.map fun x => some (.free x)
  values : g.inputs.map τ = given.map ρ
  answers : g.outputs.map (fun o => (g.above o).map τ) = answers.map ([·])

/-- Before any input has been opened. -/
theorem Reading.supplied (hs : Reading s) (hchain : s.chain = []) (hc : Computed ρ τ s)
    (ha : Awaiting τ s outs [] answers []) :
    Supplied ρ τ s.circuit (sorted s.names) [] answers where
  coherent := hs.coherent
  idsBelow := hs.idsBelow
  nodup_inputs := by
    rw [hs.inputs]
    exact .nil
  nodup_outputs := hs.nodup_outputs
  nodup_named := ((sorted_perm s.names).map (·.2)).nodup_iff.2 hs.nodup_named
  input i hi := by
    rw [hs.inputs] at hi
    cases hi
  output := hs.output
  named e he := by
    have he := (sorted_perm s.names).mem_iff.1 he
    obtain ⟨hcontains, hout, -⟩ := hs.named e.2 (List.mem_map_of_mem he)
    rw [hs.inputs]
    exact ⟨hcontains, List.not_mem_nil, hout, (hc.named e he).2, (hc.named e he).1⟩
  gate k label hl _ hout hname := by
    have hname : k ∉ s.names.map (·.2) := fun hmem =>
      hname (((sorted_perm s.names).map (·.2)).mem_iff.2 hmem)
    -- no operand is open any more, so that a gate without a name has been closed
    have hch : k ∉ s.chain := by simp [hchain]
    obtain ⟨⟨hallows, hconst⟩, htruth⟩ := hc.closed k label hl hout hch hname
    have hone := hs.unnamed k (Diagram.contains_iff_label?.2 ⟨_, hl⟩) hout hch hname
    rw [hone]
    refine ⟨hallows, fun _ hnil => ?_, fun v hv => List.length_eq_zero_iff.1 (hconst v hv), htruth⟩
    rw [hnil] at hone
    cases hone
  labels := by
    rw [hs.inputs]
    rfl
  values := by
    rw [hs.inputs]
    rfl
  answers := by
    have hanswers := ha.answers
    have hout := ha.outputs_eq
    rw [List.append_nil] at hout
    rw [← hanswers, hout]
    refine List.map_congr_left fun o _ => ?_
    rw [arrived, hchain]
    simp

section Opened

variable (h : Supplied ρ τ g (e :: names) given answers)
include h

theorem Supplied.contains_head : g.contains e.2 = true := (h.named e List.mem_cons_self).1

/-- The value of the new input changes no other. -/
theorem Supplied.update_of_contains (v : Bool) (hk : g.contains k = true) :
    Function.update τ g.nextId v k = τ k :=
  Function.update_of_ne (Nat.ne_of_lt (h.idsBelow k hk)) _ _

theorem Supplied.map_update (v : Bool) (k : Nat) :
    (g.above k).map (Function.update τ g.nextId v) = (g.above k).map τ :=
  List.map_congr_left fun _ hp => h.update_of_contains v (h.coherent.contains_of_mem_above hp)

theorem Supplied.above_opened_of_ne (hk : g.contains k = true) (hne : k ≠ e.2) :
    ((opened g e.1 e.2).above k).Perm (g.above k) := by
  have hperm := above_opened h.idsBelow h.contains_head e.1 hk
  rwa [if_neg hne, List.append_nil] at hperm

theorem Supplied.label?_opened_of_ne (hk : g.contains k = true) (hne : k ≠ e.2) :
    (opened g e.1 e.2).label? k = g.label? k := by
  rw [label?_opened h.idsBelow hk, if_neg hne]

theorem Supplied.input_opened {i : Nat} (hi : i ∈ (opened g e.1 e.2).inputs) :
    (opened g e.1 e.2).contains i = true ∧ (opened g e.1 e.2).above i = [] ∧
      ((opened g e.1 e.2).below i).length = 1 := by
  rw [inputs_opened, List.mem_append, List.mem_singleton] at hi
  rcases hi with hi | rfl
  · obtain ⟨hc, hnil, hone⟩ := h.input i hi
    have hperm := h.above_opened_of_ne hc
      (ne_of_mem_of_not_mem hi (h.named e List.mem_cons_self).2.1)
    rw [hnil] at hperm
    refine ⟨by rw [contains_opened, hc, Bool.true_or], List.perm_nil.1 hperm, ?_⟩
    rw [(below_opened h.idsBelow _ hc).length_eq, hone]
  · refine ⟨by simp [contains_opened], above_opened_input h.idsBelow h.contains_head, ?_⟩
    rw [below_opened_input]
    rfl

theorem Supplied.output_opened {o : Nat} (ho : o ∈ g.outputs) :
    (opened g e.1 e.2).contains o = true ∧ (opened g e.1 e.2).below o = [] ∧
      (opened g e.1 e.2).above o = g.above o := by
  obtain ⟨hc, hnil, hone⟩ := h.output o ho
  have hbelow := below_opened (i := e.2) h.idsBelow e.1 hc
  have habove := h.above_opened_of_ne hc
    (ne_of_mem_of_not_mem ho (h.named e List.mem_cons_self).2.2.1)
  obtain ⟨p, hp⟩ := List.length_eq_one_iff.1 hone
  rw [hnil] at hbelow
  rw [hp] at habove ⊢
  exact ⟨by rw [contains_opened, hc, Bool.true_or], List.perm_nil.1 hbelow,
    List.perm_singleton.1 habove⟩

/-- A variable that gets its input is a copy of it from then on. -/
theorem Supplied.gate_opened_self {label : Gate}
    (hl : (opened g e.1 e.2).label? e.2 = some label) :
    label = .copy ∧ (opened g e.1 e.2).above e.2 = [g.nextId] := by
  have hi := h.contains_head
  rw [label?_opened h.idsBelow hi, if_pos rfl] at hl
  have hperm := above_opened h.idsBelow hi e.1 hi
  rw [(h.named e List.mem_cons_self).2.2.2.1, if_pos rfl, List.nil_append] at hperm
  exact ⟨(Option.some.inj hl).symm, List.perm_singleton.1 hperm⟩

theorem Supplied.gate_opened {label : Gate} (hl : (opened g e.1 e.2).label? k = some label)
    (hin : k ∉ (opened g e.1 e.2).inputs) (hout : k ∉ (opened g e.1 e.2).outputs)
    (hname : k ∉ names.map (·.2)) :
    label.Allows ((opened g e.1 e.2).above k).length ((opened g e.1 e.2).below k).length ∧
      (label.hasResult = true → (opened g e.1 e.2).below k ≠ []) ∧
      (∀ v, label = .const v → (opened g e.1 e.2).above k = []) ∧
      Function.update τ g.nextId (ρ e.1) k =
        label.truth (((opened g e.1 e.2).above k).map (Function.update τ g.nextId (ρ e.1))) := by
  rw [inputs_opened, List.mem_append, List.mem_singleton, not_or] at hin
  rw [outputs_opened] at hout
  have hk : g.contains k = true := by
    have hk := Diagram.contains_iff_label?.2 ⟨_, hl⟩
    rw [contains_opened, Bool.or_eq_true, beq_iff_eq] at hk
    exact hk.resolve_right hin.2
  rw [h.update_of_contains _ hk]
  by_cases hki : k = e.2
  · subst hki
    obtain ⟨rfl, hone⟩ := h.gate_opened_self hl
    have hval := (h.named e List.mem_cons_self).2.2.2.2
    rw [hone, hval, List.map_singleton, Function.update_self]
    exact ⟨rfl, fun hres => (nomatch hres), fun v hv => (nomatch hv), rfl⟩
  · rw [h.label?_opened_of_ne hk hki] at hl
    have hnamed : k ∉ (e :: names).map (·.2) := by
      rw [List.map_cons, List.mem_cons, not_or]
      exact ⟨hki, hname⟩
    obtain ⟨hallows, hres, hconst, htruth⟩ := h.gate k label hl hin.1 hout hnamed
    have hbelow := below_opened (i := e.2) h.idsBelow e.1 hk
    have hperm := h.above_opened_of_ne hk hki
    rw [hperm.length_eq, hbelow.length_eq, Gate.truth_perm (hperm.map _), h.map_update]
    refine ⟨hallows, fun hr hnil => hres hr ?_, fun v hv => ?_, htruth⟩
    · rw [hnil] at hbelow
      exact hbelow.nil_eq.symm
    · rw [hconst v hv] at hperm
      exact List.perm_nil.1 hperm

/-- **Opening an input supplies a variable.** -/
theorem Supplied.opened : Supplied ρ (Function.update τ g.nextId (ρ e.1)) (opened g e.1 e.2) names
    (given ++ [e.1]) answers := by
  obtain ⟨hi, hiin, -⟩ := h.named e List.mem_cons_self
  have hids := h.idsBelow
  have hnodup := List.nodup_cons.1 h.nodup_named
  have hnew : g.nextId ∉ g.inputs := fun hmem =>
    absurd (hids _ (h.input _ hmem).1) (Nat.lt_irrefl _)
  refine
    { coherent := coherent_opened hids hi h.coherent
      idsBelow := idsBelow_opened hids
      nodup_inputs := by
        rw [inputs_opened]
        exact List.nodup_append_comm.1 (List.nodup_cons.2 ⟨hnew, h.nodup_inputs⟩)
      nodup_outputs := by
        rw [outputs_opened]
        exact h.nodup_outputs
      nodup_named := hnodup.2
      input := fun i hmem => h.input_opened hmem
      output := fun o hmem => ?_
      named := fun e' he' => ?_
      gate := fun k label hl hin hout hname => h.gate_opened hl hin hout hname
      labels := ?_
      values := ?_
      answers := ?_ }
  -- what was there keeps its ports and values, apart from the named node, which gets its input
  · obtain ⟨hc, hbelow, habove⟩ := h.output_opened (outputs_opened ▸ hmem)
    rw [habove]
    exact ⟨hc, hbelow, (h.output o (outputs_opened ▸ hmem)).2.2⟩
  · obtain ⟨hc, hin, hout, hnil, hval⟩ := h.named e' (List.mem_cons_of_mem _ he')
    have hperm := h.above_opened_of_ne hc
      (ne_of_mem_of_not_mem (List.mem_map_of_mem he') hnodup.1)
    rw [hnil] at hperm
    rw [contains_opened, inputs_opened, outputs_opened, List.mem_append, List.mem_singleton, not_or,
      hc, h.update_of_contains _ hc]
    exact ⟨rfl, ⟨hin, Nat.ne_of_lt (hids _ hc)⟩, hout, List.perm_nil.1 hperm, hval⟩
  · rw [inputs_opened, List.map_append, List.map_append, ← h.labels, List.map_singleton,
      List.map_singleton, label?_opened_input]
    exact congrArg (· ++ _) (List.map_congr_left fun i hmem =>
      h.label?_opened_of_ne (h.input i hmem).1 (ne_of_mem_of_not_mem hmem hiin))
  · rw [inputs_opened, List.map_append, List.map_append, ← h.values, List.map_singleton,
      List.map_singleton, Function.update_self]
    exact congrArg (· ++ _) (List.map_congr_left fun i hmem =>
      h.update_of_contains _ (h.input i hmem).1)
  · rw [outputs_opened, ← h.answers]
    exact List.map_congr_left fun o hmem => by rw [(h.output_opened hmem).2.2, h.map_update]

end Opened

/-- **Opening all inputs supplies all variables.** -/
theorem Supplied.openAll (h : Supplied ρ τ g names given answers) :
    ∃ τ', Supplied ρ τ' (openAll g names) [] (given ++ names.map (·.1)) answers := by
  induction names generalizing g τ given with
  | nil => exact ⟨τ, by rwa [List.map_nil, List.append_nil]⟩
  | cons e names ih =>
    obtain ⟨τ', h'⟩ := ih h.opened
    rw [List.append_assoc] at h'
    exact ⟨τ', h'⟩

/-! ## The finished circuit -/

section Finished

variable (h : Supplied ρ τ g [] given answers)
include h

theorem Supplied.not_mem_inputs {o : Nat} (ho : o ∈ g.outputs) : o ∉ g.inputs := fun hi => by
  have hone := (h.output o ho).2.2
  rw [(h.input o hi).2.1] at hone
  cases hone

theorem Supplied.sound (hacyclic : g.Acyclic) : Circuit.Sound g := by
  refine Circuit.sound_iff.2 ⟨?_, fun k label hl hout hres => ?_⟩
  · exact
      { coherent := h.coherent
        idsBelow := h.idsBelow
        nodup_inputs := h.nodup_inputs
        nodup_outputs := h.nodup_outputs
        input := fun i hi => ⟨(h.input i hi).1, (h.input i hi).2.1, (h.input i hi).2.2.le⟩
        output := h.output
        acyclic := hacyclic
        gate := fun k label hl hin hout => (h.gate k label hl hin hout List.not_mem_nil).1 }
  · by_cases hin : k ∈ g.inputs
    · exact List.length_pos_iff.1 (Nat.lt_of_lt_of_eq Nat.one_pos (h.input k hin).2.2.symm)
    · exact (h.gate k label hl hin hout List.not_mem_nil).2.1 (hres.resolve_left hin)

theorem Supplied.grounded : Circuit.Grounded g := by
  intro k v hl hout
  by_cases hin : k ∈ g.inputs
  · exact (h.input k hin).2.1
  · exact (h.gate k _ hl hin hout List.not_mem_nil).2.2.1 v rfl

/-- The values satisfy all equations, outputs having those of their parents. -/
theorem Supplied.exists_obeys : ∃ τ', Circuit.Obeys g τ' ∧ g.inputs.map τ' = given.map ρ ∧
    g.outputs.map τ' = answers := by
  have hmap (k : Nat) : (g.above k).map (fun p => if p ∈ g.outputs then
      Gate.sole ((g.above p).map τ) else τ p) = (g.above k).map τ := by
    refine List.map_congr_left fun p hp => if_neg fun hout => ?_
    rw [h.coherent.mem_above_iff, (h.output p hout).2.1] at hp
    cases hp
  refine ⟨fun p => if p ∈ g.outputs then Gate.sole ((g.above p).map τ) else τ p,
    ⟨fun o ho => ?_, fun k label hl hin hout => ?_⟩, ?_, ?_⟩
  · rw [hmap, if_pos ho]
  · rw [hmap, if_neg hout]
    exact (h.gate k label hl hin hout List.not_mem_nil).2.2.2
  · rw [← h.values]
    exact List.map_congr_left fun i hi => if_neg fun ho => h.not_mem_inputs ho hi
  · have hsole : (answers.map ([·])).map Gate.sole = answers := by
      rw [List.map_map]
      exact List.map_id' _
    rw [← hsole, ← h.answers, List.map_map]
    exact List.map_congr_left fun o ho => if_pos ho

end Finished

/-- Names come in ascending order. -/
theorem sorted_pairwise_lt (hkeys : (names.map (·.1)).Nodup) :
    ((sorted names).map (·.1)).Pairwise (· < ·) := by
  have hnot {a b : String} : (!decide (b < a)) = true ↔ a ≤ b := by
    rw [Bool.not_eq_true', decide_eq_false_iff_not, String.not_lt]
  have hsorted : (sorted names).Pairwise fun a b => (!decide (b.1 < a.1)) = true := by
    refine List.pairwise_mergeSort (fun a b c hab hbc => ?_) (fun a b => ?_) names
    · exact hnot.2 (String.le_trans (hnot.1 hab) (hnot.1 hbc))
    · rw [Bool.or_eq_true, hnot, hnot]
      exact String.le_total a.1 b.1
  have hle : ((sorted names).map (·.1)).Pairwise (· ≤ ·) :=
    List.pairwise_map.2 (hsorted.imp fun hab => hnot.1 hab)
  have hne : ((sorted names).map (·.1)).Nodup := ((sorted_perm names).map (·.1)).nodup_iff.2 hkeys
  refine (hle.and hne).imp fun hab => ?_
  by_contra hlt
  exact hab.2 (String.le_antisymm hab.1 (String.not_lt.1 hlt))

/-- **What a formula means**: its value for given variables, and the names of these. -/
structure Meaning where
  /-- The value. -/
  value : (String → Bool) → Bool
  /-- The names of the variables. -/
  names : List String

/-- The formula computes what it is to mean. -/
def Means (formula : String) (m : Meaning) : Prop :=
  ∀ ρ, Computes ρ formula (m.value ρ) m.names

section Means

variable {formulas : List String} {ms : List Meaning} (h : List.Forall₂ Means formulas ms)
include h

theorem Means.exists_of_mem {f : String} (hf : f ∈ formulas) : ∃ m, Means f m := by
  induction h with
  | nil => cases hf
  | cons hm _ ih =>
    rcases List.mem_cons.1 hf with rfl | hf
    · exact ⟨_, hm⟩
    · exact ih hf

theorem Means.balanced {f : String} (hf : f ∈ formulas) : balanced f = true :=
  (Means.exists_of_mem h hf).elim fun _ hm => (hm fun _ => false).balanced

/-- In the end all variables have inputs, and the outputs their answers. -/
theorem Means.supplied (ρ : String → Bool) :
    (∃ τ, Supplied ρ τ (finished (Reader.start.readAll formulas)) []
      ((sorted (Reader.start.readAll formulas).names).map (·.1)) (ms.map fun m => m.value ρ)) ∧
    ∀ x, x ∈ (Reader.start.readAll formulas).names.map (·.1) ↔ ∃ m ∈ ms, x ∈ m.names := by
  obtain ⟨hs, hchain⟩ := Reading.start.readAll rfl fun f hf => Means.balanced h hf
  have hcomputes : List.Forall₂ (fun f e => Computes ρ f e.1 e.2) formulas
      (ms.map fun m => (m.value ρ, m.names)) :=
    List.forall₂_map_right_iff.2 (h.imp fun f m hm => hm ρ)
  have hcomputed : Computed ρ (fun _ => false) .start :=
    ⟨fun _ he => (nomatch he), fun _ _ hl => (nomatch hl)⟩
  have hawaiting : Awaiting (fun _ => false) .start [] [] [] [] := ⟨rfl, .nil, .nil, rfl⟩
  obtain ⟨⟨τ, outs, hc, ha⟩, hnames⟩ :=
    computed_readAll .start rfl hcomputed hawaiting hcomputes
  refine ⟨?_, fun x => (hnames x).trans ?_⟩
  · have hsupplied := (hs.supplied hchain hc ha).openAll
    rwa [List.nil_append, List.nil_append, List.map_map] at hsupplied
  · simp [Reader.start]

/-- **The circuit of formulas that mean something** is sound, has one output for each of them and
    one input for each variable, in the order of the names, and is evaluated to their values. -/
theorem Means.ofFormulas : ∃ (c : Circuit) (names : List String),
    Circuit.ofFormulas formulas = .ok c ∧ Circuit.Sound c ∧ c.outputs.length = ms.length ∧
      names.Pairwise (· < ·) ∧ (∀ x, x ∈ names ↔ ∃ m ∈ ms, x ∈ m.names) ∧
      c.inputs.map c.label? = names.map (fun x => some (.free x)) ∧
      ∀ ρ : String → Bool, Circuit.evaluateOn (Circuit.bitString (names.map ρ)) c =
        .ok (Circuit.bitString (ms.map fun m => m.value ρ)) := by
  have hok := ofFormulas_eq_ok_iff.2 ⟨fun f hf => Means.balanced h hf, rfl⟩
  obtain ⟨hs, -⟩ := Reading.start.readAll rfl fun f hf => Means.balanced h hf
  have hacyclic : Diagram.Acyclic (finished (Reader.start.readAll formulas)) := by
    refine acyclic_of_nestings (r := fun _ => 0) hok fun e he => ?_
    obtain ⟨f, hf, he⟩ := List.mem_flatMap.1 he
    obtain ⟨m, hm⟩ := Means.exists_of_mem h hf
    rw [(hm fun _ => false).nestings_eq_nil] at he
    cases he
  obtain ⟨⟨τ, hsupplied⟩, hnames⟩ := Means.supplied h fun _ => false
  refine ⟨_, (sorted (Reader.start.readAll formulas).names).map (·.1), hok,
    hsupplied.sound hacyclic, ?_, sorted_pairwise_lt hs.nodup_keys, fun x => ?_, hsupplied.labels,
    fun ρ => ?_⟩
  · have hlength := congrArg List.length hsupplied.answers
    rwa [List.length_map, List.length_map, List.length_map] at hlength
  · rw [← hnames]
    exact ((sorted_perm _).map (·.1)).mem_iff
  · obtain ⟨⟨τ, hsupplied⟩, -⟩ := Means.supplied h ρ
    obtain ⟨τ', hobeys, hinputs, houtputs⟩ := hsupplied.exists_obeys
    rw [← hinputs, ← houtputs]
    exact (hsupplied.sound hacyclic).evaluateOn_eq hsupplied.grounded hobeys

end Means

end Formula

end Wiring
