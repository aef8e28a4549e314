import Wiring.Proofs.Circuit.Soundness

/-!
# What a circuit computes

Gates have a Boolean value and, by the strong tables of three-valued logic, a value also when some
arguments are unknown. A circuit is read node by node: an output has the value of its parent, an
input without a constant the value given for it, and any other node what its gate makes of its
parents, each counted once for every edge. In an acyclic circuit these equations have exactly one
solution, which is what any number of steps above the rank of a node computes.

## Main definitions

- `Gate.truth`, `Gate.kleene` — the value of a gate for known and for partly unknown arguments
- `Circuit.Settles` — values that satisfy the equation of every node
- `Circuit.value` — the solution
- `Circuit.truth`, `Circuit.kleene` — the solution for Boolean and for three-valued inputs

## Main statements

- `Circuit.settles_value`, `Circuit.Settles.eq_value` — the solution exists and is unique
- `Circuit.Lax.kleene_some` — on known inputs the three-valued reading is the Boolean one
-/

namespace Wiring

open scoped Unlimited

/-! ## Gates -/

namespace Gate

variable {β : Type} {gate : Gate}

/-- The element of a list with one element. -/
def sole [Inhabited β] : List β → β
  | [x] => x
  | _ => default

/-- The value of a gate. -/
def truth : Gate → List Bool → Bool
  | .copy, args => sole args
  | .not, args => !sole args
  | .and, args => args.all id
  | .or, args => args.any id
  | .xor, args => args.count true % 2 == 1
  | .const v, _ => v
  | .free _, _ => false

/-- The value of a gate as far as it is settled, `none` standing for unknown: an argument that
    absorbs the others settles the gate, and otherwise all arguments have to be known. -/
def kleene : Gate → List (Option Bool) → Option Bool
  | .copy, args => sole args
  | .not, args => (sole args).map (!·)
  | .and, args => if some false ∈ args then some false else if none ∈ args then none else some true
  | .or, args => if some true ∈ args then some true else if none ∈ args then none else some false
  | .xor, args => if none ∈ args then none else some (args.count (some true) % 2 == 1)
  | .const v, _ => some v
  | .free _, _ => none

theorem sole_perm [Inhabited β] {l l' : List β} (h : l.Perm l') : sole l = sole l' := by
  match l, h with
  | [], h => rw [h.nil_eq]
  | [x], h => rw [List.singleton_perm.1 h]
  | _ :: _ :: _, h =>
    match l', h.length_eq with
    | _ :: _ :: _, _ => rfl

/-- The order of the arguments does not matter. -/
theorem kleene_perm {l l' : List (Option Bool)} (h : l.Perm l') :
    gate.kleene l = gate.kleene l' := by
  cases gate <;> simp only [kleene, sole_perm h, h.mem_iff, h.count_eq]

theorem truth_perm {l l' : List Bool} (h : l.Perm l') : gate.truth l = gate.truth l' := by
  cases gate <;> simp only [truth, sole_perm h, h.all_eq, h.any_eq, h.count_eq]

theorem count_map_some (l : List Bool) : (l.map some).count (some true) = l.count true := by
  induction l with
  | nil => rfl
  | cons x l ih => cases x <;> simp [ih]

/-- On known arguments the three-valued reading is the Boolean one, if there are as many as the
    gate takes. -/
theorem kleene_map_some {l : List Bool} {outs : Nat} (h : gate.Allows l.length outs) :
    gate.kleene (l.map some) = some (gate.truth l) := by
  have hnone : none ∉ l.map some := by simp
  cases gate with
  | copy =>
    obtain ⟨x, rfl⟩ := List.length_eq_one_iff.1 h
    rfl
  | not =>
    obtain ⟨x, rfl⟩ := List.length_eq_one_iff.1 h.1
    rfl
  | and =>
    simp only [kleene, truth, if_neg hnone]
    by_cases hf : false ∈ l
    · have hall : l.all id = false := List.all_eq_false.2 ⟨false, hf, by simp⟩
      simp [hf, hall]
    · have hall : l.all id = true := List.all_eq_true.2 fun x hx => by
        cases x
        · exact absurd hx hf
        · rfl
      simp [hf, hall]
  | or =>
    simp only [kleene, truth, if_neg hnone]
    by_cases ht : true ∈ l
    · have hany : l.any id = true := List.any_eq_true.2 ⟨true, ht, rfl⟩
      simp [ht, hany]
    · have hany : l.any id = false := List.any_eq_false.2 fun x hx => by
        cases x
        · simp
        · exact absurd hx ht
      simp [ht, hany]
  | xor => simp only [kleene, truth, if_neg hnone, count_map_some]
  | const v => rfl
  | free name => exact h.elim

end Gate

/-! ## Circuits -/

namespace Circuit

variable {β : Type} [Inhabited β] {sem : Gate → List β → β} {g : Circuit} {σ σ' ν ν' : Nat → β}
  {k : Nat}

/-- What the node `k` makes of the values `ν` of the others, when `σ` gives the inputs. -/
def nodeValue (sem : Gate → List β → β) (g : Circuit) (σ ν : Nat → β) (k : Nat) : β :=
  if g.isOutput k then Gate.sole ((g.above k).map ν)
  else
    match g.label? k with
    | none => default
    | some label =>
      if g.isInput k && label.value?.isNone then σ k else sem label ((g.above k).map ν)

/-- The values satisfy the equation of every node. -/
def Settles (sem : Gate → List β → β) (g : Circuit) (σ ν : Nat → β) : Prop :=
  ∀ k, g.contains k = true → ν k = nodeValue sem g σ ν k

/-- The value of a node as far as paths of limited length above it tell. -/
def valueWithin (sem : Gate → List β → β) (g : Circuit) (σ : Nat → β) : Nat → Nat → β
  | 0, _ => default
  | depth + 1, k => nodeValue sem g σ (valueWithin sem g σ depth) k

/-- **The value of a node.** No path is longer than there are nodes. -/
def value (sem : Gate → List β → β) (g : Circuit) (σ : Nat → β) (k : Nat) : β :=
  valueWithin sem g σ g.size k

/-- The Boolean value of a node, where `ρ` gives the inputs that carry no constant. -/
def truth (g : Circuit) (ρ : Nat → Bool) (k : Nat) : Bool := value Gate.truth g ρ k

/-- The value of a node where `σ` gives the inputs that carry no constant, as far as known. -/
def kleene (g : Circuit) (σ : Nat → Option Bool) (k : Nat) : Option Bool :=
  value Gate.kleene g σ k

theorem nodeValue_congr (hν : ∀ u ∈ g.above k, ν u = ν' u)
    (hσ : k ∈ g.inputs → (∀ v, g.label? k ≠ some (.const v)) → σ k = σ' k) :
    nodeValue sem g σ ν k = nodeValue sem g σ' ν' k := by
  rw [nodeValue, nodeValue, List.map_congr_left hν]
  cases hl : g.label? k with
  | none => rfl
  | some label =>
    by_cases hi : (g.isInput k && label.value?.isNone) = true
    · rw [Bool.and_eq_true, Diagram.isInput, List.contains_iff_mem] at hi
      have hσk : σ k = σ' k := hσ hi.1 fun v hv => by
        rw [hl] at hv
        cases hv
        exact absurd hi.2 (by simp [Gate.value?])
      simp only [hσk]
    · simp only [if_neg hi]

/-- Two solutions agree on all nodes, if they are given the same inputs. -/
theorem Settles.unique (hg : g.Acyclic) (h : Settles sem g σ ν) (h' : Settles sem g σ' ν')
    (hσ : ∀ i ∈ g.inputs, (∀ v, g.label? i ≠ some (.const v)) → σ i = σ' i)
    (hcoh : g.Coherent) (hk : g.contains k = true) : ν k = ν' k := by
  obtain ⟨r, hr⟩ := hg
  induction hrank : r k using Nat.strongRecOn generalizing k with
  | ind m ih =>
    rw [h k hk, h' k hk]
    refine nodeValue_congr ?_ (hσ k)
    intro u hu
    exact ih (r u) (hrank ▸ hr u k hu) (hcoh.contains_of_mem_above hu) rfl

/-- Above the rank of a node the number of steps does not matter. -/
theorem valueWithin_eq {r : Nat → Nat} (hr : g.Ranked r) {d d' : Nat} (hd : r k < d)
    (hd' : r k < d') : valueWithin sem g σ d k = valueWithin sem g σ d' k := by
  induction d generalizing d' k with
  | zero => omega
  | succ d ih =>
    obtain ⟨d', rfl⟩ : ∃ e, d' = e + 1 := ⟨d' - 1, by omega⟩
    refine nodeValue_congr ?_ fun _ _ => rfl
    intro u hu
    have := hr u k hu
    exact ih (by omega) (by omega)

/-- **The values of an acyclic circuit satisfy all equations.** -/
theorem settles_value (hcoh : g.Coherent) (hg : g.Acyclic) :
    Settles sem g σ (value sem g σ) := by
  -- ranks are smaller than the number of nodes, and so many steps are taken
  obtain ⟨r, hr, hlt⟩ := hcoh.exists_rank_lt hg
  intro k hk
  obtain ⟨d, hd⟩ : ∃ d, g.size = d + 1 := ⟨g.size - 1, by have := hlt k hk; omega⟩
  have hstep : value sem g σ k = nodeValue sem g σ (valueWithin sem g σ d) k := by
    rw [value, hd, valueWithin]
  rw [hstep]
  refine nodeValue_congr ?_ fun _ _ => rfl
  intro u hu
  have hru := hr u k hu
  have hrk := hlt k hk
  exact valueWithin_eq hr (by omega) (by omega)

/-- Whatever satisfies all equations is the value. -/
theorem Settles.eq_value (hcoh : g.Coherent) (hg : g.Acyclic) (h : Settles sem g σ ν)
    (hk : g.contains k = true) : value sem g σ k = ν k :=
  (settles_value hcoh hg).unique hg h (fun _ _ _ => rfl) hcoh hk

/-- The values depend only on what is given for inputs without constants. -/
theorem value_congr (hcoh : g.Coherent) (hg : g.Acyclic)
    (hσ : ∀ i ∈ g.inputs, (∀ v, g.label? i ≠ some (.const v)) → σ i = σ' i)
    (hk : g.contains k = true) : value sem g σ k = value sem g σ' k :=
  (settles_value hcoh hg).unique hg (settles_value hcoh hg) hσ hcoh hk

/-! ## Reading the equations -/

theorem nodeValue_output (hk : k ∈ g.outputs) :
    nodeValue sem g σ ν k = Gate.sole ((g.above k).map ν) := by
  rw [nodeValue, if_pos]
  exact List.contains_iff_mem.2 hk

theorem nodeValue_input {label : Gate} (hl : g.label? k = some label) (ho : k ∉ g.outputs)
    (hi : k ∈ g.inputs) (hv : label.value? = none) : nodeValue sem g σ ν k = σ k := by
  have hout : g.isOutput k = false := by simpa [Diagram.isOutput] using ho
  have hin : g.isInput k = true := List.contains_iff_mem.2 hi
  rw [nodeValue, hout, hl]
  simp [hin, hv]

theorem nodeValue_gate {label : Gate} (hl : g.label? k = some label) (ho : k ∉ g.outputs)
    (hi : k ∉ g.inputs ∨ label.value?.isSome = true) :
    nodeValue sem g σ ν k = sem label ((g.above k).map ν) := by
  have hout : g.isOutput k = false := by simpa [Diagram.isOutput] using ho
  have hin : (g.isInput k && label.value?.isNone) = false := by
    rcases hi with hi | hi
    · have : g.isInput k = false := by simpa [Diagram.isInput] using hi
      rw [this]
      rfl
    · cases hv : label.value? with
      | none => simp [hv] at hi
      | some v => simp
  rw [nodeValue, hout, hl]
  simp [hin]

/-! ## Known inputs -/

/-- Boolean values are a solution in three-valued logic too. -/
theorem Lax.settles_some (h : g.Lax) {ρ τ : Nat → Bool} (hτ : Settles Gate.truth g ρ τ) :
    Settles Gate.kleene g (fun i => some (ρ i)) fun k => some (τ k) := by
  intro k hk
  show some (τ k) = _
  have hmap : (g.above k).map (fun u => some (τ u)) = ((g.above k).map τ).map some := by
    rw [List.map_map]
    rfl
  by_cases ho : k ∈ g.outputs
  · obtain ⟨p, hp⟩ := List.length_eq_one_iff.1 (h.output k ho).2.2
    rw [hτ k hk, nodeValue_output ho, nodeValue_output ho, hp]
    rfl
  · obtain ⟨label, hl⟩ := Diagram.contains_iff_label?.1 hk
    by_cases hi : k ∈ g.inputs ∧ label.value? = none
    · rw [hτ k hk, nodeValue_input hl ho hi.1 hi.2, nodeValue_input hl ho hi.1 hi.2]
    · have hi' : k ∉ g.inputs ∨ label.value?.isSome = true := by
        rw [Option.isSome_iff_ne_none]
        tauto
      rw [hτ k hk, nodeValue_gate hl ho hi', nodeValue_gate hl ho hi', hmap]
      rcases hi' with hi' | hi'
      · have hallow := h.gate k label hl hi' ho
        rw [← List.length_map τ] at hallow
        exact (Gate.kleene_map_some hallow).symm
      · cases label <;> simp [Gate.value?] at hi'
        rfl

/-- **On known inputs the three-valued reading is the Boolean one.** -/
theorem Lax.kleene_some (h : g.Lax) (ρ : Nat → Bool) (hk : g.contains k = true) :
    kleene g (fun i => some (ρ i)) k = some (truth g ρ k) :=
  (h.settles_some (settles_value h.coherent h.acyclic)).eq_value h.coherent h.acyclic hk

end Circuit

end Wiring
