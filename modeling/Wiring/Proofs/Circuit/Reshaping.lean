import Mathlib.Algebra.BigOperators.Group.Finset.Basic
import Mathlib.Algebra.Order.BigOperators.Group.Finset
import Wiring.Proofs.Circuit.Soundness

/-!
# Local changes of a circuit

A fold touches at most two nodes and adds a few. All others keep their label and the numbers of
their edges, so that laxness, tightness and the like need only be looked at where the fold takes
place. A weight for each node, of which folding loses more than it adds, shows that it comes to an
end.

## Main definitions

- `Gate.weight`, `Circuit.potential` — the weight of a node, and of all nodes together
- `Circuit.Reshapes` — a local change that leads towards constants

## Main statements

- `Circuit.Reshapes.lax`, `Circuit.Reshapes.tight`, `Circuit.Reshapes.grounded` — what is kept
- `Circuit.Reshapes.potential_lt` — the potential gets smaller
-/

namespace Wiring

open scoped Unlimited

/-- The weight of a node with so many edges in and out. An edge out counts once for itself and once
    for the source that it may need, an edge into a variadic gate twice. -/
def Gate.weight (label : Gate) (ins outs : Nat) : Nat :=
  2 * (outs - 1) + 1 + if label.isVariadic then 2 * ins + 1 else 0

namespace Circuit

/-- The weight of the node `k`, if there is one. -/
def weightAt (g : Circuit) (k : Nat) : Nat :=
  (g.label? k).elim 0 fun label => label.weight (g.above k).length (g.below k).length

/-- **The potential of a circuit**: the weight of all nodes. -/
def potential (g : Circuit) : Nat := ∑ k ∈ Finset.range g.nextId, g.weightAt k

/-- A sum over ids gets smaller if old ids count no more than before, and what is lost on `T` makes
    up for the new ones, each of which counts at most `c`. -/
theorem sum_range_lt {f f' : Nat → Nat} {m n : Nat} {T : Finset Nat} (c : Nat) (hmn : m ≤ n)
    (hT : ∀ k ∈ T, k < m) (hold : ∀ k < m, k ∉ T → f' k ≤ f k) (hnew : ∀ k, m ≤ k → f' k ≤ c)
    (hlight : ∑ k ∈ T, f' k + (n - m) * c < ∑ k ∈ T, f k) :
    ∑ k ∈ Finset.range n, f' k < ∑ k ∈ Finset.range m, f k := by
  obtain ⟨d, rfl⟩ := Nat.exists_eq_add_of_le hmn
  have hsub : T ⊆ Finset.range m := fun k hk => Finset.mem_range.2 (hT k hk)
  have hfresh : ∑ i ∈ Finset.range d, f' (m + i) ≤ d * c := by
    calc ∑ i ∈ Finset.range d, f' (m + i)
        ≤ ∑ _i ∈ Finset.range d, c :=
          Finset.sum_le_sum fun i _ => hnew (m + i) (Nat.le_add_right m i)
      _ = d * c := by simp
  rw [Nat.add_sub_cancel_left] at hlight
  have hrest : ∑ k ∈ Finset.range m \ T, f' k ≤ ∑ k ∈ Finset.range m \ T, f k := by
    apply Finset.sum_le_sum
    intro k hk
    rw [Finset.mem_sdiff, Finset.mem_range] at hk
    exact hold k hk.1 hk.2
  -- ids are touched, old and left alone, or new
  rw [Finset.sum_range_add, ← Finset.sum_sdiff hsub, ← Finset.sum_sdiff (f := f) hsub]
  omega

/-- The gates that folding adds: constants and negations on an edge, and copies without children. -/
inductive IsFresh : Gate → Nat → Nat → Prop where
  | const (v : Bool) : IsFresh (.const v) 0 1
  | copy : IsFresh .copy 1 0
  | not : IsFresh .not 1 1

namespace IsFresh

variable {label : Gate} {ins outs : Nat}

theorem allows (h : IsFresh label ins outs) : label.Allows ins outs := by
  cases h with
  | const v => trivial
  | copy => rfl
  | not => exact ⟨rfl, Nat.le_refl 1⟩

theorem outs_pos (h : IsFresh label ins outs) (hres : label.hasResult = true) : 0 < outs := by
  cases h with
  | const v => cases hres
  | copy => cases hres
  | not => exact Nat.one_pos

theorem ins_eq_zero {v : Bool} (h : IsFresh (.const v) ins outs) : ins = 0 := by
  cases h
  rfl

theorem weight_le (h : IsFresh label ins outs) : label.weight ins outs ≤ 1 := by
  cases h <;> exact Nat.le_refl 1

end IsFresh

/-- **A local change**: away from the nodes `T` labels and degrees stay as they are, and the nodes
    of `T` go, become parentless constants, or are variadic gates that may lose arguments. What
    weight is gained in new nodes is lost on `T`. -/
structure Reshapes (g h : Circuit) (T : Finset Nat) : Prop where
  coherent : h.Coherent
  idsBelow : h.IdsBelow
  acyclic : h.Acyclic
  nextId_le : g.nextId ≤ h.nextId
  inputs_sublist : h.inputs.Sublist g.inputs
  mem_inputs : ∀ k, k ∈ h.inputs ↔ k ∈ g.inputs ∧ h.contains k = true
  outputs_eq : h.outputs = g.outputs
  touched_old : ∀ k ∈ T, k < g.nextId ∧ k ∉ g.outputs
  label_eq : ∀ k < g.nextId, k ∉ T → h.label? k = g.label? k
  length_eq : ∀ k, g.contains k = true → k ∉ T →
    (h.above k).length = (g.above k).length ∧ (h.below k).length = (g.below k).length
  touched : ∀ k ∈ T, ∀ label, h.label? k = some label →
    (h.below k).length = (g.below k).length ∧
      (label.value?.isSome = true ∧ h.above k = [] ∨
        label.isVariadic = true ∧ g.label? k = some label ∧ k ∉ g.inputs)
  touched_input : ∀ k ∈ T, k ∈ h.inputs → ∃ label, g.label? k = some label ∧
    label.isVariadic = true
  fresh : ∀ k, g.nextId ≤ k → ∀ label, h.label? k = some label →
    IsFresh label (h.above k).length (h.below k).length
  lighter : ∑ k ∈ T, h.weightAt k + (h.nextId - g.nextId) < ∑ k ∈ T, g.weightAt k

namespace Reshapes

variable {g h : Circuit} {T : Finset Nat} {k : Nat} {label : Gate}

/-- A node of the changed circuit is an old one of the same shape, one of those that are touched,
    or new. -/
theorem cases (hr : Reshapes g h T) (hk : h.label? k = some label) :
    (k ∉ T ∧ g.label? k = some label ∧ (h.above k).length = (g.above k).length ∧
        (h.below k).length = (g.below k).length) ∨
      k ∈ T ∨ g.nextId ≤ k := by
  by_cases hT : k ∈ T
  · exact .inr (.inl hT)
  · by_cases hold : k < g.nextId
    · have hlabel := hr.label_eq k hold hT
      rw [hk] at hlabel
      have hlen := hr.length_eq k (Diagram.contains_iff_label?.2 ⟨label, hlabel.symm⟩) hT
      exact .inl ⟨hT, hlabel.symm, hlen⟩
    · exact .inr (.inr (Nat.le_of_not_lt hold))

/-- Without new ids there are no new nodes. -/
theorem not_fresh (hr : Reshapes g h T) (hnext : h.nextId = g.nextId) (hk : g.nextId ≤ k)
    (hl : h.label? k = some label) : False := by
  have := hr.idsBelow k (Diagram.contains_iff_label?.2 ⟨label, hl⟩)
  omega

theorem not_terminal (hg : g.Lax) (hk : g.nextId ≤ k) : k ∉ g.inputs ∧ k ∉ g.outputs := by
  have hc := hg.idsBelow.not_contains hk
  constructor
  · intro hin
    rw [hg.contains_of_mem_inputs hin] at hc
    cases hc
  · intro hout
    rw [hg.contains_of_mem_outputs hout] at hc
    cases hc

theorem lax (hr : Reshapes g h T) (hg : g.Lax) : h.Lax where
  coherent := hr.coherent
  idsBelow := hr.idsBelow
  nodup_inputs := hg.nodup_inputs.sublist hr.inputs_sublist
  nodup_outputs := hr.outputs_eq ▸ hg.nodup_outputs
  input i hi := by
    obtain ⟨hin, hc⟩ := (hr.mem_inputs i).1 hi
    obtain ⟨-, habove, hbelow⟩ := hg.input i hin
    obtain ⟨label, hl⟩ := Diagram.contains_iff_label?.1 hc
    rcases hr.cases hl with ⟨-, -, hlen, hlen'⟩ | hT | hnew
    · rw [habove, List.length_nil, List.length_eq_zero_iff] at hlen
      exact ⟨hc, hlen, hlen' ▸ hbelow⟩
    · obtain ⟨hlen, ⟨-, hnil⟩ | ⟨-, -, hnot⟩⟩ := hr.touched i hT label hl
      · exact ⟨hc, hnil, hlen ▸ hbelow⟩
      · exact absurd hin hnot
    · exact absurd hin (not_terminal hg hnew).1
  output o ho := by
    rw [hr.outputs_eq] at ho
    obtain ⟨hc, hbelow, habove⟩ := hg.output o ho
    -- outputs are never touched
    have hT : o ∉ T := fun hT => (hr.touched_old o hT).2 ho
    obtain ⟨hlen, hlen'⟩ := hr.length_eq o hc hT
    rw [hbelow, List.length_nil, List.length_eq_zero_iff] at hlen'
    refine ⟨?_, hlen', hlen.trans habove⟩
    rw [Diagram.contains_iff_label?, hr.label_eq o (hg.idsBelow o hc) hT]
    exact Diagram.contains_iff_label?.1 hc
  acyclic := hr.acyclic
  gate k label hl hin hout := by
    have hin' : k ∉ g.inputs := fun hmem =>
      hin ((hr.mem_inputs k).2 ⟨hmem, Diagram.contains_iff_label?.2 ⟨label, hl⟩⟩)
    rw [hr.outputs_eq] at hout
    rcases hr.cases hl with ⟨-, hlg, hlen, hlen'⟩ | hT | hnew
    · rw [hlen, hlen']
      exact hg.gate k label hlg hin' hout
    · obtain ⟨hlen, ⟨hv, -⟩ | ⟨hv, hlg, -⟩⟩ := hr.touched k hT label hl
      · cases label <;> simp [Gate.value?] at hv
        trivial
      · have hallow := hg.gate k label hlg hin' hout
        rw [hlen]
        cases label <;> simp [Gate.isVariadic] at hv <;> exact hallow
    · exact (hr.fresh k hnew label hl).allows

theorem tight (hr : Reshapes g h T) (hg : g.Lax) (ht : g.Tight) : h.Tight := by
  intro k label hl hout hres
  rw [hr.outputs_eq] at hout
  have hmem : k ∈ h.inputs → k ∈ g.inputs := fun hin => ((hr.mem_inputs k).1 hin).1
  rw [← List.length_pos_iff]
  rcases hr.cases hl with ⟨-, hlg, -, hlen⟩ | hT | hnew
  · rw [hlen, List.length_pos_iff]
    exact ht k label hlg hout (hres.imp_left hmem)
  · obtain ⟨hlen, hcase⟩ := hr.touched k hT label hl
    rw [hlen, List.length_pos_iff]
    rcases hcase with ⟨hv, -⟩ | ⟨-, hlg, -⟩
    · have hin : k ∈ g.inputs := by
        refine hmem (hres.resolve_right ?_)
        cases label <;> simp_all [Gate.value?, Gate.hasResult]
      obtain ⟨label', hl'⟩ := Diagram.contains_iff_label?.1 (hg.contains_of_mem_inputs hin)
      exact ht k label' hl' hout (.inl hin)
    · exact ht k label hlg hout (hres.imp_left hmem)
  · have hres' : label.hasResult = true := by
      refine hres.resolve_left fun hin => (not_terminal hg hnew).1 (hmem hin)
    exact (hr.fresh k hnew label hl).outs_pos hres'

theorem grounded (hr : Reshapes g h T) (hg : g.Grounded) : h.Grounded := by
  intro k v hl hout
  rw [hr.outputs_eq] at hout
  rcases hr.cases hl with ⟨-, hlg, hlen, -⟩ | hT | hnew
  · rw [hg k v hlg hout, List.length_nil, List.length_eq_zero_iff] at hlen
    exact hlen
  · obtain ⟨-, ⟨-, hnil⟩ | ⟨hv, -⟩⟩ := hr.touched k hT _ hl
    · exact hnil
    · cases hv
  · exact List.length_eq_zero_iff.1 (hr.fresh k hnew _ hl).ins_eq_zero

theorem plainInputs (hr : Reshapes g h T) (hg : g.Lax) (hp : g.PlainInputs) :
    h.PlainInputs := by
  intro i hi label hl
  have hin := ((hr.mem_inputs i).1 hi).1
  rcases hr.cases hl with ⟨-, hlg, -⟩ | hT | hnew
  · exact hp i hin label hlg
  · obtain ⟨-, ⟨hv, -⟩ | ⟨-, -, hnot⟩⟩ := hr.touched i hT label hl
    · cases label <;> simp [Gate.value?] at hv
      rfl
    · exact absurd hin hnot
  · exact absurd hin (not_terminal hg hnew).1

/-- An input that stays keeps its label. -/
theorem label_input (hr : Reshapes g h T) (hg : g.Lax) (hp : g.PlainInputs) (hi : k ∈ h.inputs) :
    h.label? k = g.label? k := by
  have hin := ((hr.mem_inputs k).1 hi).1
  apply hr.label_eq k (hg.idsBelow k (hg.contains_of_mem_inputs hin))
  intro hT
  obtain ⟨label, hl, hvariadic⟩ := hr.touched_input k hT hi
  rw [hp k hin label hl] at hvariadic
  cases hvariadic

theorem weightAt_fresh (hr : Reshapes g h T) (hk : g.nextId ≤ k) : h.weightAt k ≤ 1 := by
  unfold weightAt
  cases hl : h.label? k with
  | none => exact Nat.zero_le 1
  | some label =>
    show label.weight (h.above k).length (h.below k).length ≤ 1
    exact (hr.fresh k hk label hl).weight_le

theorem weightAt_eq (hr : Reshapes g h T) (hk : k < g.nextId) (hT : k ∉ T) :
    h.weightAt k = g.weightAt k := by
  unfold weightAt
  rw [hr.label_eq k hk hT]
  cases hl : g.label? k with
  | none => rfl
  | some label =>
    obtain ⟨hlen, hlen'⟩ := hr.length_eq k (Diagram.contains_iff_label?.2 ⟨label, hl⟩) hT
    rw [hlen, hlen']

/-- **The potential gets smaller.** -/
theorem potential_lt (hr : Reshapes g h T) : h.potential < g.potential :=
  sum_range_lt 1 hr.nextId_le (fun k hk => (hr.touched_old k hk).1)
    (fun _ hk hT => Nat.le_of_eq (hr.weightAt_eq hk hT)) (fun _ hk => hr.weightAt_fresh hk)
    (by rw [Nat.mul_one]; exact hr.lighter)

end Reshapes

end Circuit

end Wiring
