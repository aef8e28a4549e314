import Wiring.Proofs.Circuit.Meaning
import Wiring.Proofs.Diagram.Rewiring

/-!
# Folds as a relation

The rules of folding are edits. What they do to a circuit is said here once, as a relation between
the circuit before and the circuit after, with one constructor for each way in which a constant can
go. The theory of folding is then about this relation alone.

## Main definitions

- `Circuit.Feeds` — a source with a single use
- `Circuit.Folds` — one fold

## Main statements

- `Circuit.Feeds.above_eq` — a gate with a single argument has no other than the source
-/

namespace Wiring

open scoped Unlimited

namespace Circuit

/-- The source `s` of value `v` has one edge out, which leads to `c`, and `c` is no output. -/
structure Feeds (g : Circuit) (s : Nat) (v : Bool) (c : Nat) : Prop where
  label : g.label? s = some (.const v)
  above : g.above s = []
  below : g.below s = [c]
  notOutput : c ∉ g.outputs

/-- **One fold.** The lists `ps` and `ts` name the neighbours that `c` is severed from, in any
    order. -/
inductive Folds : Circuit → Circuit → Prop where
  /-- The source settles a gate with a single argument. -/
  | resolve {g s v c label} (h : Feeds g s v c) (hc : g.label? c = some label)
      (hlabel : label = .copy ∨ label = .not) :
      Folds g ((g.relabel c (.const (label.truth [v]))).removeNode s)
  /-- The source makes no difference to a variadic gate. -/
  | drop {g s v c label} (h : Feeds g s v c) (hc : g.label? c = some label)
      (hv : label.neutral? = some v) :
      Folds g (g.removeNode s)
  /-- The source settles a variadic gate, and the other arguments go to copies without children. -/
  | absorb {g s v c label} (h : Feeds g s v c) (hc : g.label? c = some label)
      (hv : label.absorbing? = some v) (ps : List Nat)
      (hps : ∀ p, p ∈ ps ↔ p ∈ (g.removeNode s).above c) :
      Folds g (((g.removeNode s).divert .copy c ps).relabel c (.const v))
  /-- A true argument of an exclusive disjunction goes, and the results are negated. -/
  | negate {g s c} (h : Feeds g s true c) (hc : g.label? c = some .xor) (ts : List Nat)
      (hts : ∀ t, t ∈ ts ↔ t ∈ (g.removeNode s).below c) :
      Folds g ((g.removeNode s).interpose .not c ts)
  /-- A variadic gate without arguments has its neutral value. -/
  | settle {g c v label} (hc : g.label? c = some label) (hv : label.neutral? = some v)
      (h : g.above c = []) :
      Folds g (g.relabel c (.const v))
  /-- A source with several uses becomes one source for each. -/
  | split {g s v} (hs : g.label? s = some (.const v)) (h : g.above s = [])
      (hmany : 1 < (g.below s).length) :
      Folds g ((g.removeNode s).feed (.const v) (g.below s))

variable {g : Circuit} {s c k : Nat} {v w : Bool} {label : Gate}

/-! ## Sources in a circuit -/

namespace Feeds

variable (hf : Feeds g s v c)
include hf

theorem mem_above (h : g.Coherent) : s ∈ g.above c := by
  rw [h.mem_above_iff, hf.below]
  exact List.mem_singleton_self c

/-- A source has no parents, so it does not feed itself. -/
theorem ne (h : g.Coherent) : s ≠ c := by
  rintro rfl
  have := hf.mem_above h
  rw [hf.above] at this
  cases this

theorem not_input (h : g.Lax) : c ∉ g.inputs :=
  h.not_mem_inputs (List.ne_nil_of_mem (hf.mem_above h.coherent))

theorem source_not_output (h : g.Lax) : s ∉ g.outputs :=
  h.not_mem_outputs (by rw [hf.below]; exact List.cons_ne_nil _ _)

theorem contains_source : g.contains s = true :=
  Diagram.contains_iff_label?.2 ⟨_, hf.label⟩

theorem contains_target (h : g.Coherent) : g.contains c = true :=
  Diagram.contains_of_mem_above (hf.mem_above h)

theorem allows (h : g.Lax) (hc : g.label? c = some label) :
    label.Allows (g.above c).length (g.below c).length :=
  h.gate c label hc (hf.not_input h) hf.notOutput

/-- If a gate has a single argument then that is the source. -/
theorem above_eq_of_length (h : g.Coherent) (hone : (g.above c).length = 1) :
    g.above c = [s] := by
  obtain ⟨p, hp⟩ := List.length_eq_one_iff.1 hone
  have := hf.mem_above h
  rw [hp, List.mem_singleton] at this
  rw [hp, this]

/-- A gate with a single argument has no other than the source. -/
theorem above_eq (h : g.Lax) (hc : g.label? c = some label)
    (hlabel : label = .copy ∨ label = .not) : g.above c = [s] := by
  refine hf.above_eq_of_length h.coherent ?_
  rcases hlabel with rfl | rfl
  · exact hf.allows h hc
  · exact (hf.allows h hc).1

/-! ### What is left when the source goes -/

theorem inputs_removeNode : (g.removeNode s).inputs = g.inputs.filter (· != s) :=
  Diagram.inputs_removeNode fun _ => hf.contains_source

theorem outputs_removeNode (h : g.Lax) : (g.removeNode s).outputs = g.outputs :=
  Diagram.outputs_removeNode (hf.source_not_output h)

variable (hg : g.Coherent)
include hg

theorem below_removeNode (hk : k ≠ s) : (g.removeNode s).below k = g.below k :=
  hg.below_removeNode_source hf.above hk

theorem above_removeNode (hk : k ≠ s) (hkc : k ≠ c) : (g.removeNode s).above k = g.above k := by
  refine hg.above_removeNode_of_not_mem hk ?_
  rw [hf.below, List.mem_singleton]
  exact hkc

theorem above_target_removeNode : (g.removeNode s).above c = (g.above c).filter (· != s) := by
  rw [hg.above_removeNode, if_neg (hf.ne hg).symm]

theorem label?_removeNode_target (hc : g.label? c = some label) :
    (g.removeNode s).label? c = some label := by
  rw [Diagram.label?_removeNode, if_neg (hf.ne hg).symm, hc]

theorem contains_removeNode_target : (g.removeNode s).contains c = true :=
  Diagram.contains_removeNode_iff.2 ⟨hf.contains_target hg, (hf.ne hg).symm⟩

theorem contains_divert_target {ps : List Nat} :
    ((g.removeNode s).divert label c ps).contains c = true :=
  Diagram.contains_divert (hf.contains_removeNode_target hg)

end Feeds

end Circuit

end Wiring
