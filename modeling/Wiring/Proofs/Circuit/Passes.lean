import Wiring.Proofs.Circuit.Termination

/-!
# Passes and normal forms

On a sound circuit nothing in the whole process of evaluation is refused. A pass that reports a
change lowers the potential, and a pass that reports no change has found nothing to do.

## Main definitions

- `Circuit.IsNormal` — no rule fits at a source or an empty gate, and there is no dead end
- `Circuit.RunsTo` — an edit that is not refused and reduces to a tight circuit

## Main statements

- `Circuit.Sound.runsTo_fire`, `Circuit.Sound.runsTo_prune`, `Circuit.Sound.runsTo_pass`,
  `Circuit.Sound.runsTo_normalize` — rules, pruning, passes and repeated passes, which end in a
  normal circuit unless they are limited
-/

namespace Wiring

open scoped Unlimited

namespace Circuit

variable {β : Type} {g h : Circuit} {k : Nat}

/-- No source can be folded, no variadic gate is empty, and no node is a dead end. -/
structure IsNormal (g : Circuit) : Prop where
  source : ∀ k, ¬Rule.Fits g k .source
  neutral : ∀ k, ¬IsEmpty g k
  deadEnd : ∀ k, ¬IsDeadEnd g k

/-- The edit answers and leaves a tight circuit that `g` reduces to; if it reports no change then
    it has made none, and otherwise the potential is smaller. -/
def RunsTo (e : Edit Gate β) (changed : β → Bool) (g : Circuit) (answer : β) (h : Circuit) : Prop :=
  e.runOn g = (.ok answer, h) ∧ Reduces g h ∧ Tight h ∧
    (changed answer = false → h = g) ∧ (changed answer = true → h.potential < g.potential)

theorem Sound.of_reduces (hr : Reduces g h) (ht : Tight h) : Sound h :=
  sound_iff.2 ⟨hr.lax, ht⟩

/-! ## Rules -/

/-- **A rule on a sound circuit.** -/
theorem Sound.runsTo_fire (hg : g.Sound) (rule : Rule) (k : Nat) :
    ∃ fired h, RunsTo (rule.fire k) id g fired h ∧ (fired = true ↔ rule.Fits g k) := by
  rcases hg.lax.fire_spec rule k with ⟨hfits, h, hrun, hfolds⟩ | ⟨hfits, hrun⟩
  · obtain ⟨hr, htight, hlt⟩ := reduces_of_transGen hfolds hg.lax
    exact ⟨true, h, ⟨hrun, hr, htight hg.tight, nofun, fun _ => hlt⟩,
      iff_of_true rfl hfits⟩
  · exact ⟨false, g, ⟨hrun, .refl hg.lax, hg.tight, fun _ => rfl, nofun⟩,
      iff_of_false Bool.false_ne_true hfits⟩

/-- A rule at one node after the other; if it fits nowhere then it does not fit at any of them. -/
theorem Sound.runsTo_fireAll (hg : g.Sound) (rule : Rule) (ids : List Nat) :
    ∃ fired h, RunsTo (fireAll rule ids) id g fired h ∧
      (fired = false → ∀ k ∈ ids, ¬rule.Fits g k) := by
  induction ids generalizing g with
  | nil =>
    exact ⟨false, g, ⟨rfl, .refl hg.lax, hg.tight, fun _ => rfl, nofun⟩, by simp⟩
  | cons k ids ih =>
    obtain ⟨fired, h, ⟨hrun, hr, ht, hsame, hlt⟩, hfits⟩ := hg.runsTo_fire rule k
    obtain ⟨more, h', ⟨hrun', hr', ht', hsame', hlt'⟩, hmore⟩ := ih (.of_reduces hr ht)
    refine ⟨fired || more, h', ⟨?_, hr.trans hr', ht', ?_, ?_⟩, ?_⟩
    · rw [fireAll, Edit.runOn_bind_ok hrun, Edit.runOn_bind_ok hrun']
      rfl
    · intro hnone
      obtain ⟨hfired, hrest⟩ := Bool.or_eq_false_iff.1 hnone
      rw [hsame' hrest, hsame hfired]
    · intro hsome
      rcases Bool.or_eq_true_iff.1 hsome with hfired | hrest
      · exact hr'.potential_le.trans_lt (hlt hfired)
      · exact (hlt' hrest).trans_le hr.potential_le
    · intro hnone
      obtain ⟨hfired, hrest⟩ := Bool.or_eq_false_iff.1 hnone
      rw [hsame hfired] at hmore
      intro j hj
      rcases List.mem_cons.1 hj with rfl | hj
      · rw [← hfits, hfired]
        exact Bool.false_ne_true
      · exact hmore hrest j hj

/-! ## Pruning -/

/-- **Pruning a sound circuit.** -/
theorem Sound.runsTo_prune (hg : g.Sound) :
    ∃ count h, RunsTo Edit.prune (· != 0) g count h ∧ (∀ k, ¬IsDeadEnd h k) := by
  obtain ⟨hr, hnone, hsame, hlt⟩ := hg.lax.prune_spec
  refine ⟨g.prune.2, g.prune.1, ⟨rfl, hr, tight_of_no_deadEnds hr.lax hnone, ?_, ?_⟩, ?_⟩
  · intro h
    exact hsame (by simpa using h)
  · intro h
    exact hlt (by simpa using h)
  · intro k hk
    have := (mem_deadEnds hr.lax.coherent).2 hk
    rw [hnone] at this
    cases this

/-! ## Passes -/

theorem mem_sources_of_fits (h : Rule.Fits g k .source) : k ∈ sources g := by
  have hsource : isSource g k = true := by
    rw [isSource_iff]
    rcases h with ⟨v, hl, habove, -⟩ | ⟨v, c, label, hf, -, -⟩
    · exact ⟨v, hl, habove⟩
    · exact ⟨v, hf.label, hf.above⟩
  obtain ⟨n, hn, hnode⟩ := (Option.any_eq_true _ _).1 hsource
  have hget : g.nodes.get? k = some n := hn
  rw [sources, IdMap.mem_keys_iff, IdMap.contains_iff, IdMap.get?_filter, hget]
  exact ⟨n, by rw [Option.filter_some, if_pos hnode]⟩

theorem mem_emptyGates_of_isEmpty (hg : g.Coherent) (h : IsEmpty g k) : k ∈ emptyGates g := by
  obtain ⟨v, label, hl, hv, habove⟩ := h
  obtain ⟨n, hn⟩ := Diagram.contains_iff.1 (Diagram.contains_iff_label?.2 ⟨label, hl⟩)
  rw [label?_of_node? hn, Option.some.injEq] at hl
  rw [Diagram.above_eq_nil_iff hn] at habove
  refine List.mem_map.2 ⟨n, List.mem_filter.2 ⟨IdMap.mem_values_iff.2 ⟨k, hn⟩, ?_⟩,
    hg.id_eq k n hn⟩
  rw [Bool.and_eq_true, beq_iff_eq, hl]
  exact ⟨habove, Gate.isVariadic_of_neutral? hv⟩

/-- **A pass over a sound circuit.** If it reports no change then the circuit is normal. -/
theorem Sound.runsTo_pass (hg : g.Sound) :
    ∃ changed h, RunsTo pass id g changed h ∧ (changed = false → IsNormal g) := by
  obtain ⟨folded, h₁, ⟨hrun₁, hr₁, ht₁, hsame₁, hlt₁⟩, hnone₁⟩ :=
    hg.runsTo_fireAll .source (sources g)
  obtain ⟨settled, h₂, ⟨hrun₂, hr₂, ht₂, hsame₂, hlt₂⟩, hnone₂⟩ :=
    (Sound.of_reduces hr₁ ht₁).runsTo_fireAll .neutral (emptyGates g)
  obtain ⟨removed, h₃, ⟨hrun₃, hr₃, ht₃, hsame₃, hlt₃⟩, hnone₃⟩ :=
    (Sound.of_reduces hr₂ ht₂).runsTo_prune
  have hr := (hr₁.trans hr₂).trans hr₃
  refine ⟨folded || settled || removed != 0, h₃, ⟨?_, hr, ht₃, ?_, ?_⟩, ?_⟩
  · rw [pass, runOn_get_bind, Edit.runOn_bind_ok hrun₁, Edit.runOn_bind_ok hrun₂,
       Edit.runOn_bind_ok hrun₃]
    rfl
  · intro hnone
    obtain ⟨hfirst, hremoved⟩ := Bool.or_eq_false_iff.1 hnone
    obtain ⟨hfolded, hsettled⟩ := Bool.or_eq_false_iff.1 hfirst
    rw [hsame₃ hremoved, hsame₂ hsettled, hsame₁ hfolded]
  · intro hsome
    rcases Bool.or_eq_true_iff.1 hsome with hfirst | hremoved
    · rcases Bool.or_eq_true_iff.1 hfirst with hfolded | hsettled
      · exact (hr₂.trans hr₃).potential_le.trans_lt (hlt₁ hfolded)
      · exact (hr₃.potential_le.trans_lt (hlt₂ hsettled)).trans_le hr₁.potential_le
    · exact (hlt₃ hremoved).trans_le (hr₁.trans hr₂).potential_le
  · intro hnone
    obtain ⟨hfirst, hremoved⟩ := Bool.or_eq_false_iff.1 hnone
    obtain ⟨hfolded, hsettled⟩ := Bool.or_eq_false_iff.1 hfirst
    -- nothing has changed, so what every part of the pass has looked at is `g` itself
    have hg₁ := hsame₁ hfolded
    rw [hg₁] at hnone₂ hsame₂
    have hg₃ := (hsame₃ hremoved).trans (hsame₂ hsettled)
    rw [hg₃] at hnone₃
    exact
      { source := fun k hfits => hnone₁ hfolded k (mem_sources_of_fits hfits) hfits
        neutral := fun k hempty =>
          hnone₂ hsettled k (mem_emptyGates_of_isEmpty hg.lax.coherent hempty) hempty
        deadEnd := hnone₃ }

/-! ## Repeated passes -/

/-- Passes may be repeated, and more of them than the potential allows end in a normal circuit. -/
theorem Sound.runsTo_normalizeUpTo (hg : g.Sound) (n : Nat) :
    ∃ passes h, (normalizeUpTo n).runOn g = (.ok passes, h) ∧ Reduces g h ∧ Tight h ∧
      (g.potential < n → IsNormal h) := by
  induction n generalizing g with
  | zero => exact ⟨0, g, rfl, .refl hg.lax, hg.tight, nofun⟩
  | succ n ih =>
    -- a pass that changes something lowers the potential, for which one pass less is then enough
    obtain ⟨changed, h, ⟨hrun, hr, ht, hsame, hlt⟩, hnormal⟩ := hg.runsTo_pass
    rw [normalizeUpTo, Edit.runOn_bind_ok hrun]
    cases changed with
    | false =>
      refine ⟨0, h, rfl, hr, ht, ?_⟩
      intro _
      rw [hsame rfl]
      exact hnormal rfl
    | true =>
      obtain ⟨passes, h', hrun', hr', ht', hnormal'⟩ := ih (.of_reduces hr ht)
      refine ⟨passes + 1, h', ?_, hr.trans hr', ht', fun hbound => hnormal' ?_⟩
      · rw [if_pos rfl, Edit.runOn_bind_ok hrun']
        rfl
      · have := hlt rfl
        omega

/-- **Normalizing a sound circuit** within any limit. -/
theorem Sound.runsTo_normalize (hg : g.Sound) (limit : Option Nat) :
    ∃ passes h, (normalize limit).runOn g = (.ok passes, h) ∧ Reduces g h ∧ Tight h ∧
      (limit = none → IsNormal h) := by
  cases limit with
  | some n =>
    obtain ⟨passes, h, hrun, hr, ht, -⟩ := hg.runsTo_normalizeUpTo n
    exact ⟨passes, h, hrun, hr, ht, nofun⟩
  | none =>
    -- more passes than the potential allows, and enough not to matter
    obtain ⟨n, hn⟩ := exists_normalizeUpTo hg.lax.coherent.stored
    obtain ⟨passes, h, hrun, hr, ht, hnormal⟩ :=
      hg.runsTo_normalizeUpTo (n + g.potential + 1)
    rw [hn _ (by omega)] at hrun
    exact ⟨passes, h, hrun, hr, ht, fun _ => hnormal (by omega)⟩

end Circuit

end Wiring
