import Wiring.Proofs.Diagram.Raising
import Wiring.Proofs.Words.Degrees

/-!
# Renumbering within words

The ids of a diagram are raised as they are if words hold the sum of the distance and of the span of
the diagram, which is above all ids that it refers to and not below the next one to be given out. To
be clear of another diagram it need not be raised further than the span of that one.

## Main definitions

- `Diagram.references` — the ids that a diagram refers to
- `Diagram.span` — a number above all of them, and not below the next id

## Main statements

- `Diagram.shift_eq`, `Diagram.apartFrom_eq` — renumbering with words that hold the span afterwards
- `Diagram.SelfContained.span_apartFrom_le` — the span of a diagram that has been raised clear of
  another
-/

namespace Wiring

/-- The neighbours of a tally are raised as they are, if words hold their ids afterwards. -/
theorem Tally.renumber_eq [Words] {t : Tally} {d : Nat}
    (h : ∀ k ∈ t.keys, Words.wrap (k + d) = k + d) :
    t.renumber d = letI := Unlimited.words; t.renumber d := by
  unfold Tally.renumber
  refine congrArg IdMap.ofList (List.map_congr_left fun e he => ?_)
  rw [h e.1 (List.mem_map_of_mem he)]
  rfl

namespace Diagram

variable {α : Type} {f g h : Diagram α} {b d k : Nat}

/-! ## The span of a diagram -/

/-- The ids that a diagram refers to: those of its nodes, by which they are stored and which they go
    by, of their neighbours and of terminals. -/
def references (g : Diagram α) : List Nat :=
  g.ids ++ (g.nodes.values.flatMap fun n => n.id :: (n.parents.keys ++ n.children.keys)) ++
    (g.inputs ++ g.outputs)

/-- **The span of a diagram**: no id that it refers to is as large, and the next one is not
    larger. -/
def span (g : Diagram α) : Nat := g.references.foldr (fun k b => max (k + 1) b) g.nextId

theorem span_le_iff : g.span ≤ b ↔ g.nextId ≤ b ∧ ∀ k ∈ g.references, k < b := by
  unfold span
  induction g.references with
  | nil => simp
  | cons k l ih =>
    rw [List.foldr_cons, Nat.max_le, ih, List.forall_mem_cons]
    exact and_left_comm

theorem nextId_le_span (g : Diagram α) : g.nextId ≤ g.span := (span_le_iff.1 (Nat.le_refl _)).1

theorem lt_span (hk : k ∈ g.references) : k < g.span := (span_le_iff.1 (Nat.le_refl _)).2 k hk

theorem mem_references_of_contains (hk : g.contains k = true) : k ∈ g.references :=
  List.mem_append_left _ (List.mem_append_left _ (mem_ids.2 hk))

theorem mem_references_of_node {n : Node α} (hn : n ∈ g.nodes.values)
    (hk : k = n.id ∨ k ∈ n.parents.keys ∨ k ∈ n.children.keys) : k ∈ g.references := by
  refine List.mem_append_left _ (List.mem_append_right _ (List.mem_flatMap.2 ⟨n, hn, ?_⟩))
  rwa [List.mem_cons, List.mem_append]

theorem mem_references_of_terminal (hk : k ∈ g.inputs ∨ k ∈ g.outputs) : k ∈ g.references :=
  List.mem_append_right _ (List.mem_append.2 hk)

theorem mem_references_iff : k ∈ g.references ↔ g.contains k = true ∨
    (∃ n ∈ g.nodes.values, k = n.id ∨ k ∈ n.parents.keys ∨ k ∈ n.children.keys) ∨
    k ∈ g.inputs ∨ k ∈ g.outputs := by
  simp only [references, List.mem_append, List.mem_flatMap, List.mem_cons, mem_ids, or_assoc]

/-- A diagram without one of its nodes refers to nothing else. -/
theorem references_removeNode_subset (g : Diagram α) (i : Nat) :
    (g.removeNode i).references ⊆ g.references := by
  have herase (t : Tally) : (t.erase i).keys ⊆ t.keys := fun j hj => by
    rw [IdMap.mem_keys_iff, IdMap.contains_iff] at hj ⊢
    obtain ⟨m, hm⟩ := hj
    rw [IdMap.get?_erase] at hm
    split at hm
    · cases hm
    · exact ⟨m, hm⟩
  have hforget (gone n : Node α) (j : Nat) : (forget i gone j n).parents.keys ⊆ n.parents.keys ∧
      (forget i gone j n).children.keys ⊆ n.children.keys := by
    rw [forget]
    constructor <;> dsimp only <;> split <;> first
      | exact herase _
      | exact List.Subset.refl _
  intro k hk
  rw [mem_references_iff] at hk ⊢
  -- a reference is the id of a node, stands in a node that was there before, or is a terminal
  rcases hk with hk | ⟨n, hn, hk⟩ | hk
  · exact .inl (contains_removeNode_iff.1 hk).1
  · obtain ⟨j, hj⟩ := IdMap.mem_values_iff.1 hn
    have hj : (g.removeNode i).node? j = some n := hj
    rw [node?_removeNode] at hj
    split at hj
    · cases hj
    · cases hi : g.node? i with
      | none =>
        rw [hi] at hj
        exact .inr (.inl ⟨n, IdMap.mem_values_iff.2 ⟨j, hj⟩, hk⟩)
      | some gone =>
        rw [hi] at hj
        obtain ⟨old, hold, rfl⟩ := Option.map_eq_some_iff.1 hj
        exact .inr (.inl ⟨old, IdMap.mem_values_iff.2 ⟨j, hold⟩,
          hk.imp_right (Or.imp (@(hforget gone old j).1 k) (@(hforget gone old j).2 k))⟩)
  · rw [inputs_removeNode_eq, outputs_removeNode_eq] at hk
    refine .inr (.inr (hk.imp (fun hk => ?_) fun hk => ?_)) <;> split at hk <;> first
      | exact (List.mem_filter.1 hk).1
      | exact hk

theorem span_removeNodes_le (g : Diagram α) (ids : List Nat) :
    (g.removeNodes ids).span ≤ g.span := by
  induction ids generalizing g with
  | nil => exact Nat.le_refl _
  | cons i ids ih =>
    refine (ih (g.removeNode i)).trans (span_le_iff.2 ⟨?_, fun k hk => ?_⟩)
    · rw [nextId_removeNode]
      exact nextId_le_span g
    · exact lt_span (references_removeNode_subset g i hk)

/-- **A diagram that refers to its nodes only.** -/
structure SelfContained (g : Diagram α) : Prop where
  coherent : g.Coherent
  inputs : ∀ i ∈ g.inputs, g.contains i = true
  outputs : ∀ o ∈ g.outputs, g.contains o = true

theorem SelfContained.contains_of_mem_references (hg : g.SelfContained) (hk : k ∈ g.references) :
    g.contains k = true := by
  rcases List.mem_append.1 hk with hk | hk
  · rcases List.mem_append.1 hk with hk | hk
    · exact mem_ids.1 hk
    · obtain ⟨n, hn, hk⟩ := List.mem_flatMap.1 hk
      obtain ⟨j, hj⟩ := IdMap.mem_values_iff.1 hn
      obtain ⟨hparents, hchildren⟩ := hg.coherent.positive j n hj
      rcases List.mem_cons.1 hk with rfl | hk
      · rw [hg.coherent.id_eq j n hj]
        exact contains_iff.2 ⟨n, hj⟩
      · rcases List.mem_append.1 hk with hk | hk
        · rw [hparents.mem_keys, ← above_of_node? hj] at hk
          exact hg.coherent.contains_of_mem_above hk
        · rw [hchildren.mem_keys, ← below_of_node? hj] at hk
          exact hg.coherent.contains_of_mem_below hk
  · rcases List.mem_append.1 hk with hk | hk
    · exact hg.inputs k hk
    · exact hg.outputs k hk

theorem SelfContained.span_le_iff (hg : g.SelfContained) :
    g.span ≤ b ↔ g.nextId ≤ b ∧ ∀ k, g.contains k = true → k < b :=
  Diagram.span_le_iff.trans <| and_congr_right fun _ =>
    ⟨fun h k hk => h k (mem_references_of_contains hk),
      fun h k hk => h k (hg.contains_of_mem_references hk)⟩

/-! ## Raising ids -/

theorem SelfContained.shift (hg : g.SelfContained) (d : Nat) :
    (letI _ := Unlimited.words; g.shift d).SelfContained where
  coherent := hg.coherent.shift d
  inputs i hi := by
    rw [inputs_shift] at hi
    obtain ⟨j, hj, rfl⟩ := List.mem_map.1 hi
    rw [contains_shift hg.coherent.id_eq]
    exact hg.inputs j hj
  outputs o ho := by
    rw [outputs_shift] at ho
    obtain ⟨j, hj, rfl⟩ := List.mem_map.1 ho
    rw [contains_shift hg.coherent.id_eq]
    exact hg.outputs j hj

theorem SelfContained.span_shift_le (hg : g.SelfContained) (d : Nat) :
    (letI _ := Unlimited.words; g.shift d).span ≤ g.span + d := by
  rw [(hg.shift d).span_le_iff, nextId_shift]
  refine ⟨Nat.add_le_add_right (nextId_le_span g) d, fun k hk => ?_⟩
  obtain ⟨j, rfl, hj⟩ := exists_of_contains_shift hg.coherent.id_eq hk
  exact Nat.add_lt_add_right (lt_span (mem_references_of_contains hj)) d

/-! ## Within words -/

section Words

variable [Words]

/-- **Ids are raised as they are**, if words hold the span afterwards. -/
theorem shift_eq (h : Words.Holds (g.span + d)) :
    g.shift d = letI := Unlimited.words; g.shift d := by
  have hid {k : Nat} (hk : k ∈ g.references) : Words.wrap (k + d) = k + d :=
    Words.wrap_of_holds (h.mono (Nat.add_le_add_right (Nat.le_of_lt (lt_span hk)) d))
  have hnode (n : Node α) (hn : n ∈ g.nodes.values) :
      n.shift d = letI := Unlimited.words; n.shift d := by
    unfold Node.shift
    rw [Tally.renumber_eq fun k hk => hid (mem_references_of_node hn (.inr (.inl hk))),
      Tally.renumber_eq fun k hk => hid (mem_references_of_node hn (.inr (.inr hk))),
      hid (mem_references_of_node hn (.inl rfl))]
    rfl
  unfold shift
  rw [List.map_congr_left fun n hn => by rw [hnode n hn],
    List.map_congr_left fun i hi => hid (mem_references_of_terminal (.inl hi)),
    List.map_congr_left fun o ho => hid (mem_references_of_terminal (.inr ho)),
    Words.wrap_of_holds (h.mono (Nat.add_le_add_right (nextId_le_span g) d))]
  rfl

/-- A diagram is not raised further than the span of the one that it is to be clear of. -/
theorem clearance_spec (g h : Diagram α) (hh : Words.Holds h.span) :
    (g.clearance h = letI := Unlimited.words; g.clearance h) ∧
      (letI _ := Unlimited.words; g.clearance h) ≤ h.span := by
  unfold clearance
  cases hlow : g.minId? with
  | none => exact ⟨rfl, Nat.zero_le _⟩
  | some low =>
    cases hhigh : h.maxId? with
    | none => exact ⟨rfl, Nat.zero_le _⟩
    | some high =>
      have hhighIn : high ∈ h.references :=
        mem_references_of_contains (mem_ids.1 (List.mem_of_getLast? hhigh))
      have hle : max high (h.nextId - 1) + 1 ≤ h.span := by
        have := lt_span hhighIn
        have := nextId_le_span h
        omega
      dsimp only
      rw [Words.wrap_of_holds (hh.mono hle), Words.wrap_unlimited]
      exact ⟨rfl, by omega⟩

theorem clearance_eq (hh : Words.Holds h.span) :
    g.clearance h = letI := Unlimited.words; g.clearance h := (clearance_spec g h hh).1

omit [Words] in
theorem clearance_le_span (g h : Diagram α) :
    (letI _ := Unlimited.words; g.clearance h) ≤ h.span :=
  (@clearance_spec _ Unlimited.words g h (Words.holds_unlimited _)).2

/-- **A diagram is raised clear of another** as it is, if words hold both spans together. -/
theorem apartFrom_eq (hspan : Words.Holds (g.span + h.span)) :
    g.apartFrom h = letI := Unlimited.words; g.apartFrom h := by
  unfold apartFrom
  rw [clearance_eq (hspan.mono (Nat.le_add_left _ _)),
    shift_eq (hspan.mono (Nat.add_le_add_left (clearance_le_span g h) _))]

end Words

theorem SelfContained.span_apartFrom_le (hg : g.SelfContained) (h : Diagram α) :
    (letI _ := Unlimited.words; g.apartFrom h).span ≤ g.span + h.span :=
  (hg.span_shift_le _).trans (Nat.add_le_add_left (clearance_le_span g h) _)

/-! ## Degrees -/

theorem DegreesHold.shift [Words] (h : g.DegreesHold)
    (hg : ∀ k n, g.node? k = some n → n.id = k) (d : Nat) :
    (letI _ := Unlimited.words; g.shift d : Diagram α).DegreesHold := by
  intro k hk
  obtain ⟨j, rfl, -⟩ := exists_of_contains_shift hg (mem_ids.1 hk)
  rw [above_shift hg, below_shift hg, List.length_map, List.length_map]
  exact h.holds j

end Diagram

end Wiring
