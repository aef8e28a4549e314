import Wiring.Proofs.Diagram.Mutations

/-!
# Inputs that are outputs

An input has no edge in and an output none out, which keeps the two apart for as long as each has
its edge on the other side. Severing may take that edge away. A bare input and a bare output pass
the check for merging, as either of them could stay what it is, and become a node that is both. This
is the only call that does it: no other makes an output of an input, or an input of an output.

## Main definitions

- `Diagram.EndsApart` — no input is an output
- `Diagram.JoinsEnds`, `Diagram.Mutation.JoinsEnds` — a bare input is merged with a bare output
- `Diagram.ReachedApart` — the diagrams that come about without that

## Main statements

- `Diagram.endsApart_merge_iff` — what merging two nodes does
- `Diagram.Mutation.endsApart_apply_iff` — what one call does
- `Diagram.ends_apart_unless_joined` — what all of them do
-/

namespace Wiring

open scoped Unlimited

namespace Diagram

variable {α : Type} {f g h : Diagram α} {a b i o : Nat} {label : α} {ps cs : List Nat}

/-- **No node is both an input and an output.** -/
def EndsApart (g : Diagram α) : Prop := g.inputs.Disjoint g.outputs

/-- **Merging `a` and `b` would join a bare input and a bare output**: one of them is an input, the
    other an output, and both have lost their edges. -/
structure JoinsEnds (g : Diagram α) (a b : Nat) : Prop where
  ne : a ≠ b
  bare_left : g.above a = [] ∧ g.below a = []
  bare_right : g.above b = [] ∧ g.below b = []
  ends : (a ∈ g.inputs ∧ b ∈ g.outputs) ∨ (a ∈ g.outputs ∧ b ∈ g.inputs)

namespace EndsApart

/-- Terminals that go, or stay, are no others. -/
theorem of_subset (hg : g.EndsApart) (hin : h.inputs ⊆ g.inputs) (hout : h.outputs ⊆ g.outputs) :
    h.EndsApart := fun _ hi ho => hg (hin hi) (hout ho)

theorem of_same_terminals (hg : g.EndsApart) (hin : h.inputs = g.inputs)
    (hout : h.outputs = g.outputs) : h.EndsApart :=
  hg.of_subset (fun _ hi => hin ▸ hi) fun _ ho => hout ▸ ho

theorem pushInput (hg : g.EndsApart) (hi : i ∉ g.outputs) : (g.pushInput i).EndsApart := by
  intro k hk ho
  rcases List.mem_append.1 hk with hk | hk
  · exact hg hk ho
  · exact hi (List.mem_singleton.1 hk ▸ ho)

theorem pushOutput (hg : g.EndsApart) (ho : o ∉ g.inputs) : (g.pushOutput o).EndsApart := by
  intro k hi hk
  rcases List.mem_append.1 hk with hk | hk
  · exact hg hi hk
  · exact ho (List.mem_singleton.1 hk ▸ hi)

theorem removeNode (hg : g.EndsApart) (i : Nat) : (g.removeNode i).EndsApart :=
  hg.of_subset (fun _ hk => (mem_inputs_removeNode.1 hk).1)
    fun _ hk => (mem_outputs_removeNode.1 hk).1

theorem removeNodes (hg : g.EndsApart) (ids : List Nat) : (g.removeNodes ids).EndsApart := by
  induction ids generalizing g with
  | nil => exact hg
  | cons i ids ih => exact ih (hg.removeNode i)

theorem dropEdges (hg : g.EndsApart) (es : List (Nat × Nat)) : (g.dropEdges es).EndsApart := by
  induction es generalizing g with
  | nil => exact hg
  | cons e es ih => exact ih (hg.of_same_terminals inputs_dropEdge outputs_dropEdge)

theorem shift (hg : g.EndsApart) (d : Nat) : (g.shift d).EndsApart := by
  rw [EndsApart, inputs_shift, outputs_shift]
  exact List.disjoint_map (fun _ _ heq => Nat.add_right_cancel heq) hg

/-- Terminals of diagrams that share no node are apart. -/
theorem beside (hf : f.EndsApart) (hforderly : f.Orderly) (hg : g.EndsApart)
    (hgorderly : g.Orderly) : (f.beside g).EndsApart := by
  have hu := beside_beside (f := f) hgorderly.coherent.id_eq
  have hg' := hg.shift (g.clearance f)
  have hgorderly' := hgorderly.apartFrom f
  have hnot {k : Nat} (hk : f.contains k = true) : ¬(g.apartFrom f).contains k = true :=
    Bool.eq_false_iff.1 (hu.apart k hk)
  rw [EndsApart, hu.inputs, hu.outputs, List.disjoint_append_left, List.disjoint_append_right,
    List.disjoint_append_right]
  refine ⟨⟨hf, fun k hi ho => ?_⟩, fun k hi ho => ?_, hg'⟩
  · exact hnot (hforderly.input k hi).1 (hgorderly'.output k ho).1
  · exact hnot (hforderly.output k ho).1 (hgorderly'.input k hi).1

theorem besideAll (hf : f.EndsApart) (hforderly : f.Orderly) {gs : List (Diagram α)}
    (hgs : ∀ g ∈ gs, g.Orderly ∧ g.EndsApart) : (f.besideAll gs).EndsApart := by
  induction gs generalizing f with
  | nil => exact hf
  | cons g gs ih =>
    obtain ⟨hgorderly, hg⟩ := hgs g List.mem_cons_self
    exact ih (hf.beside hforderly hg hgorderly) (hforderly.beside hgorderly)
      fun h hh => hgs h (List.mem_cons_of_mem _ hh)

/-- The inputs of a glued diagram are nodes of the first, its outputs nodes of the second. -/
theorem glue (hf : f.Orderly) (hg : g.Orderly) (hcheck : f.checkGlue g = .ok ps) :
    (f.glue ps g).EndsApart := by
  have hw := hf.fitted.welds hg.fitted hcheck
  intro k hi ho
  rw [glue_eq, hw.inputs_weld] at hi
  have hleft := (hf.input k hi).1
  have hright := ((hg.apartFrom f).output k ho).1
  rw [hw.apart k hleft] at hright
  cases hright

end EndsApart

/-! ## Merging -/

/-- Bare ends pass the check. -/
theorem JoinsEnds.checkMerge (hends : g.JoinsEnds a b) (hg : g.Orderly) (hapart : g.EndsApart) :
    g.checkMerge a b = .ok () := by
  obtain ⟨hab, ⟨ha, ha'⟩, ⟨hb, hb'⟩, hends⟩ := hends
  have hcontains : g.contains a = true ∧ g.contains b = true := by
    rcases hends with ⟨hi, ho⟩ | ⟨ho, hi⟩
    · exact ⟨(hg.input a hi).1, (hg.output b ho).1⟩
    · exact ⟨(hg.output a ho).1, (hg.input b hi).1⟩
  have hin : ¬(a ∈ g.inputs ∧ b ∈ g.inputs) := by
    rintro ⟨hia, hib⟩
    rcases hends with ⟨-, ho⟩ | ⟨ho, -⟩
    · exact hapart hib ho
    · exact hapart hia ho
  have hout : ¬(a ∈ g.outputs ∧ b ∈ g.outputs) := by
    rintro ⟨hoa, hob⟩
    rcases hends with ⟨hi, -⟩ | ⟨-, hi⟩
    · exact hapart hi hoa
    · exact hapart hi hob
  rw [checkMerge_eq_ok_iff hab]
  exact ⟨hcontains.1, hcontains.2, ⟨fun _ => ⟨ha, hb, hin⟩, fun _ => by simp [ha', hb']⟩,
    fun _ => ⟨ha', hb', hout⟩, fun _ => by simp [ha, hb]⟩

/-- **Merging makes an input an output** exactly if it joins bare ends. -/
theorem endsApart_merge_iff (hapart : g.EndsApart) (hcheck : g.checkMerge a b = .ok ()) :
    (g.merge a b).EndsApart ↔ ¬g.JoinsEnds a b := by
  by_cases hab : a = b
  · rw [merge, if_pos hab]
    exact iff_of_true hapart fun hends => hends.ne hab
  obtain ⟨-, hb, hin, hout⟩ := keepsPorts_of_checkMerge hcheck hab
  rw [EndsApart, inputs_merge hab hb, outputs_merge hab hb]
  constructor
  · rintro hmerged ⟨-, -, -, ⟨hi, ho⟩ | ⟨ho, hi⟩⟩
    · refine @hmerged a (List.mem_map.2 ⟨a, hi, ?_⟩) (List.mem_map.2 ⟨b, ho, if_pos rfl⟩)
      exact retarget_of_ne hab
    · refine @hmerged a (List.mem_map.2 ⟨b, hi, if_pos rfl⟩) (List.mem_map.2 ⟨a, ho, ?_⟩)
      exact retarget_of_ne hab
  · intro hnot k hki hko
    obtain ⟨rfl, hi⟩ | ⟨hka, -, hi⟩ := of_mem_map_retarget hki
    · obtain ⟨-, ho⟩ | ⟨hka, -, -⟩ := of_mem_map_retarget hko
      · -- the check has found no edges into the two, for the input, and none out, for the output
        have hbare : (g.above k = [] ∧ g.below k = []) ∧ (g.above b = [] ∧ g.below b = []) :=
          ⟨⟨(hin hi).1, (hout ho).1⟩, (hin hi).2.1, (hout ho).2.1⟩
        refine hnot ⟨hab, hbare.1, hbare.2, ?_⟩
        rcases hi with hi | hi <;> rcases ho with ho | ho
        · exact absurd ho (hapart hi)
        · exact .inl ⟨hi, ho⟩
        · exact .inr ⟨ho, hi⟩
        · exact absurd ho (hapart hi)
      · exact hka rfl
    · obtain ⟨hka', -⟩ | ⟨-, -, ho⟩ := of_mem_map_retarget hko
      · exact hka hka'
      · exact hapart hi ho

theorem endsApart_mergeTakingLabel_iff (hb : g.contains b = true) :
    (g.mergeTakingLabel a b).EndsApart ↔ (g.merge a b).EndsApart := by
  obtain ⟨label, hlabel⟩ := contains_iff_label?.1 hb
  rw [mergeTakingLabel, hlabel]
  rfl

/-- A merge that is refused joins nothing. -/
theorem endsApart_runOn_merge_iff (hg : g.Orderly) (hapart : g.EndsApart)
    {change : Diagram α → Diagram α}
    (hchange : g.checkMerge a b = .ok () → ((change g).EndsApart ↔ (g.merge a b).EndsApart)) :
    ((Edit.ask (·.checkMerge a b) >>= fun _ => Edit.change change).runOn g).2.EndsApart ↔
      ¬g.JoinsEnds a b := by
  rw [Edit.runOn_ask_bind]
  cases hcheck : g.checkMerge a b with
  | ok _ => exact (hchange hcheck).trans (endsApart_merge_iff hapart hcheck)
  | error fault =>
    refine iff_of_true hapart fun hends => ?_
    rw [hends.checkMerge hg hapart] at hcheck
    cases hcheck

/-! ## One call -/

namespace Mutation

/-- **The call merges a bare input with a bare output.** -/
def JoinsEnds : Mutation α → Diagram α → Prop
  | merge a b, g | mergeTakingLabel a b, g => g.JoinsEnds a b
  | _, _ => False

/-- **What one call does**: it makes an input an output exactly if it joins bare ends. -/
theorem endsApart_apply_iff [Inhabited α] (m : Mutation α) (hg : g.Orderly)
    (hapart : g.EndsApart) (hm : ∀ h ∈ m.operands, h.Orderly ∧ h.EndsApart) :
    (m.apply g).EndsApart ↔ ¬m.JoinsEnds g := by
  have hask {β γ : Type} {question : Diagram α → Except Fault β} {e : β → Edit α γ}
      (hok : ∀ x, question g = .ok x → ((e x).runOn g).2.EndsApart) :
      ((Edit.ask question >>= e).runOn g).2.EndsApart :=
    Edit.leaves_ask_bind EndsApart hapart hok
  have hattach (label : α) (ps cs : List Nat) : (g.attach label ps cs).EndsApart :=
    hapart.of_same_terminals inputs_attach outputs_attach
  -- all calls but the two that merge keep the ends apart
  have hkeep {h : Diagram α} (hh : h.EndsApart) : h.EndsApart ↔ ¬False := iff_of_true hh not_false
  cases m with
  | merge a b => exact endsApart_runOn_merge_iff hg hapart fun _ => Iff.rfl
  | mergeTakingLabel a b =>
    exact endsApart_runOn_merge_iff hg hapart fun hcheck =>
      endsApart_mergeTakingLabel_iff (contains_of_checkMerge hcheck)
  | setLabel id label => exact hkeep (hask fun _ _ => hapart)
  | addNode label parents children =>
    exact hkeep (Edit.leaves_addNode EndsApart hapart fun _ => hattach _ _ _)
  | addEdge s t => exact hkeep (hask fun _ _ => hapart)
  | addEdges edges =>
    exact hkeep (hask fun _ _ =>
      hapart.of_same_terminals (inputs_joinAll edges) (outputs_joinAll edges))
  | removeEdge s t =>
    exact hkeep (hask fun _ _ => hask fun _ _ =>
      hapart.of_same_terminals inputs_dropEdge outputs_dropEdge)
  | dropEdges edges => exact hkeep (hapart.dropEdges edges)
  | severAll pairs =>
    exact hkeep (hapart.of_same_terminals (inputs_severAll pairs) (outputs_severAll pairs))
  | removeNode id => exact hkeep (hask fun _ _ => hapart.removeNode id)
  | removeNodes ids => exact hkeep (hapart.removeNodes ids)
  | markInput id =>
    refine hkeep (hask fun _ hcheck => ?_)
    show (if g.isInput id then g else g.pushInput id).EndsApart
    split
    · exact hapart
    · exact hapart.pushInput (of_checkMarkInput hcheck).2.2
  | markOutput id =>
    refine hkeep (hask fun _ hcheck => ?_)
    show (if g.isOutput id then g else g.pushOutput id).EndsApart
    split
    · exact hapart
    · exact hapart.pushOutput (of_checkMarkOutput hcheck).2.2
  | addInputAt id =>
    refine hkeep (hask fun _ _ => Edit.leaves_addNode_bind EndsApart hapart fun _ => ?_)
    refine (hattach _ _ _).pushInput ?_
    rw [outputs_attach]
    exact hg.nextId_not_mem_outputs
  | addOutputAt id =>
    refine hkeep (hask fun _ _ => Edit.leaves_addNode_bind EndsApart hapart fun _ => ?_)
    refine (hattach _ _ _).pushOutput ?_
    rw [inputs_attach]
    exact hg.nextId_not_mem_inputs
  | shift d => exact hkeep (hapart.shift d)
  | apartFrom h => exact hkeep (hapart.shift (g.clearance h))
  | besideAll hs => exact hkeep (hapart.besideAll hg hm)
  | glue h =>
    exact hkeep (hask fun _ hcheck => .glue hg (hm h List.mem_cons_self).1 hcheck)

end Mutation

/-! ## All calls -/

section ReachedApart

variable [Inhabited α]

/-- **The diagrams that come about** within words **without joining bare ends**, with operands that
    have come about in the same way. -/
inductive ReachedApart [Words] : Diagram α → Prop where
  | empty : ReachedApart empty
  | identity (n : Nat) (hroom : Words.Holds (2 * n)) : ReachedApart (identity n)
  | ofAdjacency {rows : List (List Nat)} {g : Diagram α} (h : ofAdjacency rows = .ok g)
      (hheld : ∀ g : Diagram α, (letI _ := Unlimited.words; ofAdjacency rows) = .ok g → g.Held) :
      ReachedApart g
  | step {g : Diagram α} (hg : ReachedApart g) (m : Mutation α)
      (hm : ∀ h ∈ m.operands, ReachedApart h) (hfits : m.Fits g) (hends : ¬m.JoinsEnds g) :
      ReachedApart (m.apply g)

theorem ReachedApart.reached [Words] (hg : ReachedApart g) : Reached g := by
  induction hg with
  | empty => exact .empty
  | identity n hroom => exact .identity n hroom
  | ofAdjacency h hheld => exact .ofAdjacency h hheld
  | step _ m _ hfits _ ih ihm => exact .step ih m ihm hfits

theorem endsApart_identity (n : Nat) : (identity n : Diagram α).EndsApart := by
  induction n with
  | zero => exact List.disjoint_nil_left _
  | succ n ih =>
    have hwires := Orderly.identity (α := α) n
    have hadded (k : Nat) (hk : k < (identity n : Diagram α).nextId) :
        k ≠ (identity n : Diagram α).nextId ∧ k ≠ (identity n : Diagram α).nextId + 1 := by
      omega
    intro k hi ho
    rcases List.mem_append.1 hi with hi | hi <;> rcases List.mem_append.1 ho with ho | ho
    · exact ih hi ho
    · exact (hadded k (hwires.idsBelow k (hwires.input k hi).1)).2 (List.mem_singleton.1 ho)
    · exact (hadded k (hwires.idsBelow k (hwires.output k ho).1)).1 (List.mem_singleton.1 hi)
    · rw [List.mem_singleton.1 hi, List.mem_singleton, Words.wrap_unlimited] at ho
      omega

theorem endsApart_ofAdjacency {rows : List (List Nat)} (h : ofAdjacency rows = .ok g) :
    g.EndsApart := by
  unfold Diagram.ofAdjacency at h
  split at h
  · cases h
  · cases h
    rw [EndsApart, joinRows_eq_joinAll, inputs_joinAll]
    exact List.disjoint_nil_left _

/-- **One call within words** makes an input an output exactly if it joins bare ends. -/
theorem Reached.endsApart_apply_iff [Words] (hg : Reached g) (hapart : g.EndsApart)
    (m : Mutation α) (hm : ∀ h ∈ m.operands, Reached h ∧ h.EndsApart) (hfits : m.Fits g) :
    (m.apply g).EndsApart ↔ ¬m.JoinsEnds g := by
  obtain ⟨-, horderly, hheld⟩ := hg.unlimited
  have hoperands := fun h hh => (hm h hh).1.unlimited.2.1
  rw [m.apply_of_fits horderly hheld.degrees hoperands hfits]
  exact m.endsApart_apply_iff horderly hapart fun h hh => ⟨hoperands h hh, (hm h hh).2⟩

theorem ReachedApart.endsApart [Words] (hg : ReachedApart g) : g.EndsApart := by
  induction hg with
  | empty => exact List.disjoint_nil_left _
  | identity n hroom =>
    rw [identity_eq hroom]
    exact endsApart_identity n
  | ofAdjacency h hheld =>
    rw [ofAdjacency_eq fun g hg => (hheld g hg).degrees.countsHold] at h
    exact endsApart_ofAdjacency h
  | step hg m hm hfits hends ih ihm =>
    exact (hg.reached.endsApart_apply_iff ih m (fun h hh => ⟨(hm h hh).reached, ihm h hh⟩)
      hfits).2 hends

/-- **No input is an output, unless bare ends are joined.** Diagrams that come about without merging
    an input that has lost its child with an output that has lost its parent have no node at both
    ends; and wherever there is none, one call puts one there exactly if it does just that. All
    calls must fit into words. -/
theorem ends_apart_unless_joined [Words] :
    (∀ g : Diagram α, ReachedApart g → g.EndsApart) ∧
    ∀ g : Diagram α, Reached g → g.EndsApart →
      ∀ m : Mutation α, (∀ h ∈ m.operands, Reached h ∧ h.EndsApart) → m.Fits g →
        ((m.apply g).EndsApart ↔ ¬m.JoinsEnds g) :=
  ⟨fun _ => ReachedApart.endsApart, fun _ hg hapart => hg.endsApart_apply_iff hapart⟩

section Machine

open scoped Machine

/-- A wire that is cut, and whose ends are merged. -/
theorem ends_apart_unless_joined_cut :
    let g : Diagram Nat := (Mutation.removeEdge 0 1).apply (identity 1)
    ReachedApart g ∧ g.EndsApart ∧ (Mutation.merge 0 1).JoinsEnds g ∧
      ¬((Mutation.merge 0 1).apply g).EndsApart := by
  intro g
  have hg : ReachedApart g :=
    (ReachedApart.identity 1 (by decide)).step (.removeEdge 0 1) (fun h hh => nomatch hh)
      (by decide +kernel) not_false
  obtain ⟨hall, hone⟩ := ends_apart_unless_joined (α := Nat)
  have hends : (Mutation.merge 0 1).JoinsEnds g :=
    ⟨by decide, ⟨by decide +kernel, by decide +kernel⟩, ⟨by decide +kernel, by decide +kernel⟩,
      .inl ⟨by decide +kernel, by decide +kernel⟩⟩
  refine ⟨hg, hall g hg, hends, fun hmerged => ?_⟩
  have hfits : (Mutation.merge 0 1).Fits g := by decide +kernel
  exact (hone g hg.reached (hall g hg) (.merge 0 1) (fun h hh => nomatch hh) hfits).1 hmerged hends

end Machine

end ReachedApart

end Diagram

end Wiring
