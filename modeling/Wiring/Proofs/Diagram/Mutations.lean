import Wiring.Proofs.Words.Calls

/-!
# Whole histories of a diagram

A diagram that starts empty, as bare wires or as a matrix, and is then changed by any calls
whatever, refused ones among them, is always in order. The ids that it gives out never come back, so
a new node never takes the place of another. All of this is said of words, for as long as they hold
what comes about.

## Main definitions

- `Diagram.Mutation` — a call of an operation that changes a diagram
- `Diagram.Mutation.apply` — what the call leaves, whether it is refused or not
- `Diagram.Mutation.Fits` — words hold what the call would leave without a limit
- `Diagram.Reached` — the diagrams that come about

## Main statements

- `Diagram.Mutation.follows_apply` — what one call keeps
- `Diagram.Mutation.apply_of_fits` — a call within words
- `Diagram.reached_diagrams_in_order` — what all of them keep
-/

namespace Wiring

open scoped Unlimited

namespace Diagram

variable {α : Type} {f g h : Diagram α} {a b i s t : Nat} {label : α} {ps cs : List Nat}

/-- **A call of an operation that changes a diagram**, with its arguments. -/
inductive Mutation (α : Type) where
  | setLabel (id : Nat) (label : α)
  | addNode (label : α) (parents children : List Nat)
  | addEdge (s t : Nat)
  | addEdges (edges : List (Nat × Nat))
  | removeEdge (s t : Nat)
  | dropEdges (edges : List (Nat × Nat))
  | severAll (pairs : List (Nat × Nat))
  | removeNode (id : Nat)
  | removeNodes (ids : List Nat)
  | merge (a b : Nat)
  | mergeTakingLabel (a b : Nat)
  | markInput (id : Nat)
  | markOutput (id : Nat)
  | addInputAt (id : Nat)
  | addOutputAt (id : Nat)
  | shift (d : Nat)
  | apartFrom (h : Diagram α)
  | besideAll (hs : List (Diagram α))
  | glue (h : Diagram α)

namespace Mutation

/-- The diagrams whose nodes are put into the one that is changed. -/
def operands : Mutation α → List (Diagram α)
  | besideAll hs => hs
  | glue h => [h]
  | _ => []

/-- **What a call leaves**, be it refused or not. -/
def apply [Words] [Inhabited α] : Mutation α → Diagram α → Diagram α
  | setLabel id label, g => ((Edit.setLabel id label).runOn g).2
  | addNode label parents children, g => ((Edit.addNode label parents children).runOn g).2
  | addEdge s t, g => ((Edit.addEdge s t).runOn g).2
  | addEdges edges, g => ((Edit.addEdges edges).runOn g).2
  | removeEdge s t, g => ((Edit.removeEdge s t).runOn g).2
  | dropEdges edges, g => g.dropEdges edges
  | severAll pairs, g => g.severAll pairs
  | removeNode id, g => ((Edit.removeNode id).runOn g).2
  | removeNodes ids, g => g.removeNodes ids
  | merge a b, g => ((Edit.merge a b).runOn g).2
  | mergeTakingLabel a b, g => ((Edit.mergeTakingLabel a b).runOn g).2
  | markInput id, g => ((Edit.markInput id).runOn g).2
  | markOutput id, g => ((Edit.markOutput id).runOn g).2
  | addInputAt id, g => ((Edit.addInputAt id).runOn g).2
  | addOutputAt id, g => ((Edit.addOutputAt id).runOn g).2
  | shift d, g => g.shift d
  | apartFrom h, g => ((Edit.apartFrom h).runOn g).2
  | besideAll hs, g => g.besideAll hs
  | glue h, g => ((Edit.glue h).runOn g).2

/-- Words hold the numbers that a call looks at first: the degrees of two nodes to be merged, taken
    together, and the span of a diagram to be clear of. -/
def IntermediatesHold [Words] : Mutation α → Diagram α → Prop
  | merge a b, g | mergeTakingLabel a b, g => a ≠ b →
      Words.Holds ((g.above a).length + (g.above b).length) ∧
        Words.Holds ((g.below a).length + (g.below b).length)
  | apartFrom h, _ => Words.Holds h.span
  | _, _ => True

/-- **The call fits into words**: they hold what it would leave without a limit, and the numbers
    that it looks at first. -/
structure Fits [Words] [Inhabited α] (m : Mutation α) (g : Diagram α) : Prop where
  held : (letI _ := Unlimited.words; m.apply g).Held
  intermediates : m.IntermediatesHold g

instance [Words] (m : Mutation α) (g : Diagram α) : Decidable (m.IntermediatesHold g) := by
  cases m <;> unfold IntermediatesHold <;> infer_instance

instance [Words] [Inhabited α] (m : Mutation α) (g : Diagram α) : Decidable (m.Fits g) :=
  decidable_of_iff ((letI _ := Unlimited.words; m.apply g).Held ∧ m.IntermediatesHold g)
    ⟨fun ⟨hheld, hholds⟩ => ⟨hheld, hholds⟩, fun h => ⟨h.held, h.intermediates⟩⟩

theorem fits_unlimited [Inhabited α] (m : Mutation α) (g : Diagram α) : m.Fits g := by
  refine ⟨held_unlimited _, ?_⟩
  cases m <;> simp [IntermediatesHold]

end Mutation

/-- **The diagrams that come about** within words from empty ones, bare wires and matrices by calls
    in any order, with operands that have come about in the same way. -/
inductive Reached [Words] [Inhabited α] : Diagram α → Prop where
  | empty : Reached empty
  | identity (n : Nat) (hroom : Words.Holds (2 * n)) : Reached (identity n)
  | ofAdjacency {rows : List (List Nat)} {g : Diagram α} (h : ofAdjacency rows = .ok g)
      (hheld : ∀ g : Diagram α, (letI _ := Unlimited.words; ofAdjacency rows) = .ok g → g.Held) :
      Reached g
  | step {g : Diagram α} (hg : Reached g) (m : Mutation α) (hm : ∀ h ∈ m.operands, Reached h)
      (hfits : m.Fits g) : Reached (m.apply g)

/-- The number of edges that the node `i` has stored for its child `j`. -/
def childEntry (g : Diagram α) (i j : Nat) : Option Nat := (g.node? i).bind (·.children.get? j)

/-- The number of edges that the node `j` has stored for its parent `i`. -/
def parentEntry (g : Diagram α) (j i : Nat) : Option Nat := (g.node? j).bind (·.parents.get? i)

/-- In a coherent diagram the two ends have stored the same. -/
theorem Coherent.childEntry_eq (hg : g.Coherent) (i j : Nat) :
    g.childEntry i j = g.parentEntry j i := by
  have hchild : g.childEntry i j =
      if (g.below i).count j = 0 then none else some ((g.below i).count j) := by
    rw [childEntry]
    cases hi : g.node? i with
    | none => simp [below, hi]
    | some n => rw [below_of_node? hi, Tally.count_spread, ← (hg.positive i n hi).2.get?_eq]; rfl
  have hparent : g.parentEntry j i =
      if (g.above j).count i = 0 then none else some ((g.above j).count i) := by
    rw [parentEntry]
    cases hj : g.node? j with
    | none => simp [above, hj]
    | some n => rw [above_of_node? hj, Tally.count_spread, ← (hg.positive j n hj).1.get?_eq]; rfl
  rw [hchild, hparent, hg.agree]

theorem Coherent.childEntry_pos (hg : g.Coherent) {m : Nat} (h : g.childEntry i j = some m) :
    1 ≤ m ∧ g.contains i = true ∧ g.contains j = true := by
  have hparent := hg.childEntry_eq i j ▸ h
  obtain ⟨n, hn, hm⟩ := Option.bind_eq_some_iff.1 h
  obtain ⟨n', hn', -⟩ := Option.bind_eq_some_iff.1 hparent
  exact ⟨(hg.positive i n hn).2 j m hm, contains_iff.2 ⟨n, hn⟩, contains_iff.2 ⟨n', hn'⟩⟩

/-! ## One call -/

/-- `h` is in order, and gives out no id that `g` has given out before. -/
structure Follows (g h : Diagram α) : Prop where
  orderly : h.Orderly
  nextId_le : g.nextId ≤ h.nextId

theorem checkEdges_eq_ok_iff {edges : List (Nat × Nat)} :
    g.checkEdges edges = .ok () ↔ ∀ e ∈ edges, g.checkEdge e.1 e.2 = .ok () := by
  induction edges with
  | nil => simp [checkEdges]
  | cons e edges ih =>
    rw [checkEdges, List.forall_mem_cons, ← ih]
    cases g.checkEdge e.1 e.2 with
    | ok _ => simp
    | error fault => simp

/-- A node that may be declared an input is no output and has no parents. -/
theorem of_checkMarkInput (h : g.checkMarkInput i = .ok ()) :
    g.contains i = true ∧ g.above i = [] ∧ i ∉ g.outputs := by
  rw [checkMarkInput, bind_eq_ok_iff] at h
  obtain ⟨n, hn, h⟩ := h
  rw [find_eq_ok_iff] at hn
  rw [ite_error_eq_ok_iff, ite_error_eq_ok_iff, ite_error_eq_ok_iff] at h
  obtain ⟨hup, -, hout, -⟩ := h
  exact ⟨contains_iff.2 ⟨n, hn⟩, (above_eq_nil_iff hn).2 (by omega), by simpa [isOutput] using hout⟩

theorem of_checkMarkOutput (h : g.checkMarkOutput i = .ok ()) :
    g.contains i = true ∧ g.below i = [] ∧ i ∉ g.inputs := by
  rw [checkMarkOutput, bind_eq_ok_iff] at h
  obtain ⟨n, hn, h⟩ := h
  rw [find_eq_ok_iff] at hn
  rw [ite_error_eq_ok_iff, ite_error_eq_ok_iff, ite_error_eq_ok_iff] at h
  obtain ⟨hdown, -, hin, -⟩ := h
  exact ⟨contains_iff.2 ⟨n, hn⟩, (below_eq_nil_iff hn).2 (by omega), by simpa [isInput] using hin⟩

theorem follows_markInput (hg : g.Orderly) (h : g.checkMarkInput i = .ok ()) :
    Follows g (if g.isInput i then g else g.pushInput i) := by
  split
  · exact ⟨hg, Nat.le_refl _⟩
  · rename_i hi
    obtain ⟨hc, hnil, -⟩ := of_checkMarkInput h
    exact ⟨hg.pushInput (by simpa [isInput] using hi) hc hnil, Nat.le_refl _⟩

theorem follows_markOutput (hg : g.Orderly) (h : g.checkMarkOutput i = .ok ()) :
    Follows g (if g.isOutput i then g else g.pushOutput i) := by
  split
  · exact ⟨hg, Nat.le_refl _⟩
  · rename_i hi
    obtain ⟨hc, hnil, -⟩ := of_checkMarkOutput h
    exact ⟨hg.pushOutput (by simpa [isOutput] using hi) hc hnil, Nat.le_refl _⟩

theorem follows_merge (hg : g.Orderly) (h : g.checkMerge a b = .ok ()) :
    Follows g (g.merge a b) := by
  refine ⟨hg.merge h, ?_⟩
  by_cases hab : a = b
  · rw [merge, if_pos hab]
  · rw [nextId_merge hab (keepsPorts_of_checkMerge h hab).2.1]

theorem follows_mergeTakingLabel (hg : g.Orderly) (h : g.checkMerge a b = .ok ()) :
    Follows g (g.mergeTakingLabel a b) := by
  refine ⟨hg.mergeTakingLabel h, ?_⟩
  unfold mergeTakingLabel
  split
  · exact Nat.le_refl _
  · exact (follows_merge hg h).nextId_le

theorem Follows.trans (hgh : Follows f g) (hh : Follows g h) : Follows f h :=
  ⟨hh.orderly, Nat.le_trans hgh.nextId_le hh.nextId_le⟩

theorem follows_dropEdges (hg : g.Orderly) (edges : List (Nat × Nat)) :
    Follows g (g.dropEdges edges) := by
  induction edges generalizing g with
  | nil => exact ⟨hg, Nat.le_refl _⟩
  | cons e edges ih =>
    exact Follows.trans ⟨hg.dropEdge e.1 e.2, by rw [nextId_dropEdge]⟩ (ih (hg.dropEdge e.1 e.2))

theorem follows_besideAll (hf : f.Orderly) {gs : List (Diagram α)} (hgs : ∀ g ∈ gs, g.Orderly) :
    Follows f (f.besideAll gs) := by
  induction gs generalizing f with
  | nil => exact ⟨hf, Nat.le_refl _⟩
  | cons g gs ih =>
    have hstep := hf.beside (hgs g List.mem_cons_self)
    exact Follows.trans ⟨hstep, Nat.le_max_left _ _⟩
      (ih hstep fun h hh => hgs h (List.mem_cons_of_mem _ hh))

/-- **What one call keeps**, whichever it is and whether it is refused or not. -/
theorem Mutation.follows_apply [Inhabited α] (m : Mutation α) (hg : g.Orderly)
    (hm : ∀ h ∈ m.operands, h.Orderly) : Follows g (m.apply g) := by
  -- calls begin with their check, and leave what they found if it fails
  have hask {β γ : Type} {question : Diagram α → Except Fault β} {e : β → Edit α γ}
      (hok : ∀ x, question g = .ok x → Follows g ((e x).runOn g).2) :
      Follows g ((Edit.ask question >>= e).runOn g).2 :=
    Edit.leaves_ask_bind (Follows g) ⟨hg, Nat.le_refl _⟩ hok
  cases m with
  | setLabel id label => exact hask fun _ _ => ⟨hg.relabel id label, Nat.le_refl _⟩
  | addNode label parents children =>
    exact Edit.leaves_addNode (Follows g) ⟨hg, Nat.le_refl _⟩ fun hhosts =>
      ⟨hg.attach hhosts, by rw [nextId_attach]; omega⟩
  | addEdge s t =>
    refine hask fun _ hcheck => ⟨?_, Nat.le_refl _⟩
    have hall : ∀ e ∈ [(s, t)], g.checkEdge e.1 e.2 = .ok () :=
      List.forall_mem_singleton.2 hcheck
    exact hg.joinAll hall
  | addEdges edges =>
    refine hask fun _ hcheck => ⟨?_, ?_⟩
    · exact hg.joinAll (checkEdges_eq_ok_iff.1 hcheck)
    · exact Nat.le_of_eq (nextId_joinAll edges).symm
  | removeEdge s t =>
    refine hask fun _ _ => hask fun _ _ => ?_
    exact ⟨hg.dropEdge s t, Nat.le_of_eq nextId_dropEdge.symm⟩
  | dropEdges edges => exact follows_dropEdges hg edges
  | severAll pairs => exact ⟨hg.severAll pairs, Nat.le_of_eq (nextId_severAll pairs).symm⟩
  | removeNode id =>
    exact hask fun _ _ => ⟨hg.removeNode id, Nat.le_of_eq nextId_removeNode.symm⟩
  | removeNodes ids => exact ⟨hg.removeNodes ids, Nat.le_of_eq nextId_removeNodes.symm⟩
  | merge a b => exact hask fun _ hcheck => follows_merge hg hcheck
  | mergeTakingLabel a b => exact hask fun _ hcheck => follows_mergeTakingLabel hg hcheck
  | markInput id => exact hask fun _ hcheck => follows_markInput hg hcheck
  | markOutput id => exact hask fun _ hcheck => follows_markOutput hg hcheck
  | addInputAt id =>
    refine hask fun _ _ =>
      Edit.leaves_addNode_bind (Follows g) ⟨hg, Nat.le_refl _⟩ fun hhosts => ?_
    exact ⟨hg.attach_pushInput hhosts, Nat.le_succ _⟩
  | addOutputAt id =>
    refine hask fun _ _ =>
      Edit.leaves_addNode_bind (Follows g) ⟨hg, Nat.le_refl _⟩ fun hhosts => ?_
    exact ⟨hg.attach_pushOutput hhosts, Nat.le_succ _⟩
  | shift d => exact ⟨hg.shift d, by rw [apply, nextId_shift]; omega⟩
  | apartFrom h =>
    refine ⟨hg.apartFrom h, ?_⟩
    show g.nextId ≤ (g.apartFrom h).nextId
    rw [Diagram.apartFrom, nextId_shift]
    omega
  | besideAll hs => exact follows_besideAll hg hm
  | glue h =>
    refine hask fun ps hcheck => ⟨?_, ?_⟩
    · exact hg.glue (hm h List.mem_cons_self) hcheck
    · show g.nextId ≤ (g.glue ps h).nextId
      rw [glue_eq, nextId_weld]
      exact Nat.le_max_left _ _

/-! ## Within words -/

namespace Mutation

variable [Words] [Inhabited α]

/-- **A call that fits into words** leaves what it would leave without a limit. -/
theorem apply_of_fits (m : Mutation α) (hg : g.Orderly) (hdegrees : g.DegreesHold)
    (hm : ∀ h ∈ m.operands, h.Orderly) (hfits : m.Fits g) :
    m.apply g = letI := Unlimited.words; m.apply g := by
  obtain ⟨hheld, hholds⟩ := hfits
  cases m with
  | setLabel id label => rfl
  | addNode label parents children => exact congrArg Prod.snd (Edit.runOn_addNode_eq hheld)
  | addEdge s t => exact congrArg Prod.snd (Edit.runOn_addEdge_eq hheld)
  | addEdges edges => exact congrArg Prod.snd (Edit.runOn_addEdges_eq hheld)
  | removeEdge s t => rfl
  | dropEdges edges => rfl
  | severAll pairs => rfl
  | removeNode id => rfl
  | removeNodes ids => rfl
  | merge a b =>
    by_cases hab : a = b
    · rw [hab]
      exact congrArg Prod.snd (Edit.runOn_merge_self g b)
    · exact congrArg Prod.snd (Edit.runOn_merge_eq hdegrees (hholds hab) hg.coherent hab)
  | mergeTakingLabel a b =>
    by_cases hab : a = b
    · rw [hab]
      exact congrArg Prod.snd (Edit.runOn_mergeTakingLabel_self g b)
    · exact congrArg Prod.snd
        (Edit.runOn_mergeTakingLabel_eq hdegrees (hholds hab) hg.coherent hab)
  | markInput id => exact congrArg Prod.snd (Edit.runOn_markInput_eq hdegrees)
  | markOutput id => exact congrArg Prod.snd (Edit.runOn_markOutput_eq hdegrees)
  | addInputAt id => exact congrArg Prod.snd (Edit.runOn_addInputAt_eq hdegrees hheld)
  | addOutputAt id => exact congrArg Prod.snd (Edit.runOn_addOutputAt_eq hdegrees hheld)
  | shift d =>
    have hnext : Words.Holds (letI _ := Unlimited.words; g.shift d).nextId := hheld.nextId
    rw [nextId_shift] at hnext
    exact hg.shift_eq hnext
  | apartFrom h => exact hg.apartFrom_eq hholds hheld.nextId
  | besideAll hs => exact hg.besideAll_eq hm hheld.nextId
  | glue h =>
    exact congrArg Prod.snd (Edit.runOn_glue_eq hg hdegrees (hm h List.mem_cons_self) hheld)

end Mutation

/-! ## All calls -/

section Reached

variable [Inhabited α]

theorem held_identity [Words] {n : Nat} (hroom : Words.Holds (2 * n)) :
    Held (letI _ := Unlimited.words; (identity n : Diagram α)) := by
  refine ⟨by rwa [nextId_identity], ?_⟩
  induction n with
  | zero => exact fun k hk => nomatch hk
  | succ n ih =>
    have hone : Words.Holds 1 := hroom.mono (by omega)
    have hb := beside_addWire (Orderly.identity (α := α) n).idsBelow
    refine hb.toUnites.degreesHold (ih (hroom.mono (by omega))) fun k _ => ?_
    rw [above_wire, below_wire]
    constructor <;> split <;> first
      | exact hone
      | exact .zero

/-- **What comes about within words comes about without a limit**, and words hold it. -/
theorem Reached.unlimited [Words] (hg : Reached g) :
    (letI _ := Unlimited.words; Reached g) ∧ g.Orderly ∧ g.Held := by
  induction hg with
  | empty => exact ⟨@Reached.empty _ Unlimited.words _, .empty, .zero, fun k hk => nomatch hk⟩
  | identity n hroom =>
    rw [identity_eq hroom]
    exact ⟨@Reached.identity _ Unlimited.words _ n (Words.holds_unlimited _), .identity n,
      held_identity hroom⟩
  | ofAdjacency h hheld =>
    rw [ofAdjacency_eq fun g hg => (hheld g hg).degrees.countsHold] at h
    exact ⟨@Reached.ofAdjacency _ Unlimited.words _ _ _ h fun g _ => held_unlimited g,
      .ofAdjacency h, hheld _ h⟩
  | step _ m _ hfits ih ihm =>
    obtain ⟨hg, horderly, hheld⟩ := ih
    have hoperands := fun h hh => (ihm h hh).2.1
    rw [m.apply_of_fits horderly hheld.degrees hoperands hfits]
    exact ⟨@Reached.step _ Unlimited.words _ _ hg m (fun h hh => (ihm h hh).1) (m.fits_unlimited _),
      (m.follows_apply horderly hoperands).orderly, hfits.held⟩

section Machine

open scoped Machine

end Machine

end Reached

end Diagram

end Wiring
