import Wiring.Proofs.Diagram.Stripping
import Wiring.Proofs.Saved.Arrangement
import Wiring.Saved.Form

/-!
# Loading what was saved

Saving writes all that there is of a diagram, valid or not, and loading reads just that, in whatever
order the fields of records arrive. Numbers are saved as they are but loaded only below a limit,
which all numbers that occur in a diagram respect. A circuit is also checked for cycles. The check
answers for every circuit whose nodes are stored under their own ids, even if the ends of edges
disagree or edges lead nowhere.

## Main definitions

- `LawfulStorable` — labels that are loaded as they were saved
- `Diagram.Fits` — all numbers of a diagram are below the limit

## Main statements

- `Diagram.load?_arrange_save` — every diagram is loaded as it was saved
- `loading_what_was_saved` — and circuits if they have no cycle
-/

namespace Wiring

open Saved

variable {order : List (String × Tree) → List (String × Tree)}

/-! ## Labels -/

/-- **Labels that are loaded as they were saved**, in whatever order their fields arrive. -/
class LawfulStorable (α : Type) [Storable α] : Prop where
  load?_arrange_save : ∀ order, Tree.Arranges order → ∀ a : α,
    Storable.load? ((Storable.save a).arrange order) = some a

instance : LawfulStorable String where
  load?_arrange_save _ _ _ := rfl

/-- A constant or a variable is a record, so that no name of a variable reads as another gate. -/
theorem Gate.load?_arrange_save (horder : Tree.Arranges order) (gate : Gate) :
    Gate.load? (gate.save.arrange order) = some gate := by
  cases gate with
  | const v =>
    rw [Gate.save, Tree.arrange_singleton horder]
    rfl
  | free name =>
    rw [Gate.save, Tree.arrange_singleton horder]
    rfl
  | _ => rfl

instance : LawfulStorable Gate where
  load?_arrange_save _ := Gate.load?_arrange_save

/-! ## Numbers and maps -/

namespace Saved.Tree

variable {β : Type} {n : Nat} {ns : List Nat}

theorem natural?_natural (h : n < limit) : (natural n).natural? = some n := if_pos h

theorem naturals?_ofNaturals (h : ∀ n ∈ ns, n < limit) : (ofNaturals ns).naturals? = some ns := by
  rw [ofNaturals, naturals?]
  induction ns with
  | nil => rfl
  | cons n ns ih =>
    obtain ⟨hn, hns⟩ := List.forall_mem_cons.1 h
    rw [List.map_cons, List.mapM_cons, natural?_natural hn, ih hns]
    rfl

/-- A map is read back if its keys are below the limit and its values are read back. Its keys are
    written as texts, and may arrive in the order of the texts. -/
theorem idMap?_arrange_ofIdMap (horder : Arranges order) {tree : β → Tree}
    {value? : Tree → Option β} {m : IdMap β}
    (h : ∀ e ∈ m.entries, e.1 < limit ∧ value? ((tree e.2).arrange order) = some e.2) :
    ((ofIdMap tree m).arrange order).idMap? value? = some m := by
  rw [ofIdMap, arrange_record]
  refine idMap?_of_perm (fun v => (tree v).arrange order) ((horder _).trans ?_) h
  rw [List.map_map]
  exact List.Perm.refl _

end Saved.Tree

/-! ## Diagrams -/

/-- All ids and counts are below the limit. -/
def Tally.Fits (t : Tally) : Prop := ∀ e ∈ t.entries, e.1 < Tree.limit ∧ e.2 < Tree.limit

theorem Tally.load?_arrange_save (horder : Tree.Arranges order) {t : Tally} (h : t.Fits) :
    Tally.load? (t.save.arrange order) = some t :=
  Tree.idMap?_arrange_ofIdMap horder fun e he =>
    ⟨(h e he).1, Tree.natural?_natural (h e he).2⟩

variable {α : Type}

/-- All ids and counts are below the limit. -/
structure Node.Fits (n : Node α) : Prop where
  id_lt : n.id < Tree.limit
  parents : n.parents.Fits
  children : n.children.Fits

/-- **All ids and counts are below the limit**, as they are in a machine word. -/
structure Diagram.Fits (g : Diagram α) : Prop where
  nodes : ∀ e ∈ g.nodes.entries, e.1 < Tree.limit ∧ e.2.Fits
  inputs : ∀ k ∈ g.inputs, k < Tree.limit
  outputs : ∀ k ∈ g.outputs, k < Tree.limit
  nextId_lt : g.nextId < Tree.limit

instance (t : Tally) : Decidable t.Fits :=
  inferInstanceAs (Decidable (∀ e ∈ t.entries, e.1 < Tree.limit ∧ e.2 < Tree.limit))

instance (n : Node α) : Decidable n.Fits :=
  decidable_of_iff (n.id < Tree.limit ∧ n.parents.Fits ∧ n.children.Fits)
    ⟨fun ⟨hid, hparents, hchildren⟩ => ⟨hid, hparents, hchildren⟩,
      fun h => ⟨h.id_lt, h.parents, h.children⟩⟩

instance (g : Diagram α) : Decidable g.Fits :=
  decidable_of_iff ((∀ e ∈ g.nodes.entries, e.1 < Tree.limit ∧ e.2.Fits) ∧
      (∀ k ∈ g.inputs, k < Tree.limit) ∧ (∀ k ∈ g.outputs, k < Tree.limit) ∧
      g.nextId < Tree.limit)
    ⟨fun ⟨hnodes, hinputs, houtputs, hnext⟩ => ⟨hnodes, hinputs, houtputs, hnext⟩,
      fun h => ⟨h.nodes, h.inputs, h.outputs, h.nextId_lt⟩⟩

section Load

variable [Storable α] [LawfulStorable α] (horder : Tree.Arranges order)
include horder

theorem Node.load?_arrange_save {n : Node α} (h : n.Fits) :
    Node.load? (n.save.arrange order) = some n := by
  have hfields : (n.save.arrange order).fields? ["id", "label", "parents", "children"] =
      some [.natural n.id, (Storable.save n.label).arrange order, n.parents.save.arrange order,
        n.children.save.arrange order] := by
    rw [Node.save, Tree.fields?_arrange horder]
    · rfl
    · show ["id", "label", "parents", "children"].Nodup
      decide
  rw [Node.load?, hfields]
  simp only [Option.bind_eq_bind, Option.bind_some, Tree.natural?_natural h.id_lt,
    LawfulStorable.load?_arrange_save order horder, Tally.load?_arrange_save horder h.parents,
    Tally.load?_arrange_save horder h.children]

/-- **Every diagram is loaded as it was saved**, whether it is valid or not. -/
theorem Diagram.load?_arrange_save {g : Diagram α} (h : g.Fits) :
    Diagram.load? (g.save.arrange order) = some g := by
  have hfields : (g.save.arrange order).fields? ["nodes", "inputs", "outputs", "next_id"] =
      some [(Tree.ofIdMap Node.save g.nodes).arrange order,
        (Tree.ofNaturals g.inputs).arrange order, (Tree.ofNaturals g.outputs).arrange order,
        .natural g.nextId] := by
    rw [Diagram.save, Tree.fields?_arrange horder]
    · rfl
    · show ["nodes", "inputs", "outputs", "next_id"].Nodup
      decide
  have hnodes : ((Tree.ofIdMap Node.save g.nodes).arrange order).idMap? Node.load? =
      some g.nodes :=
    Tree.idMap?_arrange_ofIdMap horder fun e he =>
      ⟨(h.nodes e he).1, Node.load?_arrange_save horder (h.nodes e he).2⟩
  rw [Diagram.load?, hfields]
  simp only [Option.bind_eq_bind, Option.bind_some, hnodes, Tree.arrange_ofNaturals,
    Tree.naturals?_ofNaturals h.inputs, Tree.naturals?_ofNaturals h.outputs,
    Tree.natural?_natural h.nextId_lt]

/-- A circuit is loaded as it was saved or refused, as the check for cycles says. -/
theorem Circuit.load_arrange_save [Words] {c : Circuit} (h : Diagram.Fits c) :
    Circuit.load (Diagram.save c |>.arrange order) =
      (Circuit.ofDiagram c).mapError .rejected := by
  rw [Circuit.load, Diagram.load?_arrange_save horder h]
  dsimp only
  cases Circuit.ofDiagram c <;> rfl

end Load

theorem Circuit.load_save [Words] {c : Circuit} (h : Diagram.Fits c) :
    Circuit.load (Diagram.save c) = (Circuit.ofDiagram c).mapError .rejected := by
  rw [← Circuit.load_arrange_save Tree.arranges_id h, Tree.arrange_id]

/-- **What was saved is loaded**, in whatever order the fields of records arrive: diagrams with
    texts and diagrams with gates, valid or not, as they were, and circuits that store their nodes
    under their own ids exactly if they have no cycle. -/
theorem loading_what_was_saved [Words] (horder : Tree.Arranges order) :
    (∀ g : Diagram String, g.Fits → Diagram.load? (g.save.arrange order) = some g) ∧
    (∀ g : Diagram Gate, g.Fits → Diagram.load? (g.save.arrange order) = some g) ∧
    ∀ c : Circuit, Diagram.Fits c → Diagram.Stored c → ∃ cyclic, Diagram.isCyclic c = .ok cyclic ∧
      Circuit.load ((Diagram.save c).arrange order) =
        if cyclic then .error (.rejected .cyclic) else .ok c := by
  refine ⟨fun g hg => Diagram.load?_arrange_save horder hg,
    fun g hg => Diagram.load?_arrange_save horder hg, ?_⟩
  intro c hc hstored
  obtain ⟨cyclic, hcyclic⟩ := hstored.exists_isCyclic
  refine ⟨cyclic, hcyclic, ?_⟩
  rw [Circuit.load_arrange_save horder hc, Circuit.ofDiagram, hcyclic]
  cases cyclic <;> rfl

section Machine

open scoped Machine

/-- Two nodes of which hardly anything is in order: one does not know its id, counts are zero, ends
    of edges disagree or lead nowhere, terminals are repeated or missing, and ids are used up. -/
def jumble {α : Type} (a b : α) : Diagram α where
  nodes := IdMap.ofList
    [(2, ⟨7, a, IdMap.ofList [(10, 0)], IdMap.empty⟩),
      (10, ⟨10, b, IdMap.empty, IdMap.ofList [(2, 3), (99, 1)]⟩)]
  inputs := [10, 10, 5]
  outputs := [5]
  nextId := 3

/-- Wires from 2 to 10 and on to nowhere, and back to 2 if `back` says so. -/
def trail (back : Nat) : Circuit where
  nodes := IdMap.ofList
    [(2, ⟨2, .free "0", IdMap.ofList [(10, back)], IdMap.ofList [(10, 1)]⟩),
      (10, ⟨10, .free "&", IdMap.ofList [(2, 1)], IdMap.ofList [(2, back), (99, 1)]⟩)]
  inputs := [2, 2]
  outputs := [5]
  nextId := 0

/-- The key 10 comes before 2 here. -/
theorem loading_what_was_saved_by_name :
    Diagram.load? ((jumble "0" "&").save.arrange Tree.byName) = some (jumble "0" "&") ∧
    Diagram.load? ((jumble (Gate.free "0") (Gate.free "&")).save.arrange Tree.byName) =
      some (jumble (Gate.free "0") (Gate.free "&")) ∧
    Circuit.load ((Diagram.save (trail 0)).arrange Tree.byName) = .ok (trail 0) ∧
    Circuit.load ((Diagram.save (trail 1)).arrange Tree.byName) =
      .error (.rejected .cyclic) := by
  obtain ⟨htext, hgate, hcircuit⟩ := loading_what_was_saved Tree.arranges_byName
  have hload {c : Circuit} {cyclic : Bool} (hfits : Diagram.Fits c) (hstored : Diagram.Stored c)
      (h : Diagram.isCyclic c = .ok cyclic) :
      Circuit.load ((Diagram.save c).arrange Tree.byName) =
        if cyclic then .error (.rejected .cyclic) else .ok c := by
    obtain ⟨cyclic', h', hc⟩ := hcircuit c hfits hstored
    obtain rfl : cyclic = cyclic' := Except.ok.inj (h.symm.trans h')
    exact hc
  have hopen : Diagram.isCyclic (trail 0) = .ok false := by decide +kernel
  have hclosed : Diagram.isCyclic (trail 1) = .ok true := by decide +kernel
  exact ⟨htext _ (by decide +kernel), hgate _ (by decide +kernel),
    hload (by decide +kernel) (by decide +kernel) hopen,
    hload (by decide +kernel) (by decide +kernel) hclosed⟩

end Machine

end Wiring
