import Wiring.Diagram.WellFormed
import Wiring.Proofs.Diagram.Mutations

/-!
# Refused calls

An edit may be refused halfway: nothing in its type takes back what it has done by then. The edits
of a diagram are not. Whether they are refused is decided by what is asked of the diagram before
anything is changed, and what follows always answers, also where it is an edit that could be refused
elsewhere.

## Main definitions

- `Edit.Answers` — an edit that is never refused
- `Edit.DecidedBy` — an edit whose refusal is decided beforehand
- `Edit.fuse`, `Edit.fuseTakingLabel` — merging with the second lookup that it makes
- `Diagram.Mutation.edit`, `Diagram.Mutation.check` — the edit that a call runs, and what decides it

## Main statements

- `Edit.DecidedBy.ask_bind` — questions asked one after the other, before anything is changed
- `Edit.runOn_discard_fuse`, `Edit.runOn_fuseTakingLabel` — the second lookup is not refused
- `Diagram.Mutation.decidedBy_check` — all calls are decided beforehand
- `Diagram.refused_calls_change_nothing` — so that the refused ones change nothing
-/

namespace Wiring

namespace Edit

variable {α β γ : Type} {g : Diagram α} {e : Edit α β}

/-! ## Edits that are decided beforehand -/

/-- An edit that is never refused, on whatever diagram. -/
def Answers (e : Edit α β) : Prop := ∀ g, ∃ b h, e.runOn g = (.ok b, h)

theorem answers_pure (b : β) : (pure b : Edit α β).Answers := fun g => ⟨b, g, rfl⟩

theorem answers_get : (get : Edit α (Diagram α)).Answers := fun g => ⟨g, g, rfl⟩

theorem answers_change (f : Diagram α → Diagram α) : (change f).Answers := fun g => ⟨(), f g, rfl⟩

theorem Answers.bind {f : β → Edit α γ} (he : e.Answers) (hf : ∀ b, (f b).Answers) :
    (e >>= f).Answers := by
  intro g
  obtain ⟨b, mid, hb⟩ := he g
  rw [runOn_bind_ok hb]
  exact hf b mid

/-- **What becomes of the edit on `g` is decided by the verdict**: if that is a fault then the edit
    is refused with it, and `g` is left; otherwise the edit answers. -/
def DecidedBy (e : Edit α β) (g : Diagram α) : Except Fault Unit → Prop
  | .ok () => ∃ b h, e.runOn g = (.ok b, h)
  | .error fault => e.runOn g = (.error fault, g)

theorem Answers.decidedBy (he : e.Answers) (g : Diagram α) : e.DecidedBy g (.ok ()) := he g

theorem DecidedBy.congr {e' : Edit α β} {verdict : Except Fault Unit}
    (he : e'.DecidedBy g verdict) (hrun : e.runOn g = e'.runOn g) : e.DecidedBy g verdict := by
  cases verdict with
  | ok _ =>
    obtain ⟨b, h, he⟩ := he
    exact ⟨b, h, hrun.trans he⟩
  | error fault => exact hrun.trans he

/-- A question decides, as nothing has changed. Once it is answered, what follows is decided by what
    is asked there. -/
theorem DecidedBy.ask_bind {question : Diagram α → Except Fault β} {f : β → Edit α γ}
    {verdict : β → Except Fault Unit}
    (hf : ∀ b, question g = .ok b → (f b).DecidedBy g (verdict b)) :
    (ask question >>= f).DecidedBy g (question g >>= verdict) := by
  cases hq : question g with
  | ok b => exact (hf b hq).congr (by rw [runOn_ask_bind, hq])
  | error fault =>
    show (ask question >>= f).runOn g = (.error fault, g)
    rw [runOn_ask_bind, hq]

/-- A single question whose answer says nothing but that the rest will not be refused. -/
theorem DecidedBy.ask_then {question : Diagram α → Except Fault Unit} {f : Unit → Edit α γ}
    (hf : question g = .ok () → ∃ c h, (f ()).runOn g = (.ok c, h)) :
    (ask question >>= f).DecidedBy g (question g) := by
  have hverdict : question g = question g >>= fun _ => Except.ok () := by
    cases question g <;> rfl
  rw [hverdict]
  exact DecidedBy.ask_bind fun _ hq => hf hq

theorem DecidedBy.discard {verdict : Except Fault Unit} (he : e.DecidedBy g verdict) :
    (discard e : Edit α PUnit).DecidedBy g verdict := by
  cases verdict with
  | ok _ =>
    obtain ⟨b, h, he⟩ := he
    exact ⟨⟨⟩, h, runOn_discard he⟩
  | error fault =>
    show (Functor.discard e : Edit α PUnit).runOn g = (.error fault, g)
    rw [discard_eq_bind, runOn_bind, he]

theorem snd_runOn_discard (e : Edit α β) (g : Diagram α) :
    ((discard e : Edit α PUnit).runOn g).2 = (e.runOn g).2 := by
  rw [discard_eq_bind, runOn_bind]
  cases e.runOn g with
  | mk answer h => cases answer <;> rfl

/-! ## The edits of a diagram -/

theorem decidedBy_checkNeighbours [Words] (label : α) (ps cs : List Nat) :
    (addNode label ps cs).DecidedBy g (g.checkNeighbours ps cs) :=
  DecidedBy.ask_then fun _ =>
    answers_get.bind (fun g => (answers_change _).bind fun _ => answers_pure g.nextId) g

end Edit

namespace Diagram

variable {α : Type} {g : Diagram α} {id : Nat}

/-- A node that may get a fresh input may become the only child of a new node. -/
theorem hosts_of_checkInputAt [Words] (h : g.checkInputAt id = .ok ()) : g.Hosts [] [id] := by
  rw [checkInputAt, bind_eq_ok_iff] at h
  obtain ⟨n, hn, h⟩ := h
  rw [find_eq_ok_iff] at hn
  have hin := (ite_error_eq_ok_iff.1 h).1
  refine ⟨fun p hp => (nomatch hp), fun c hc => ?_⟩
  obtain rfl := List.mem_singleton.1 hc
  exact ⟨contains_iff.2 ⟨n, hn⟩, by simpa [isInput] using hin⟩

theorem hosts_of_checkOutputAt [Words] (h : g.checkOutputAt id = .ok ()) : g.Hosts [id] [] := by
  rw [checkOutputAt, bind_eq_ok_iff] at h
  obtain ⟨n, hn, h⟩ := h
  rw [find_eq_ok_iff] at hn
  have hout := (ite_error_eq_ok_iff.1 h).1
  refine ⟨fun p hp => ?_, fun c hc => (nomatch hc)⟩
  obtain rfl := List.mem_singleton.1 hp
  exact ⟨contains_iff.2 ⟨n, hn⟩, by simpa [isOutput] using hout⟩

theorem relabel_self {label : α} (h : g.label? id = some label) : g.relabel id label = g := by
  have hnodes : g.nodes.modify id (·.relabel label) = g.nodes := by
    apply IdMap.ext
    intro k
    rw [IdMap.get?_modify]
    split
    · rename_i hk
      subst hk
      obtain ⟨n, hn, rfl⟩ := Option.map_eq_some_iff.1 h
      have hn : g.nodes.get? k = some n := hn
      rw [hn]
      rfl
    · rfl
  rw [relabel, updateNode, hnodes]

end Diagram

/-! ## Merging step by step -/

namespace Edit

variable [Words] {α : Type} {g : Diagram α} {a b : Nat}

/-- **Merging, step by step.** After the check the node that goes is looked up again, which could be
    refused; its label is answered, if it is another node. -/
def fuse (a b : Nat) : Edit α (Option α) := do
  ask (·.checkMerge a b)
  if a = b then pure none
  else do
    let n ← ask (·.find b)
    change (·.merge a b)
    pure (some n.label)

/-- Merging, step by step, and taking the label that is answered. -/
def fuseTakingLabel (a b : Nat) : Edit α Unit := do
  match ← fuse a b with
  | none => pure ()
  | some label => change (·.relabel a label)

/-- The node that the check has found is found again. -/
theorem runOn_fuse (hcheck : g.checkMerge a b = .ok ()) :
    (fuse a b).runOn g = (.ok (if a = b then none else g.label? b), g.merge a b) := by
  rw [fuse, runOn_ask_bind, hcheck]
  by_cases hab : a = b
  · simp only [if_pos hab, Diagram.merge, runOn_pure]
  · obtain ⟨n, hn⟩ := Diagram.contains_iff.1 (Diagram.contains_of_checkMerge hcheck)
    simp only [if_neg hab, runOn_ask_bind, Diagram.find_eq_ok_iff.2 hn, Diagram.label?, hn,
      Option.map_some, runOn_bind_ok (runOn_change _ g), runOn_pure]

theorem runOn_fuse_of_error {fault : Fault} (hcheck : g.checkMerge a b = .error fault) :
    (fuse a b).runOn g = (.error fault, g) := by
  rw [fuse, runOn_ask_bind, hcheck]

/-- Step by step, merging does the same. -/
theorem runOn_discard_fuse :
    (discard (fuse a b) : Edit α PUnit).runOn g = (merge a b).runOn g := by
  rw [discard_eq_bind, runOn_bind, merge, runOn_ask_bind]
  cases hcheck : g.checkMerge a b with
  | ok _ =>
    rw [runOn_fuse hcheck]
    rfl
  | error fault => rw [runOn_fuse_of_error hcheck]

theorem runOn_fuseTakingLabel :
    (fuseTakingLabel a b).runOn g = (mergeTakingLabel a b).runOn g := by
  rw [fuseTakingLabel, runOn_bind, mergeTakingLabel, runOn_ask_bind]
  cases hcheck : g.checkMerge a b with
  | error fault => rw [runOn_fuse_of_error hcheck]
  | ok _ =>
    obtain ⟨label, hlabel⟩ :=
      Diagram.contains_iff_label?.1 (Diagram.contains_of_checkMerge hcheck)
    rw [runOn_fuse hcheck, runOn_change, Diagram.mergeTakingLabel, hlabel]
    by_cases hab : a = b
    · -- the node already has its own label
      subst hab
      simp only [if_pos, runOn_pure, Diagram.merge, Diagram.relabel_self hlabel]
    · simp only [if_neg hab, runOn_change]

end Edit

namespace Edit

variable [Words] {α : Type} [Inhabited α] {g : Diagram α} {id : Nat}

/-- The new node is not refused again. -/
theorem decidedBy_checkInputAt : (addInputAt id).DecidedBy g (g.checkInputAt id) :=
  DecidedBy.ask_then fun hcheck =>
    ⟨_, _, runOn_bind_ok (runOn_addNode (Diagram.hosts_of_checkInputAt hcheck)) _⟩

theorem decidedBy_checkOutputAt : (addOutputAt id).DecidedBy g (g.checkOutputAt id) :=
  DecidedBy.ask_then fun hcheck =>
    ⟨_, _, runOn_bind_ok (runOn_addNode (Diagram.hosts_of_checkOutputAt hcheck)) _⟩

end Edit

namespace Diagram

variable {α : Type}

namespace Mutation

/-- **The edit that a call runs**, step by step, whatever id it may answer left out. -/
def edit [Words] [Inhabited α] : Mutation α → Edit α Unit
  | setLabel id label => Edit.setLabel id label
  | addNode label parents children => discard (Edit.addNode label parents children)
  | addEdge s t => Edit.addEdge s t
  | addEdges edges => Edit.addEdges edges
  | removeEdge s t => Edit.removeEdge s t
  | dropEdges edges => Edit.change (·.dropEdges edges)
  | severAll pairs => Edit.change (·.severAll pairs)
  | removeNode id => Edit.removeNode id
  | removeNodes ids => Edit.change (·.removeNodes ids)
  | merge a b => discard (Edit.fuse a b)
  | mergeTakingLabel a b => Edit.fuseTakingLabel a b
  | markInput id => Edit.markInput id
  | markOutput id => Edit.markOutput id
  | addInputAt id => discard (Edit.addInputAt id)
  | addOutputAt id => discard (Edit.addOutputAt id)
  | shift d => Edit.change (·.shift d)
  | apartFrom h => discard (Edit.apartFrom h)
  | besideAll hs => Edit.change (·.besideAll hs)
  | glue h => Edit.glue h

/-- **What decides a call**: all that is asked of the diagram before it is changed. -/
def check [Words] : Mutation α → Diagram α → Except Fault Unit
  | setLabel id _, g | removeNode id, g => do
    let _ ← g.find id
    .ok ()
  | addNode _ parents children, g => g.checkNeighbours parents children
  | addEdge s t, g => g.checkEdge s t
  | addEdges edges, g => g.checkEdges edges
  | removeEdge s t, g => do
    let _ ← g.find s
    let _ ← g.find t
    .ok ()
  | merge a b, g | mergeTakingLabel a b, g => g.checkMerge a b
  | markInput id, g => g.checkMarkInput id
  | markOutput id, g => g.checkMarkOutput id
  | addInputAt id, g => g.checkInputAt id
  | addOutputAt id, g => g.checkOutputAt id
  | glue h, g => do
    let _ ← g.checkGlue h
    .ok ()
  | dropEdges _, _ | severAll _, _ | removeNodes _, _ | shift _, _ | apartFrom _, _
  | besideAll _, _ => .ok ()

variable [Words] [Inhabited α]

theorem apply_eq (m : Mutation α) (g : Diagram α) : m.apply g = (m.edit.runOn g).2 := by
  cases m with
  | merge a b => exact congrArg Prod.snd Edit.runOn_discard_fuse.symm
  | mergeTakingLabel a b => exact congrArg Prod.snd Edit.runOn_fuseTakingLabel.symm
  | addNode | addInputAt | addOutputAt | apartFrom => exact (Edit.snd_runOn_discard _ g).symm
  | _ => rfl

/-- **All calls are decided beforehand.** -/
theorem decidedBy_check (m : Mutation α) (g : Diagram α) : m.edit.DecidedBy g (m.check g) := by
  have hchange (f : Diagram α → Diagram α) : (Edit.change f).DecidedBy g (.ok ()) :=
    (Edit.answers_change f).decidedBy g
  cases m with
  | setLabel | removeNode | glue => exact .ask_bind fun _ _ => hchange _
  | addNode label parents children => exact (Edit.decidedBy_checkNeighbours _ _ _).discard
  | addEdge | addEdges | markInput | markOutput => exact .ask_then fun _ => hchange _
  | merge a b =>
    have hmerge : (Edit.merge a b).DecidedBy g (g.checkMerge a b) := .ask_then fun _ => hchange _
    exact hmerge.congr Edit.runOn_discard_fuse
  | mergeTakingLabel a b =>
    have hmerge : (Edit.mergeTakingLabel a b).DecidedBy g (g.checkMerge a b) :=
      .ask_then fun _ => hchange _
    exact hmerge.congr Edit.runOn_fuseTakingLabel
  | removeEdge s t => exact .ask_bind fun _ _ => .ask_bind fun _ _ => hchange _
  | addInputAt id => exact Edit.decidedBy_checkInputAt.discard
  | addOutputAt id => exact Edit.decidedBy_checkOutputAt.discard
  | apartFrom h =>
    refine Edit.DecidedBy.discard ?_
    exact Edit.answers_get.bind (fun _ => (Edit.answers_change _).bind fun _ =>
      Edit.answers_pure _) g
  | dropEdges | severAll | removeNodes | shift | besideAll => exact hchange _

end Mutation

/-- **Refused calls change nothing**, whatever the diagram is like and however large words are. A
    call answers as decided before
    anything is changed, and if it is refused, nodes, terminals and the next id are as they
    were. -/
theorem refused_calls_change_nothing [Words] [Inhabited α] (m : Mutation α) (g : Diagram α) :
    (m.edit.runOn g).1 = m.check g ∧
      ∀ fault, (m.edit.runOn g).1 = .error fault → m.apply g = g := by
  have hdecided := m.decidedBy_check g
  rw [Mutation.apply_eq]
  cases hcheck : m.check g with
  | ok _ =>
    rw [hcheck] at hdecided
    obtain ⟨b, h, hrun⟩ := hdecided
    rw [hrun]
    exact ⟨rfl, fun fault hfault => nomatch hfault⟩
  | error fault =>
    rw [hcheck] at hdecided
    have hrun : m.edit.runOn g = (.error fault, g) := hdecided
    rw [hrun]
    exact ⟨rfl, fun _ _ => rfl⟩

section Machine

open scoped Machine

/-- A wire with an output too many, which is no node, and a next id that is in use. -/
theorem refused_calls_change_nothing_stray :
    let g : Diagram Nat := { identity 1 with outputs := [1, 5], nextId := 0 }
    g.isWellFormed = false ∧
      ((Mutation.glue (identity 2)).edit.runOn g).1 = .error (.unknownNode 5) ∧
      (Mutation.glue (identity 2)).apply g = g ∧
      ((Mutation.addInputAt 1).edit.runOn g).1 = .error (.terminal 1 .hasParents) ∧
      (Mutation.addInputAt 1).apply g = g := by
  intro g
  obtain ⟨hanswer, hkept⟩ := refused_calls_change_nothing (.glue (identity 2)) g
  obtain ⟨hanswer', hkept'⟩ := refused_calls_change_nothing (.addInputAt 1) g
  have hglue : (Mutation.glue (identity 2)).check g = .error (.unknownNode 5) := by decide +kernel
  have hinput : (Mutation.addInputAt 1).check g = .error (.terminal 1 .hasParents) := by
    decide +kernel
  exact ⟨by decide +kernel, hanswer.trans hglue, hkept _ (hanswer.trans hglue),
    hanswer'.trans hinput, hkept' _ (hanswer'.trans hinput)⟩

end Machine

end Diagram

end Wiring
