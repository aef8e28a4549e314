import Wiring.Proofs.Diagram.Mutations
import Wiring.Saved.Form

/-!
# The ids of new nodes

A new node goes under the next id, whatever is stored there. The check of a diagram does not look at
the next id, and one that was loaded may have any: then a new node takes the place of another. It
does not in diagrams that were made of nodes, nor in any that come about from these by calls.

## Main definitions

- `Diagram.GivesNewId` — a new node takes nobody's place
- `Diagram.afterAdding` — what many calls for new nodes leave

## Main statements

- `Diagram.givesNewId_iff` — the next new node takes nobody's place if the next id is not in use
- `Diagram.givesNewId_afterAdding_iff` — no later one does if all ids in use are below the next
- `Diagram.idsBelow_ofNodes` — as they are in diagrams made of nodes
- `Diagram.new_ids_and_check` — all of this, of which the check tells nothing
-/

namespace Wiring

namespace Diagram

section Words

variable [Words] {α : Type} {g h : Diagram α} {k : Nat}

/-- **A new node takes nobody's place.** Its id, if it is given one, was not in use, and all nodes
    that were there are there, with their labels. -/
def GivesNewId (g : Diagram α) : Prop :=
  ∀ label ps cs id h, (Edit.addNode label ps cs).runOn g = (.ok id, h) →
    g.contains id = false ∧
      ∀ k, g.contains k = true → h.contains k = true ∧ h.label? k = g.label? k

/-- The diagram after calls for new nodes, each with a label, parents and children, some of which
    may have been refused. -/
def afterAdding (g : Diagram α) (calls : List (α × List Nat × List Nat)) : Diagram α :=
  calls.foldl (fun g call => ((Edit.addNode call.1 call.2.1 call.2.2).runOn g).2) g

theorem afterAdding_cons (call : α × List Nat × List Nat)
    (calls : List (α × List Nat × List Nat)) : g.afterAdding (call :: calls) =
      (((Edit.addNode call.1 call.2.1 call.2.2).runOn g).2).afterAdding calls := rfl

omit [Words] in
theorem hosts_nil (g : Diagram α) : g.Hosts [] [] := ⟨by simp, by simp⟩

/-! ## One call -/

/-- What a new node that is not refused leaves: at most the node that had its id is gone. -/
theorem of_runOn_addNode {label : α} {ps cs : List Nat} {id : Nat}
    (hrun : (Edit.addNode label ps cs).runOn g = (.ok id, h)) :
    id = g.nextId ∧ h.label? id = some label ∧
      ∀ k, k ≠ id → g.contains k = true → h.contains k = true ∧ h.label? k = g.label? k := by
  rw [Edit.runOn_addNode (Edit.hosts_of_runOn_addNode hrun), Prod.mk.injEq] at hrun
  obtain ⟨hid, rfl⟩ := hrun
  cases hid
  refine ⟨rfl, ?_, fun k hne hk => ⟨?_, ?_⟩⟩
  · rw [label?_attach, if_pos rfl]
  · rw [contains_attach, hk, Bool.true_or]
  · rw [label?_attach, if_neg hne]

/-- **The next new node takes nobody's place** exactly if the next id is not in use. -/
theorem givesNewId_iff : g.GivesNewId ↔ g.contains g.nextId = false := by
  constructor
  · intro hgives
    by_contra hused
    -- a node without edges is never refused
    obtain ⟨n, hn⟩ := contains_iff.1 (Bool.not_eq_false _ ▸ hused)
    have hnew := (hgives n.label [] [] _ _ (Edit.runOn_addNode g.hosts_nil)).1
    exact hused hnew
  · intro hnew label ps cs id h hrun
    obtain ⟨rfl, -, hkept⟩ := of_runOn_addNode hrun
    refine ⟨hnew, fun k hk => hkept k ?_ hk⟩
    rintro rfl
    rw [hnew] at hk
    cases hk

theorem IdsBelow.givesNewId (hg : g.IdsBelow) : g.GivesNewId :=
  givesNewId_iff.2 (hg.not_contains (Nat.le_refl _))

/-- The next id, once a node has been added that words have an id to follow. -/
theorem nextId_attach_of_holds {label : α} {ps cs : List Nat}
    (hnext : Words.Holds (g.nextId + 1)) : (g.attach label ps cs).nextId = g.nextId + 1 := by
  rw [Roomy.attach_eq_place hnext, nextId_joinAll, nextId_joinAll]
  rfl

/-- As long as words hold the next id, a call leaves all ids below it. -/
theorem IdsBelow.runOn_addNode (hg : g.IdsBelow) (hnext : Words.Holds (g.nextId + 1)) (label : α)
    (ps cs : List Nat) : ((Edit.addNode label ps cs).runOn g).2.IdsBelow ∧
      ((Edit.addNode label ps cs).runOn g).2.nextId ≤ g.nextId + 1 := by
  refine Edit.leaves_addNode (fun h => h.IdsBelow ∧ h.nextId ≤ g.nextId + 1)
    ⟨hg, Nat.le_succ _⟩ fun _ => ⟨fun k hk => ?_, ?_⟩
  · rw [nextId_attach_of_holds hnext]
    rw [contains_attach, Bool.or_eq_true, beq_iff_eq] at hk
    rcases hk with hk | rfl
    · exact Nat.lt_succ_of_lt (hg k hk)
    · exact Nat.lt_succ_self _
  · rw [nextId_attach_of_holds hnext]

/-! ## All calls -/

theorem IdsBelow.afterAdding (hg : g.IdsBelow) (calls : List (α × List Nat × List Nat))
    (hroom : Words.Holds (g.nextId + calls.length)) : (g.afterAdding calls).IdsBelow := by
  induction calls generalizing g with
  | nil => exact hg
  | cons call calls ih =>
    rw [List.length_cons] at hroom
    obtain ⟨hstep, hnext⟩ := hg.runOn_addNode (hroom.mono (by omega)) call.1 call.2.1 call.2.2
    refine ih hstep (hroom.mono ((Nat.add_le_add_right hnext calls.length).trans ?_))
    omega

/-- An id in use that is not below the next one is given out some day, if words hold it. -/
theorem exists_not_givesNewId (d : Nat) (hheld : Words.Holds (g.nextId + d))
    (hk : g.contains (g.nextId + d) = true) :
    ∃ calls, calls.length = d ∧ ¬(g.afterAdding calls).GivesNewId := by
  induction d generalizing g with
  | zero =>
    refine ⟨[], rfl, fun hgives => ?_⟩
    have hnew := givesNewId_iff.1 hgives
    rw [show g.afterAdding [] = g from rfl, ← Nat.add_zero g.nextId, hk] at hnew
    cases hnew
  | succ d ih =>
    obtain ⟨n, -⟩ := contains_iff.1 hk
    have hnext : (g.attach n.label [] []).nextId + d = g.nextId + (d + 1) := by
      rw [nextId_attach_of_holds (hheld.mono (by omega)), Nat.add_assoc, Nat.add_comm 1 d]
    have hstep :
        (g.attach n.label [] []).contains ((g.attach n.label [] []).nextId + d) = true := by
      rw [hnext, contains_attach, hk, Bool.true_or]
    obtain ⟨calls, hlength, hcalls⟩ := ih (hnext ▸ hheld) hstep
    refine ⟨(n.label, [], []) :: calls, by rw [List.length_cons, hlength], ?_⟩
    rwa [afterAdding_cons, Edit.runOn_addNode g.hosts_nil]

/-- **No new node ever takes another's place**, while words hold the ids, exactly if all ids in use
    are below the next. -/
theorem givesNewId_afterAdding_iff (hids : ∀ k, g.contains k = true → Words.Holds k) :
    (∀ calls : List (α × List Nat × List Nat), Words.Holds (g.nextId + calls.length) →
      (g.afterAdding calls).GivesNewId) ↔ g.IdsBelow := by
  constructor
  · intro hgives k hk
    by_contra hle
    obtain ⟨d, rfl⟩ := Nat.exists_eq_add_of_le (Nat.le_of_not_lt hle)
    obtain ⟨calls, rfl, hcalls⟩ := exists_not_givesNewId d (hids _ hk) hk
    exact hcalls (hgives calls (hids _ hk))
  · exact fun hg calls hroom => (hg.afterAdding calls hroom).givesNewId

theorem exists_of_contains_ofNodes {inputs outputs : List Nat} {nodes : List (Node α)}
    (hk : (ofNodes inputs outputs nodes).contains k = true) : ∃ n ∈ nodes, n.id = k := by
  obtain ⟨n, hn⟩ := contains_iff.1 hk
  have hlookup : (IdMap.ofList (nodes.map fun n => (n.id, n))).get? k = some n := hn
  rw [IdMap.ofList, IdMap.get?_insertAll, IdMap.get?_empty, Option.or_none] at hlookup
  obtain ⟨before, after, hsplit, -⟩ := List.lookup_eq_some_iff.1 hlookup
  have hmem : (k, n) ∈ nodes.map fun n => (n.id, n) := by
    rw [← List.mem_reverse, hsplit]
    exact List.mem_append_right _ List.mem_cons_self
  obtain ⟨n', hn', heq⟩ := List.mem_map.1 hmem
  exact ⟨n', hn', congrArg Prod.fst heq⟩

/-- A diagram made of nodes starts above the largest id, if words hold the one that follows. -/
theorem idsBelow_ofNodes (inputs outputs : List Nat) (nodes : List (Node α))
    (hheld : ∀ n ∈ nodes, Words.Holds (n.id + 1)) : (ofNodes inputs outputs nodes).IdsBelow := by
  intro k hk
  obtain ⟨high, hhigh, hused, hmost⟩ := IdMap.exists_maxKey? hk
  have hnext : (ofNodes inputs outputs nodes).nextId =
      ((ofNodes inputs outputs nodes).nodes.maxKey?.map fun id => Words.wrap (id + 1)).getD 0 := rfl
  obtain ⟨n, hn, rfl⟩ := exists_of_contains_ofNodes hused
  rw [hnext, hhigh, Option.map_some, Option.getD_some, Words.wrap_of_holds (hheld n hn)]
  exact Nat.lt_succ_of_le (hmost k hk)

/-- **What the check tells of new ids**: nothing, as it does not look at the next one. A new node
    gets the next id, and the node that has it is lost, but no other. So the next new node takes
    nobody's place exactly if the next id is not in use, and no new node ever does, for as long as
    words hold the ids, exactly if all ids in use are below it. That holds of diagrams made of
    nodes, but a loaded one may pass the check without it. -/
theorem new_ids_and_check (g : Diagram α) :
    (∀ next, ({ g with nextId := next } : Diagram α).isWellFormed = g.isWellFormed) ∧
    (∀ label ps cs id h, (Edit.addNode label ps cs).runOn g = (.ok id, h) →
      id = g.nextId ∧ h.label? id = some label ∧
        ∀ k, k ≠ id → g.contains k = true → h.contains k = true ∧ h.label? k = g.label? k) ∧
    (g.GivesNewId ↔ g.contains g.nextId = false) ∧
    ((∀ k, g.contains k = true → Words.Holds k) →
      ((∀ calls : List (α × List Nat × List Nat), Words.Holds (g.nextId + calls.length) →
        (g.afterAdding calls).GivesNewId) ↔ g.IdsBelow)) ∧
    ∀ inputs outputs nodes, (∀ n ∈ nodes, Words.Holds (n.id + 1)) →
      (ofNodes inputs outputs nodes : Diagram α).IdsBelow :=
  ⟨fun _ => rfl, fun _ _ _ _ _ => of_runOn_addNode, givesNewId_iff, givesNewId_afterAdding_iff,
    idsBelow_ofNodes⟩

end Words

section Machine

open scoped Machine

/-- A node that feeds another, in a diagram that gives out the id of the first next. -/
def worn : Diagram String :=
  { ofNodes [] [] [.ofEdges 0 "old" [] [(1, 1)], .ofEdges 1 "" [(0, 1)] []] with nextId := 0 }

/-- It is loaded and passes the check; then a new node takes the place of the first. -/
theorem new_ids_and_check_worn :
    Diagram.load? worn.save = some worn ∧ worn.isWellFormed = true ∧
      worn.label? 0 = some "old" ∧ ¬worn.GivesNewId ∧
      ∃ h, (Edit.addNode "new" [] []).runOn worn = (.ok 0, h) ∧ h.label? 0 = some "new" ∧
        h.label? 1 = some "" ∧ h.isWellFormed = false := by
  obtain ⟨hnext, hkept, hgives, -, -⟩ := new_ids_and_check worn
  have hrun : (Edit.addNode "new" [] []).runOn worn = (.ok 0, worn.attach "new" [] []) :=
    Edit.runOn_addNode worn.hosts_nil
  obtain ⟨-, hlabel, hothers⟩ := hkept "new" [] [] 0 _ hrun
  refine ⟨by decide +kernel, ?_, by decide +kernel, fun hg => ?_, _, hrun, hlabel, ?_,
    by decide +kernel⟩
  · exact (hnext 2).symm.trans (by decide +kernel)
  · exact absurd (hgives.1 hg) (by decide +kernel)
  · exact (hothers 1 (by decide) (by decide +kernel)).2.trans (by decide +kernel)

end Machine

end Diagram

end Wiring
