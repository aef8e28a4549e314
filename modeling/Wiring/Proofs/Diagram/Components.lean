import Mathlib.Data.List.Sort
import Wiring.Proofs.Diagram.Arrow
import Wiring.Proofs.Diagram.Floods
import Wiring.Proofs.Diagram.Walks

/-!
# Components are what edges join

A flood from a seed over nodes that have no index yet reaches the nodes that edges join to the seed,
whichever way the edges lead. It gives all of them its index and changes no other one, because what
an earlier flood has reached is not joined to the seed. So after any number of floods two nodes have
the same index if they are joined, and the order of the seeds is no longer visible once the indices
are replaced by the positions of the smallest nodes.

## Main definitions

- `Diagram.Joined` — nodes between which edges lead, in either direction
- `Diagram.Flooding` — what holds while a flood goes on
- `Diagram.Flooded` — what holds between two floods
- `Diagram.Numbered` — the number of a component is the position of its smallest node

## Main statements

- `Diagram.Flooding.spread`, `Diagram.Flooding.exists_floodFrom` — one round of a flood, and all
- `Diagram.Flooded.flood`, `Diagram.Flooded.exists_floodSeeds` — one flood, and all
- `Diagram.Numbered.unique` — there is one way to number the components
- `Diagram.Coherent.components_are_connected` — the components found from any seeds
-/

namespace Wiring.Diagram

open scoped Unlimited

variable {α : Type} {g : Diagram α} {seed index count i u v w : Nat} {stack rest seeds : List Nat}
  {dry : IdMap (Node α)} {before component numbering numbering' : IdMap Nat}
  {heads heads' : List Nat}

/-! ## Joined nodes -/

/-- **Joined nodes**: edges lead from one to the other, where each may be followed in either
    direction. -/
def Joined (g : Diagram α) : Nat → Nat → Prop := Relation.ReflTransGen (Relation.SymmGen g.Edge)

namespace Joined

theorem symm (h : g.Joined u v) : g.Joined v u :=
  Std.Symm.symm (r := Relation.ReflTransGen (Relation.SymmGen g.Edge)) u v h

theorem trans (h : g.Joined u v) (h' : g.Joined v w) : g.Joined u w :=
  Relation.ReflTransGen.trans h h'

end Joined

namespace Coherent

variable (hg : g.Coherent)
include hg

/-- The neighbours that a node has recorded are the nodes at the other end of its edges. -/
theorem symmGen_edge_iff {n : Node α} (hn : g.node? u = some n) :
    Relation.SymmGen g.Edge u v ↔ v ∈ n.children.keys ++ n.parents.keys := by
  show g.Edge u v ∨ g.Edge v u ↔ v ∈ n.neighbours .both
  rw [← hg.step_children_iff, ← hg.step_parents_iff, ← step_both_iff, step_iff hn]

theorem contains_of_symmGen (h : Relation.SymmGen g.Edge u v) : g.contains v = true := by
  rcases h with h | h
  · exact hg.contains_of_mem_below h
  · exact Diagram.contains_of_mem_below h

theorem contains_of_joined (hu : g.contains u = true) (h : g.Joined u v) :
    g.contains v = true := by
  rcases Relation.ReflTransGen.cases_tail h with rfl | ⟨w, -, hstep⟩
  · exact hu
  · exact hg.contains_of_symmGen hstep

end Coherent

/-! ## One flood -/

/-- **What holds while a flood goes on.** The stack lists nodes that have the index of the flood,
    each once. Indices have been given to nodes that are joined to the seed, and the neighbours of
    one that has left the stack have theirs. Nodes that have no index or are on the stack are
    dry. -/
structure Flooding (g : Diagram α) (seed index : Nat) (before : IdMap Nat) (dry : IdMap (Node α))
    (stack : List Nat) (component : IdMap Nat) : Prop where
  nodup : stack.Nodup
  stacked : ∀ v ∈ stack, component.contains v = true ∧ g.Joined seed v
  seeded : component.contains seed = true
  given : ∀ v, component.get? v = before.get? v ∨
    g.Joined seed v ∧ component.get? v = some index
  closed : ∀ u, g.Joined seed u → component.contains u = true → u ∉ stack →
    ∀ v, Relation.SymmGen g.Edge u v → component.contains v = true
  dry : ∀ v, component.contains v = false ∨ v ∈ stack → dry.get? v = g.node? v

theorem flooding_start (hfresh : ∀ v, g.Joined seed v → before.contains v = false) :
    Flooding g seed index before g.nodes [seed] (before.insert seed index) where
  nodup := List.nodup_singleton seed
  stacked v hv := by
    obtain rfl := List.mem_singleton.1 hv
    exact ⟨by simp [IdMap.contains_insert], .refl⟩
  seeded := by simp [IdMap.contains_insert]
  given v := by
    rw [IdMap.get?_insert]
    split
    · rename_i hv
      rw [hv]
      exact .inr ⟨.refl, rfl⟩
    · exact .inl rfl
  closed u hu hc hnot := by
    rw [IdMap.contains_insert, hfresh u hu, Bool.or_false, beq_iff_eq] at hc
    exact absurd (List.mem_singleton.2 hc) hnot
  dry v _ := rfl

namespace Flooding

section Spread

-- in a round the top of the stack floods its neighbours; those found anew are stacked in its place
variable {neighbours fresh : List Nat} {component' : IdMap Nat}
  (h : Flooding g seed index before dry (u :: rest) component)
  (hedge : ∀ v, Relation.SymmGen g.Edge u v ↔ v ∈ neighbours)
  (hflows : Flows index component component' neighbours fresh)
include h

theorem contains_top : component.contains u = true := (h.stacked u List.mem_cons_self).1

theorem contains_of_mem_rest (hv : v ∈ rest) : component.contains v = true :=
  (h.stacked v (List.mem_cons_of_mem u hv)).1

include hedge in
theorem joined_neighbour (hv : v ∈ neighbours) : g.Joined seed v :=
  (h.stacked u List.mem_cons_self).2.tail ((hedge v).2 hv)

include hflows

theorem nodup_spread : (fresh ++ rest).Nodup :=
  hflows.nodup.append (List.nodup_cons.1 h.nodup).2 fun v hv hv' => by
    have hc := h.contains_of_mem_rest hv'
    rw [((hflows.mem_fresh v).1 hv).2] at hc
    cases hc

/-- The node has left the stack for good. -/
theorem dry_spread (hv : component'.contains v = false ∨ v ∈ fresh ++ rest) :
    (dry.erase u).get? v = g.node? v := by
  have hv' : component.contains v = false ∨ v ∈ rest := by
    rcases hv with hv | hv
    · rw [← Bool.not_eq_true, hflows.contains_iff, not_or, Bool.not_eq_true] at hv
      exact .inl hv.2
    · exact (List.mem_append.1 hv).imp_left fun hv => ((hflows.mem_fresh v).1 hv).2
  have hne : v ≠ u := by
    rintro rfl
    rcases hv' with hv' | hv'
    · rw [h.contains_top] at hv'
      cases hv'
    · exact (List.nodup_cons.1 h.nodup).1 hv'
  rw [IdMap.get?_erase, if_neg hne]
  exact h.dry v (hv'.imp_right (List.mem_cons_of_mem u))

include hedge

theorem stacked_spread (hv : v ∈ fresh ++ rest) :
    component'.contains v = true ∧ g.Joined seed v := by
  rcases List.mem_append.1 hv with hv | hv
  · have hnew := ((hflows.mem_fresh v).1 hv).1
    exact ⟨hflows.contains_iff.2 (.inl hnew), h.joined_neighbour hedge hnew⟩
  · exact ⟨hflows.contains_iff.2 (.inr (h.contains_of_mem_rest hv)),
      (h.stacked v (List.mem_cons_of_mem u hv)).2⟩

theorem given_spread (v : Nat) :
    component'.get? v = before.get? v ∨ g.Joined seed v ∧ component'.get? v = some index := by
  rw [hflows.get?]
  split
  · rename_i hv
    exact .inr ⟨h.joined_neighbour hedge hv, rfl⟩
  · exact h.given v

/-- A node that has an index and is not stacked had both before, or is the one that was on top. -/
theorem closed_spread (hw : g.Joined seed w) (hc : component'.contains w = true)
    (hnot : w ∉ fresh ++ rest) (hv : Relation.SymmGen g.Edge w v) :
    component'.contains v = true := by
  rw [List.mem_append, not_or, hflows.mem_fresh] at hnot
  by_cases hwu : w = u
  · subst hwu
    exact hflows.contains_iff.2 (.inl ((hedge v).1 hv))
  · have hc' : component.contains w = true := by
      by_contra hc'
      rcases hflows.contains_iff.1 hc with hnew | hold
      · exact hnot.1 ⟨hnew, Bool.eq_false_iff.2 hc'⟩
      · exact hc' hold
    refine hflows.contains_iff.2 (.inr (h.closed w hw hc' ?_ v hv))
    exact fun hmem => (List.mem_cons.1 hmem).elim hwu hnot.2

/-- **One round keeps the invariant.** -/
theorem spread : Flooding g seed index before (dry.erase u) (fresh ++ rest) component' where
  nodup := h.nodup_spread hflows
  stacked _ := h.stacked_spread hedge hflows
  seeded := hflows.contains_iff.2 (.inr h.seeded)
  given := h.given_spread hedge hflows
  closed _ hw hc hnot _ := h.closed_spread hedge hflows hw hc hnot
  dry _ := h.dry_spread hflows

end Spread

/-- **A flood ends**, with all that was to be kept and nothing stacked. -/
theorem exists_floodFrom (hg : g.Coherent) (hseed : g.contains seed = true)
    (h : Flooding g seed index before dry stack component) : ∃ dry' final,
      floodFrom index dry stack component = .ok final ∧
      Flooding g seed index before dry' [] final := by
  fun_induction floodFrom index dry stack component with
  | case1 dry component => exact ⟨dry, component, rfl, h⟩
  | case2 dry component u rest hn =>
    obtain ⟨n, hn'⟩ := contains_iff.1
      (hg.contains_of_joined hseed (h.stacked u List.mem_cons_self).2)
    rw [h.dry u (.inr List.mem_cons_self), hn'] at hn
    cases hn
  | case3 dry component u rest n hn stack' component' hfold ih =>
    have hn' := hn
    rw [h.dry u (.inr List.mem_cons_self)] at hn'
    obtain ⟨fresh, final, heq, hflows⟩ :=
      exists_flows index (n.children.keys ++ n.parents.keys) rest component
    rw [hfold, Prod.mk.injEq] at heq
    obtain ⟨rfl, rfl⟩ := heq
    exact ih (h.spread (fun v => hg.symmGen_edge_iff hn') hflows)

end Flooding

/-- **A flood gives its index** to the nodes that are joined to the seed, and to no other one. -/
theorem Coherent.exists_floodFrom (hg : g.Coherent) (index : Nat) (hseed : g.contains seed = true)
    (hfresh : ∀ v, g.Joined seed v → before.contains v = false) :
    ∃ final, floodFrom index g.nodes [seed] (before.insert seed index) = .ok final ∧
      (∀ v, g.Joined seed v → final.get? v = some index) ∧
      ∀ v, ¬g.Joined seed v → final.get? v = before.get? v := by
  have hstart : Flooding g seed index before g.nodes [seed] (before.insert seed index) :=
    flooding_start hfresh
  obtain ⟨dry, final, hfinal, h⟩ := hstart.exists_floodFrom hg hseed
  have hreached {v : Nat} (hv : g.Joined seed v) : final.contains v = true := by
    induction hv with
    | refl => exact h.seeded
    | tail hu hstep ih => exact h.closed _ hu ih List.not_mem_nil _ hstep
  refine ⟨final, hfinal, fun v hv => ?_, fun v hv => ?_⟩
  · rcases h.given v with hsame | ⟨-, hindex⟩
    · have hcontains := hreached hv
      rw [IdMap.contains, hsame, ← IdMap.contains, hfresh v hv] at hcontains
      cases hcontains
    · exact hindex
  · exact (h.given v).resolve_right fun hgiven => hv hgiven.1

/-! ## One flood after the other -/

/-- **What holds between two floods**: as many indices are in use as there were floods, and two
    nodes have the same one if they are joined. -/
structure Flooded (g : Diagram α) (count : Nat) (component : IdMap Nat) : Prop where
  contains : ∀ v, component.contains v = true → g.contains v = true
  same : ∀ u i, component.get? u = some i → ∀ v, component.get? v = some i ↔ g.Joined u v
  used : ∀ i, i < count ↔ ∃ v, component.get? v = some i

theorem flooded_start (g : Diagram α) : Flooded g 0 IdMap.empty where
  contains v hv := by cases hv
  same u i hu := by cases hu
  used i := by simp

namespace Flooded

variable (h : Flooded g count component)
include h

/-- Floods never run into each other. -/
theorem not_contains (hseed : component.contains seed = false) (hv : g.Joined seed v) :
    component.contains v = false := by
  by_contra hc
  rw [Bool.not_eq_false] at hc
  obtain ⟨i, hi⟩ := IdMap.contains_iff.1 hc
  rw [IdMap.contains, (h.same v i hi seed).2 hv.symm] at hseed
  cases hseed

section Flood

-- a flood from a seed without an index gives the nodes joined to it the index `count`
variable {final : IdMap Nat} (hseed : component.contains seed = false)
  (hjoined : ∀ v, g.Joined seed v → final.get? v = some count)
  (hother : ∀ v, ¬g.Joined seed v → final.get? v = component.get? v)
include hother

include hseed in
theorem get?_of_contains (hv : component.contains v = true) :
    final.get? v = component.get? v :=
  hother v fun hjoin => by
    rw [h.not_contains hseed hjoin] at hv
    cases hv

include hjoined

/-- The index `count` is new, so it is shared by the nodes joined to the seed alone. -/
theorem get?_eq_count_iff : final.get? v = some count ↔ g.Joined seed v := by
  refine ⟨fun hv => ?_, hjoined v⟩
  by_contra hv'
  rw [hother v hv'] at hv
  exact absurd ((h.used count).2 ⟨v, hv⟩) (Nat.lt_irrefl _)

theorem same_flood (hu : final.get? u = some i) (v : Nat) :
    final.get? v = some i ↔ g.Joined u v := by
  by_cases hi : i = count
  · subst hi
    rw [h.get?_eq_count_iff hjoined hother] at hu ⊢
    exact ⟨hu.symm.trans, hu.trans⟩
  · have hu' : ¬g.Joined seed u := fun hjoin => by
      rw [hjoined u hjoin, Option.some.injEq] at hu
      exact hi hu.symm
    by_cases hv : g.Joined seed v
    · rw [hjoined v hv, Option.some.injEq]
      exact iff_of_false (Ne.symm hi) fun hjoin => hu' (hv.trans hjoin.symm)
    · rw [hother u hu'] at hu
      rw [hother v hv]
      exact h.same u i hu v

include hseed

theorem used_flood (i : Nat) : i < count + 1 ↔ ∃ v, final.get? v = some i := by
  rw [Nat.lt_succ_iff_lt_or_eq, h.used]
  constructor
  · rintro (⟨v, hv⟩ | rfl)
    · exact ⟨v, (h.get?_of_contains hseed hother (IdMap.contains_iff.2 ⟨i, hv⟩)).trans hv⟩
    · exact ⟨seed, hjoined seed .refl⟩
  · rintro ⟨v, hv⟩
    by_cases hv' : g.Joined seed v
    · rw [hjoined v hv', Option.some.injEq] at hv
      exact .inr hv.symm
    · exact .inl ⟨v, (hother v hv').symm.trans hv⟩

end Flood

/-- **One flood more** from a node that has no index. -/
theorem flood (hg : g.Coherent) (hseed : g.contains seed = true)
    (hnew : component.contains seed = false) :
    ∃ final, floodFrom count g.nodes [seed] (component.insert seed count) = .ok final ∧
      Flooded g (count + 1) final ∧ final.contains seed = true ∧
      ∀ v, component.contains v = true → final.contains v = true := by
  obtain ⟨final, hfinal, hjoined, hother⟩ :=
    hg.exists_floodFrom count hseed fun v => h.not_contains hnew
  refine ⟨final, hfinal, ⟨fun v hv => ?_, fun u i => h.same_flood hjoined hother,
    h.used_flood hnew hjoined hother⟩, ?_, fun v hv => ?_⟩
  · by_cases hv' : g.Joined seed v
    · exact hg.contains_of_joined hseed hv'
    · rw [IdMap.contains, hother v hv'] at hv
      exact h.contains v hv
  · exact IdMap.contains_iff.2 ⟨count, hjoined seed .refl⟩
  · rw [IdMap.contains, h.get?_of_contains hnew hother hv]
    exact hv

omit h in
/-- **Floods from all seeds** reach each seed that is a node. -/
theorem exists_floodSeeds (hg : g.Coherent) (h : Flooded g count component) (seeds : List Nat) :
    ∃ count' final, g.floodSeeds seeds count component = .ok (count', final) ∧
      Flooded g count' final ∧ (∀ v, component.contains v = true → final.contains v = true) ∧
      ∀ v ∈ seeds, g.contains v = true → final.contains v = true := by
  induction seeds generalizing count component with
  | nil => exact ⟨count, component, rfl, h, fun v hv => hv, fun v hv => nomatch hv⟩
  | cons seed seeds ih =>
    rw [floodSeeds]
    split
    · rename_i hskip
      rw [Bool.or_eq_true, Bool.not_eq_true'] at hskip
      obtain ⟨count', final, hfinal, hflooded, hkept, hseeds⟩ := ih h
      refine ⟨count', final, hfinal, hflooded, hkept, List.forall_mem_cons.2 ⟨fun hc => ?_, hseeds⟩⟩
      refine hkept seed (hskip.resolve_right ?_)
      rw [hc]
      exact Bool.noConfusion
    · rename_i hflood
      rw [Bool.or_eq_true, not_or, Bool.not_eq_true, Bool.not_eq_true', Bool.not_eq_false] at hflood
      obtain ⟨next, hnext, hflooded, hseed, hkept⟩ := h.flood hg hflood.2 hflood.1
      rw [hnext]
      obtain ⟨count', final, hfinal, hflooded', hkept', hseeds⟩ := ih hflooded
      exact ⟨count', final, hfinal, hflooded', fun v hv => hkept' v (hkept v hv),
        List.forall_mem_cons.2 ⟨fun _ => hkept' seed hseed, hseeds⟩⟩

end Flooded

/-! ## The numbers of components -/

/-- **Components numbered by their smallest nodes.** The heads are the nodes that are joined to no
    smaller one, in ascending order, and the nodes that are joined to the `i`-th head get the
    number `i`. -/
structure Numbered (g : Diagram α) (heads : List Nat) (numbering : IdMap Nat) : Prop where
  ascending : heads.Pairwise (· < ·)
  mem_heads : ∀ h, h ∈ heads ↔ g.contains h = true ∧ ∀ v, g.Joined h v → h ≤ v
  number : ∀ v i, numbering.get? v = some i ↔ ∃ h, heads[i]? = some h ∧ g.Joined h v

namespace Numbered

/-- Nothing is left to choose, so it does not matter from where the floods have started. -/
theorem unique (h : g.Numbered heads numbering) (h' : g.Numbered heads' numbering') :
    heads = heads' ∧ numbering = numbering' := by
  obtain rfl : heads = heads' := h.ascending.eq_of_mem_iff h'.ascending fun v => by
    rw [h.mem_heads, h'.mem_heads]
  refine ⟨rfl, IdMap.ext fun v => Option.ext fun i => ?_⟩
  rw [h.number, h'.number]

variable (h : g.Numbered heads numbering)
include h

/-- The smallest node of a component stands for it. -/
theorem get?_head (hi : heads[i]? = some u) : numbering.get? u = some i :=
  (h.number u i).2 ⟨u, hi, .refl⟩

theorem lt_length_iff : i < heads.length ↔ ∃ v, numbering.get? v = some i := by
  constructor
  · exact fun hi => ⟨heads[i], h.get?_head (List.getElem?_eq_getElem hi)⟩
  · rintro ⟨v, hv⟩
    obtain ⟨u, hu, -⟩ := (h.number v i).1 hv
    exact (List.getElem?_eq_some_iff.1 hu).1

theorem same (hu : numbering.get? u = some i) : numbering.get? v = some i ↔ g.Joined u v := by
  obtain ⟨w, hw, hwu⟩ := (h.number u i).1 hu
  constructor
  · intro hv
    obtain ⟨w', hw', hwv⟩ := (h.number v i).1 hv
    obtain rfl : w = w' := Option.some.inj (hw.symm.trans hw')
    exact hwu.symm.trans hwv
  · exact fun hjoin => (h.number v i).2 ⟨w, hw, hwu.trans hjoin⟩

variable (hg : g.Coherent)
include hg

/-- All nodes are numbered, and nothing else is. -/
theorem contains_eq : numbering.contains v = g.contains v := by
  rw [Bool.eq_iff_iff, IdMap.contains_iff]
  constructor
  · rintro ⟨i, hi⟩
    obtain ⟨u, hu, hjoin⟩ := (h.number v i).1 hi
    exact hg.contains_of_joined ((h.mem_heads u).1 (List.mem_of_getElem? hu)).1 hjoin
  · intro hv
    -- of the nodes that are joined to this one the smallest is a head
    classical
    have hex : ∃ u, g.Joined v u := ⟨v, .refl⟩
    have hjoin : g.Joined v (Nat.find hex) := Nat.find_spec hex
    have hhead : Nat.find hex ∈ heads := (h.mem_heads _).2
      ⟨hg.contains_of_joined hv hjoin, fun w hw => Nat.find_le (hjoin.trans hw)⟩
    obtain ⟨i, hi⟩ := List.mem_iff_getElem?.1 hhead
    exact ⟨i, (h.number v i).2 ⟨_, hi, hjoin.symm⟩⟩

theorem get?_eq_iff_joined (hu : g.contains u = true) :
    numbering.get? u = numbering.get? v ↔ g.Joined u v := by
  obtain ⟨i, hi⟩ := IdMap.contains_iff.1 ((h.contains_eq hg).trans hu)
  rw [hi, eq_comm]
  exact h.same hi

end Numbered

/-- Once all nodes have an index, the numbers by order of appearance number the components. -/
theorem Flooded.exists_numbered (h : Flooded g count component)
    (hall : ∀ v, g.contains v = true → component.contains v = true) :
    ∃ heads, count = heads.length ∧ g.Numbered heads (canonicalNumbering component) := by
  obtain ⟨heads, hascending, hlength, hleast, hnumber⟩ := exists_canonicalNumbering component
  have hsame {u v : Nat} : (∃ c, component.get? u = some c ∧ component.get? v = some c) ↔
      component.contains u = true ∧ g.Joined u v := by
    rw [IdMap.contains_iff, ← exists_and_right]
    exact exists_congr fun c => and_congr_right fun hu => h.same u c hu v
  have hjoined {u v : Nat} (hu : u ∈ heads) (hjoin : g.Joined u v) : u ≤ v := by
    obtain ⟨c, hc, hle⟩ := hleast u hu
    exact hle v ((h.same u c hc v).2 hjoin)
  have hindexed {u : Nat} (hu : u ∈ heads) : component.contains u = true := by
    obtain ⟨c, hc, -⟩ := hleast u hu
    exact IdMap.contains_iff.2 ⟨c, hc⟩
  refine ⟨heads, ?_, hascending, fun u => ⟨fun hu => ?_, fun ⟨hu, hmin⟩ => ?_⟩, fun v i => ?_⟩
  · have hperm : component.values.eraseDups.Perm (List.range count) := by
      refine (List.perm_ext_iff_of_nodup (nodup_eraseDups _) List.nodup_range).2 fun i => ?_
      rw [List.mem_eraseDups, IdMap.mem_values_iff, List.mem_range, h.used]
    rw [hlength, hperm.length_eq, List.length_range]
  · exact ⟨h.contains u (hindexed hu), fun v hjoin => hjoined hu hjoin⟩
  · obtain ⟨c, hc⟩ := IdMap.contains_iff.1 (hall u hu)
    obtain ⟨i, hi⟩ : ∃ i, (canonicalNumbering component).get? u = some i :=
      ⟨component.values.eraseDups.idxOf c, by rw [canonicalNumbering, IdMap.get?_map, hc]; rfl⟩
    obtain ⟨w, hw, hcommon⟩ := (hnumber u i).1 hi
    have hwu := (hsame.1 hcommon).2
    obtain rfl : w = u :=
      Nat.le_antisymm (hjoined (List.mem_of_getElem? hw) hwu) (hmin w hwu.symm)
    exact List.mem_of_getElem? hw
  · rw [hnumber]
    refine exists_congr fun w => and_congr_right fun hw => ?_
    rw [hsame, and_iff_right (hindexed (List.mem_of_getElem? hw))]

/-- **The components found from any seeds that cover the nodes.** -/
theorem Coherent.exists_componentsFrom (hg : g.Coherent)
    (hseeds : ∀ v, g.contains v = true → v ∈ seeds) :
    ∃ heads numbering, g.componentsFrom seeds = .ok (heads.length, numbering) ∧
      g.Numbered heads numbering := by
  obtain ⟨count, component, hfloods, hflooded, -, hall⟩ :=
    (flooded_start g).exists_floodSeeds hg seeds
  obtain ⟨heads, rfl, hnumbered⟩ :=
    hflooded.exists_numbered fun v hv => hall v (hseeds v hv) hv
  refine ⟨heads, _, ?_, hnumbered⟩
  rw [componentsFrom, hfloods]
  rfl

theorem Coherent.exists_connectedComponents (hg : g.Coherent) :
    ∃ heads numbering, g.connectedComponents = .ok (heads.length, numbering) ∧
      g.Numbered heads numbering :=
  hg.exists_componentsFrom fun _ => mem_ids.2

/-- **Components are what edges join.** Whatever seeds the floods start from, repeated ones and
    unknown ones among them, as long as no node is missing: every node gets a number, and nothing
    else does; two nodes have the same number exactly if a way leads from one to the other along
    edges in either direction; the numbers are those below the number of components; and the
    component with the number `i` is the one whose smallest node is the `i`-th smallest of these.
    All such seeds give the same answer. -/
theorem Coherent.components_are_connected (hg : g.Coherent)
    (hseeds : ∀ v, g.contains v = true → v ∈ seeds) :
    ∃ count numbering, g.componentsFrom seeds = .ok (count, numbering) ∧
      (∀ v, numbering.contains v = g.contains v) ∧
      (∀ u v, g.contains u = true → g.contains v = true →
        (numbering.get? u = numbering.get? v ↔ g.Joined u v)) ∧
      (∀ i, i < count ↔ ∃ v, numbering.get? v = some i) ∧
      (∃ heads : List Nat, heads.length = count ∧ heads.Pairwise (· < ·) ∧
        (∀ h, h ∈ heads ↔ g.contains h = true ∧ ∀ v, g.Joined h v → h ≤ v) ∧
        ∀ i h, heads[i]? = some h → numbering.get? h = some i) ∧
      ∀ seeds', (∀ v, g.contains v = true → v ∈ seeds') →
        g.componentsFrom seeds' = g.componentsFrom seeds := by
  obtain ⟨heads, numbering, hok, hnumbered⟩ := hg.exists_componentsFrom hseeds
  refine ⟨heads.length, numbering, hok, fun v => hnumbered.contains_eq hg,
    fun u v hu _ => hnumbered.get?_eq_iff_joined hg hu, fun i => hnumbered.lt_length_iff,
    ⟨heads, rfl, hnumbered.ascending, hnumbered.mem_heads, fun i h => hnumbered.get?_head⟩,
    fun seeds' hseeds' => ?_⟩
  obtain ⟨heads', numbering', hok', hnumbered'⟩ := hg.exists_componentsFrom hseeds'
  obtain ⟨rfl, rfl⟩ := hnumbered'.unique hnumbered
  rw [hok, hok']

/-- Three components: a wire with a loop, two nodes in a circle, and a node on its own. -/
def islands : Diagram Nat :=
  ofNodes [0] [4]
    [.ofEdges 0 9 [] [(5, 1)], .ofEdges 1 5 [(3, 1)] [(3, 2)], .ofEdges 2 5 [] [],
      .ofEdges 3 5 [(1, 2)] [(1, 1)], .ofEdges 4 9 [(5, 1)] [],
      .ofEdges 5 5 [(0, 1), (5, 1)] [(4, 1), (5, 1)]]

theorem components_are_connected_islands :
    islands.componentsFrom [3, 9, 5, 5, 2, 0, 1, 4] =
      .ok (3, IdMap.ofList [(0, 0), (1, 1), (2, 2), (3, 1), (4, 0), (5, 0)]) ∧
      islands.componentsFrom islands.ids = islands.componentsFrom [3, 9, 5, 5, 2, 0, 1, 4] ∧
      islands.Joined 0 4 ∧ ¬islands.Joined 0 3 := by
  have harrow : islands.IsArrow := by decide +kernel
  have hids : islands.ids = [0, 1, 2, 3, 4, 5] := by decide +kernel
  have hcover (v : Nat) (hv : islands.contains v = true) : v ∈ [3, 9, 5, 5, 2, 0, 1, 4] := by
    rw [← mem_ids, hids] at hv
    simp only [List.mem_cons, List.not_mem_nil, or_false] at hv ⊢
    omega
  have hanswer : islands.componentsFrom [3, 9, 5, 5, 2, 0, 1, 4] =
      .ok (3, IdMap.ofList [(0, 0), (1, 1), (2, 2), (3, 1), (4, 0), (5, 0)]) := by decide +kernel
  obtain ⟨count, numbering, hok, -, hjoined, -, -, hsame⟩ :=
    harrow.coherent.components_are_connected hcover
  rw [hanswer, Except.ok.injEq, Prod.mk.injEq] at hok
  obtain ⟨rfl, rfl⟩ := hok
  have hnode : ∀ v < 6, islands.contains v = true := by decide
  refine ⟨hanswer, hsame _ fun v hv => mem_ids.2 hv, ?_, fun hjoin => ?_⟩
  · exact (hjoined 0 4 (hnode 0 (by decide)) (hnode 4 (by decide))).1 (by decide)
  · exact absurd ((hjoined 0 3 (hnode 0 (by decide)) (hnode 3 (by decide))).2 hjoin) (by decide)

end Wiring.Diagram
