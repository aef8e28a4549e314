import Wiring.Proofs.Diagram.Attachment

/-!
# Severing many pairs

Severing only takes edges away between old nodes and attaching only adds edges at new ones, so the
two can be done in any order. An edit that severs a pair and attaches nodes, pair after pair, has
the same result as severing all pairs first.

## Main statements

- `Diagram.Coherent.above_severAll`, `Diagram.Coherent.below_severAll` — the lists after severing
- `Diagram.Coherent.severAll_parents`, `Diagram.Coherent.severAll_children` — a node severed from
  all on one side
- `Diagram.Coherent.relabel_removeNode` — relabelling commutes with removing
- `Diagram.sever_attachAll` — severing commutes with attaching
- `Diagram.foldl_sever_attachAll` — alternating the two is doing one after the other
-/

namespace Wiring.Diagram

open scoped Unlimited

variable {α : Type} {g : Diagram α} {i j k s t a b c m : Nat} {label : α} {ps cs : List Nat}
  {ends : List (List Nat × List Nat)}

theorem severAll_cons (e : Nat × Nat) (pairs : List (Nat × Nat)) :
    g.severAll (e :: pairs) = (g.sever e.1 e.2).severAll pairs := rfl

@[simp] theorem contains_severAll (pairs : List (Nat × Nat)) :
    (g.severAll pairs).contains j = g.contains j := by
  induction pairs generalizing g with
  | nil => rfl
  | cons e pairs ih => rw [severAll_cons, ih, contains_sever]

@[simp] theorem label?_severAll (pairs : List (Nat × Nat)) :
    (g.severAll pairs).label? j = g.label? j := by
  induction pairs generalizing g with
  | nil => rfl
  | cons e pairs ih => rw [severAll_cons, ih, label?_sever]

@[simp] theorem inputs_severAll (pairs : List (Nat × Nat)) :
    (g.severAll pairs).inputs = g.inputs := by
  induction pairs generalizing g with
  | nil => rfl
  | cons e pairs ih => rw [severAll_cons, ih, inputs_sever]

@[simp] theorem outputs_severAll (pairs : List (Nat × Nat)) :
    (g.severAll pairs).outputs = g.outputs := by
  induction pairs generalizing g with
  | nil => rfl
  | cons e pairs ih => rw [severAll_cons, ih, outputs_sever]

@[simp] theorem nextId_severAll (pairs : List (Nat × Nat)) :
    (g.severAll pairs).nextId = g.nextId := by
  induction pairs generalizing g with
  | nil => rfl
  | cons e pairs ih => rw [severAll_cons, ih, nextId_sever]

theorem Coherent.severAll (hg : g.Coherent) (pairs : List (Nat × Nat)) :
    (g.severAll pairs).Coherent := by
  induction pairs generalizing g with
  | nil => exact hg
  | cons e pairs ih => exact ih (hg.sever e.1 e.2)

theorem IdsBelow.severAll (h : g.IdsBelow) (pairs : List (Nat × Nat)) :
    (g.severAll pairs).IdsBelow := by
  intro k hk
  rw [contains_severAll] at hk
  rw [nextId_severAll]
  exact h k hk

/-- What is left above a node are the parents that it has not been severed from. -/
theorem Coherent.above_severAll (hg : g.Coherent) (pairs : List (Nat × Nat)) :
    (g.severAll pairs).above j =
      (g.above j).filter fun p => pairs.all fun e => (p, j) != e && (p, j) != e.swap := by
  induction pairs generalizing g with
  | nil => simp [Diagram.severAll]
  | cons e pairs ih =>
    rw [severAll_cons, ih (hg.sever e.1 e.2), hg.above_sever, List.filter_filter]
    apply List.filter_congr
    intro p _
    rw [List.all_cons, Bool.and_comm]
    rfl

/-- What is left below a node are the children that it has not been severed from. -/
theorem Coherent.below_severAll (hg : g.Coherent) (pairs : List (Nat × Nat)) :
    (g.severAll pairs).below j =
      (g.below j).filter fun c => pairs.all fun e => (j, c) != e && (j, c) != e.swap := by
  induction pairs generalizing g with
  | nil => simp [Diagram.severAll]
  | cons e pairs ih =>
    rw [severAll_cons, ih (hg.sever e.1 e.2), hg.below_sever, List.filter_filter]
    apply List.filter_congr
    intro c _
    rw [List.all_cons, Bool.and_comm]
    rfl

/-! ## Severing a node from all on one side -/

theorem all_apart_left {l : List Nat} (p j : Nat) :
    ((l.map (·, c)).all fun e => (p, j) != e && (p, j) != e.swap) = true ↔
      ¬(j = c ∧ p ∈ l) ∧ ¬(p = c ∧ j ∈ l) := by
  simp only [List.all_eq_true, List.forall_mem_map, Prod.swap_prod_mk, Bool.and_eq_true,
    bne_iff_ne, ne_eq, Prod.mk.injEq]
  constructor
  · intro h
    exact ⟨fun ⟨hj, hp⟩ => (h p hp).1 ⟨rfl, hj⟩, fun ⟨hp, hj⟩ => (h j hj).2 ⟨hp, rfl⟩⟩
  · rintro ⟨hp, hj⟩ q hq
    exact ⟨fun ⟨hpq, hjc⟩ => hp ⟨hjc, hpq ▸ hq⟩, fun ⟨hpc, hjq⟩ => hj ⟨hpc, hjq ▸ hq⟩⟩

theorem all_apart_right {l : List Nat} (p j : Nat) :
    ((l.map (c, ·)).all fun e => (p, j) != e && (p, j) != e.swap) = true ↔
      ¬(j = c ∧ p ∈ l) ∧ ¬(p = c ∧ j ∈ l) := by
  have hswap : (fun e : Nat × Nat => (p, j) != e && (p, j) != e.swap) ∘ (c, ·) =
      (fun e => (p, j) != e && (p, j) != e.swap) ∘ (·, c) := by
    funext q
    exact Bool.and_comm _ _
  rw [← all_apart_left, List.all_map, List.all_map, hswap]

/-- Severing `c` from other nodes changes nothing for a node that is neither `c` nor a child of
    it. -/
theorem Coherent.above_severAll_of_not_mem (hg : g.Coherent) {pairs : List (Nat × Nat)}
    (hpairs : ∀ e ∈ pairs, e.1 = c ∨ e.2 = c) (hjc : j ≠ c) (hcj : c ∉ g.above j) :
    (g.severAll pairs).above j = g.above j := by
  rw [hg.above_severAll, List.filter_eq_self]
  intro p hp
  have hpc : p ≠ c := fun h => hcj (h ▸ hp)
  rw [List.all_eq_true]
  intro e he
  rw [Bool.and_eq_true, bne_iff_ne, bne_iff_ne]
  constructor
  · rintro rfl
    exact (hpairs _ he).elim hpc hjc
  · intro hswap
    obtain rfl : (j, p) = e := congrArg Prod.swap hswap
    exact (hpairs _ he).elim hjc hpc

/-- A node severed from its parents has none, and its parents have lost it as a child. -/
theorem Coherent.severAll_parents (hg : g.Coherent) (hback : ∀ p ∈ g.above c, c ∉ g.above p)
    {ps : List Nat} (hps : ∀ p, p ∈ ps ↔ p ∈ g.above c) (j : Nat) :
    (g.severAll (ps.map (·, c))).above j = (if j = c then [] else g.above j) ∧
      (g.severAll (ps.map (·, c))).below j = (g.below j).filter (· != c) := by
  rw [hg.above_severAll, hg.below_severAll]
  constructor
  · split
    · rename_i hj
      rw [List.filter_eq_nil_iff]
      intro p hp
      rw [all_apart_left]
      exact fun h => h.1 ⟨hj, (hps p).2 (hj ▸ hp)⟩
    · rename_i hj
      rw [List.filter_eq_self]
      intro p hp
      rw [all_apart_left]
      -- severing cuts both ways, but no edge leads back from `c`
      exact ⟨fun h => hj h.1, fun ⟨hpc, hjps⟩ => hback j ((hps j).1 hjps) (hpc ▸ hp)⟩
  · apply List.filter_congr
    intro t ht
    rw [Bool.eq_iff_iff, all_apart_left, bne_iff_ne]
    rw [← hg.mem_above_iff] at ht
    constructor
    · rintro ⟨hcut, -⟩ rfl
      exact hcut ⟨rfl, (hps j).2 ht⟩
    · intro htc
      exact ⟨fun h => htc h.1, fun ⟨hjc, htps⟩ => hback t ((hps t).1 htps) (hjc ▸ ht)⟩

/-- A node severed from its children has none, and its children have lost it as a parent. -/
theorem Coherent.severAll_children (hg : g.Coherent) (hback : ∀ t ∈ g.below c, c ∉ g.below t)
    {ts : List Nat} (hts : ∀ t, t ∈ ts ↔ t ∈ g.below c) (j : Nat) :
    (g.severAll (ts.map (c, ·))).below j = (if j = c then [] else g.below j) ∧
      (g.severAll (ts.map (c, ·))).above j = (g.above j).filter (· != c) := by
  rw [hg.above_severAll, hg.below_severAll]
  constructor
  · split
    · rename_i hj
      rw [List.filter_eq_nil_iff]
      intro t ht
      rw [all_apart_right]
      exact fun h => h.2 ⟨hj, (hts t).2 (hj ▸ ht)⟩
    · rename_i hj
      rw [List.filter_eq_self]
      intro t ht
      rw [all_apart_right]
      exact ⟨fun ⟨htc, hjts⟩ => hback j ((hts j).1 hjts) (htc ▸ ht), fun h => hj h.1⟩
  · apply List.filter_congr
    intro p hp
    rw [Bool.eq_iff_iff, all_apart_right, bne_iff_ne]
    rw [hg.mem_above_iff] at hp
    constructor
    · rintro ⟨-, hcut⟩ rfl
      exact hcut ⟨rfl, (hts j).2 hp⟩
    · intro hpc
      exact ⟨fun ⟨hjc, hpts⟩ => hback p ((hts p).1 hpts) (hjc ▸ hp), fun h => hpc h.1⟩

/-! ## Edits that commute -/

theorem ext_of_node? {g h : Diagram α} (hnodes : ∀ k, g.node? k = h.node? k)
    (hin : g.inputs = h.inputs) (hout : g.outputs = h.outputs) (hnext : g.nextId = h.nextId) :
    g = h := by
  obtain ⟨nodes, ins, outs, next⟩ := g
  obtain ⟨nodes', ins', outs', next'⟩ := h
  have hn : nodes = nodes' := IdMap.ext hnodes
  simp only at hin hout hnext
  rw [hn, hin, hout, hnext]

theorem updateNode_of_not_contains (hi : g.contains i = false) (f : Node α → Node α) :
    g.updateNode i f = g := by
  refine ext_of_node? (fun k => ?_) rfl rfl rfl
  rw [node?_updateNode]
  split
  · rename_i hk
    rw [contains_eq_isSome, Option.isSome_eq_false_iff, Option.isNone_iff_eq_none] at hi
    rw [hk, hi]
    rfl
  · rfl

/-- Removing keeps labels, so a node can be relabelled before or after another one goes. -/
theorem Coherent.relabel_removeNode (hg : g.Coherent) (i k : Nat) (label : α) :
    (g.relabel i label).removeNode k = (g.removeNode k).relabel i label := by
  refine ext_of_node? (fun j => ?_) ?_ ?_ ?_
  · rw [(hg.relabel i label).node?_removeNode, node?_relabel, node?_relabel,
      hg.node?_removeNode, hg.node?_removeNode]
    by_cases hi : j = i
    · subst hi
      by_cases hj : j = k
      · simp [hj]
      · rw [if_neg hj, if_neg hj, if_pos rfl, if_pos rfl, Option.map_map, Option.map_map]
        rfl
    · rw [if_neg hi, if_neg hi]
  · rw [inputs_removeNode_eq, contains_relabel]
    exact inputs_removeNode_eq.symm
  · rw [outputs_removeNode_eq, contains_relabel]
    exact outputs_removeNode_eq.symm
  · rw [nextId_removeNode]
    show g.nextId = (g.removeNode k).nextId
    rw [nextId_removeNode]

theorem Coherent.removeNode_relabel_self (hg : g.Coherent) (i : Nat) (label : α) :
    (g.relabel i label).removeNode i = g.removeNode i := by
  have hgone : (g.removeNode i).contains i = false := by
    rw [contains_removeNode, bne_self_eq_false, Bool.and_false]
  rw [hg.relabel_removeNode]
  exact updateNode_of_not_contains hgone _

/-- Changes of two nodes, or two changes of one node that commute, can be swapped. -/
theorem updateNode_comm {f f' : Node α → Node α} (h : i = j → ∀ n, f (f' n) = f' (f n)) :
    (g.updateNode i f).updateNode j f' = (g.updateNode j f').updateNode i f := by
  refine ext_of_node? ?_ rfl rfl rfl
  intro k
  simp only [node?_updateNode]
  by_cases hki : k = i
  · by_cases hkj : k = j
    · subst hki
      subst hkj
      simp only [if_pos, Option.map_map]
      congr 1
      funext n
      exact (h rfl n).symm
    · subst hki
      simp [hkj]
  · by_cases hkj : k = j
    · subst hkj
      simp [hki]
    · simp [hki, hkj]

theorem add_erase_comm (l : Tally) (hkj : k ≠ j) :
    IdMap.erase (l.add k m) j = Tally.add (l.erase j) k m := by
  unfold Tally.add
  split
  · rfl
  · apply IdMap.ext
    intro i
    simp only [IdMap.get?_erase, IdMap.get?_alter]
    by_cases hik : i = k
    · simp [hik, hkj]
    · by_cases hij : i = j
      · simp [hij, Ne.symm hkj]
      · simp [hij, hik]

theorem cut_join (h : (s, t) ≠ (a, b)) :
    (g.join s t m).cut a b = (g.cut a b).join s t m := by
  have hchild (g : Diagram α) : (g.updateNode s (·.addChild t m)).updateNode a (·.eraseChild b) =
      (g.updateNode a (·.eraseChild b)).updateNode s (·.addChild t m) := by
    refine updateNode_comm ?_
    rintro rfl n
    have htb : t ≠ b := fun htb => h (by rw [htb])
    simp only [Node.addChild, Node.eraseChild, add_erase_comm n.children htb]
  have hparent (g : Diagram α) :
      (g.updateNode t (·.addParent s m)).updateNode b (·.eraseParent a) =
        (g.updateNode b (·.eraseParent a)).updateNode t (·.addParent s m) := by
    refine updateNode_comm ?_
    rintro rfl n
    have hsa : s ≠ a := fun hsa => h (by rw [hsa])
    simp only [Node.addParent, Node.eraseParent, add_erase_comm n.parents hsa]
  -- the other two pairs of changes touch different tallies of whatever node they meet at
  have hta (g : Diagram α) : (g.updateNode t (·.addParent s m)).updateNode a (·.eraseChild b) =
      (g.updateNode a (·.eraseChild b)).updateNode t (·.addParent s m) :=
    updateNode_comm fun _ _ => rfl
  have hsb (g : Diagram α) : (g.updateNode s (·.addChild t m)).updateNode b (·.eraseParent a) =
      (g.updateNode b (·.eraseParent a)).updateNode s (·.addChild t m) :=
    updateNode_comm fun _ _ => rfl
  unfold cut join
  rw [hta, hchild, hparent, hsb]

theorem cut_joinAll {es : List (Nat × Nat)} (h : (a, b) ∉ es) :
    (g.joinAll es).cut a b = (g.cut a b).joinAll es := by
  induction es generalizing g with
  | nil => rfl
  | cons e es ih =>
    rw [joinAll_cons, joinAll_cons, ih (fun hmem => h (List.mem_cons_of_mem _ hmem)),
      cut_join (fun he => h (by rw [← he]; exact List.mem_cons_self))]

theorem updateNode_place {f : Node α → Node α} (hi : i ≠ g.nextId) :
    (g.place label).updateNode i f = (g.updateNode i f).place label := by
  refine ext_of_node? ?_ rfl rfl rfl
  intro k
  have hnext : (g.updateNode i f).nextId = g.nextId := rfl
  simp only [node?_updateNode, node?_place, hnext]
  by_cases hk : k = i
  · subst hk
    simp [hi]
  · simp [hk]

theorem cut_attach (ha : a ≠ g.nextId) (hb : b ≠ g.nextId) :
    (g.attach label ps cs).cut a b = (g.cut a b).attach label ps cs := by
  have hplace : (g.place label).cut a b = (g.cut a b).place label := by
    unfold cut
    rw [updateNode_place ha, updateNode_place (g := g.updateNode a _) hb]
  rw [attach_eq, cut_joinAll, cut_joinAll, hplace, attach_eq]
  · rfl
  · simp [Ne.symm hb]
  · simp [Ne.symm ha]

theorem sever_attach (ha : a ≠ g.nextId) (hb : b ≠ g.nextId) :
    (g.attach label ps cs).sever a b = (g.sever a b).attach label ps cs := by
  have hca : (g.attach label ps cs).contains a = g.contains a := by
    rw [contains_attach]
    simp [ha]
  have hcb : (g.attach label ps cs).contains b = g.contains b := by
    rw [contains_attach]
    simp [hb]
  unfold sever
  rw [hca, hcb]
  split
  · rw [cut_attach ha hb, cut_attach (g := g.cut a b) hb ha]
  · rfl

theorem sever_attachAll (ha : a < g.nextId) (hb : b < g.nextId) :
    (g.attachAll label ends).sever a b = (g.sever a b).attachAll label ends := by
  induction ends generalizing g with
  | nil => rfl
  | cons e ends ih =>
    rw [attachAll_cons, ih (by rw [nextId_attach]; omega) (by rw [nextId_attach]; omega),
      sever_attach (by omega) (by omega), attachAll_cons]

theorem severAll_attachAll {pairs : List (Nat × Nat)}
    (h : ∀ e ∈ pairs, e.1 < g.nextId ∧ e.2 < g.nextId) :
    (g.attachAll label ends).severAll pairs = (g.severAll pairs).attachAll label ends := by
  induction pairs generalizing g with
  | nil => rfl
  | cons e pairs ih =>
    obtain ⟨ha, hb⟩ := h e List.mem_cons_self
    rw [severAll_cons, sever_attachAll ha hb, ih, severAll_cons]
    intro e' he'
    rw [nextId_sever]
    exact h e' (List.mem_cons_of_mem _ he')

/-- Severing a pair and attaching nodes, item after item, is severing all pairs and then attaching
    all nodes. -/
theorem foldl_sever_attachAll {β : Type} (pair : β → Nat × Nat)
    (ends : β → List (List Nat × List Nat)) {items : List β}
    (h : ∀ x ∈ items, (pair x).1 < g.nextId ∧ (pair x).2 < g.nextId) :
    items.foldl (fun g x => (g.sever (pair x).1 (pair x).2).attachAll label (ends x)) g =
      (g.severAll (items.map pair)).attachAll label (items.flatMap ends) := by
  induction items generalizing g with
  | nil => rfl
  | cons x items ih =>
    have hrest (y : β) (hy : y ∈ items) := h y (List.mem_cons_of_mem _ hy)
    rw [List.foldl_cons, ih, List.map_cons, severAll_cons, List.flatMap_cons, attachAll_append,
      severAll_attachAll]
    · intro e he
      obtain ⟨y, hy, rfl⟩ := List.mem_map.1 he
      rw [nextId_sever]
      exact hrest y hy
    · intro y hy
      rw [nextId_attachAll, nextId_sever]
      have := hrest y hy
      omega

end Wiring.Diagram
