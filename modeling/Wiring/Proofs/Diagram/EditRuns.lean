import Wiring.Proofs.Diagram.Severing

/-!
# What edits leave

The edits that rebuild a circuit add nodes in loops, and sever edges in between. Under the checks
that they make they are never refused, and what they leave is a pure operation on the diagram.

## Main definitions

- `Diagram.Hosts` — a new node may be joined to these parents and children
- `Edit.Moves` — an edit that leads from every diagram to one that is related to it

## Main statements

- `Diagram.checkNeighbours_eq_ok_iff` — when a new node is allowed
- `Edit.leaves_ask_bind`, `Edit.leaves_addNode_bind` — what holds after an edit, refused or not
- `Edit.runOn_forM` — a loop of edits that are not refused
- `Edit.runOn_repeated_addNode` — many new nodes with the same neighbours
- `Edit.runOn_forM_addNode`, `Edit.runOn_forM_sever_addNode` — the loops over a tally
- `Edit.hosts_of_runOn_forM` — if such a loop is not refused then its checks have passed
- `Edit.Moves.bind`, `Edit.Moves.repeated`, `Edit.Moves.forM` — programs that move along a relation
-/

namespace Wiring

open scoped Unlimited

/-! ## Questions asked of a list -/

theorem bind_eq_ok_iff {α β : Type} {x : Except Fault α} {f : α → Except Fault β} {b : β} :
    (x >>= f) = .ok b ↔ ∃ a, x = .ok a ∧ f a = .ok b := by
  cases x with
  | ok a =>
    show f a = .ok b ↔ _
    simp
  | error fault =>
    show Except.error fault = .ok b ↔ _
    simp

theorem ite_error_eq_ok_iff {β : Type} {c : Prop} [Decidable c] {fault : Fault}
    {x : Except Fault β} {b : β} :
    (if c then .error fault else x) = .ok b ↔ ¬c ∧ x = .ok b := by
  by_cases hc : c <;> simp [hc]

theorem mapM_eq_ok {α β : Type} {f : α → Except Fault β} {b : α → β} {l : List α}
    (h : ∀ x ∈ l, f x = .ok (b x)) : l.mapM f = .ok (l.map b) := by
  induction l with
  | nil => rfl
  | cons x l ih =>
    rw [List.mapM_cons, h x List.mem_cons_self, ih fun y hy => h y (List.mem_cons_of_mem _ hy)]
    rfl

/-- If all questions are answered then each answer is the one to its own question. -/
theorem forall₂_of_mapM_eq_ok {α β : Type} {f : α → Except Fault β} {l : List α} {bs : List β}
    (h : l.mapM f = .ok bs) : List.Forall₂ (fun x b => f x = .ok b) l bs := by
  induction l generalizing bs with
  | nil =>
    cases h
    exact .nil
  | cons x l ih =>
    rw [List.mapM_cons, bind_eq_ok_iff] at h
    obtain ⟨b, hb, h⟩ := h
    rw [bind_eq_ok_iff] at h
    obtain ⟨rest, hrest, h⟩ := h
    cases h
    exact .cons hb (ih hrest)

theorem exists_ok_of_mapM_eq_ok {α β : Type} {f : α → Except Fault β} {x : α} {l : List α}
    {bs : List β} (h : l.mapM f = .ok bs) (hx : x ∈ l) : ∃ b, f x = .ok b := by
  have hanswers := forall₂_of_mapM_eq_ok h
  clear h
  induction hanswers with
  | nil => cases hx
  | cons hfirst _ ih =>
    rcases List.mem_cons.1 hx with rfl | hx
    · exact ⟨_, hfirst⟩
    · exact ih hx

/-- If all questions are answered, and none could be answered otherwise, then these are the
    answers. -/
theorem eq_map_of_mapM_eq_ok {α β : Type} {f : α → Except Fault β} {b : α → β} {l : List α}
    {bs : List β} (h : l.mapM f = .ok bs) (hb : ∀ x ∈ l, ∀ y, f x = .ok y → y = b x) :
    bs = l.map b := by
  have hanswers := forall₂_of_mapM_eq_ok h
  clear h
  induction hanswers with
  | nil => rfl
  | cons hfirst _ ih =>
    rw [List.map_cons, hb _ List.mem_cons_self _ hfirst,
      ih fun x hx => hb x (List.mem_cons_of_mem _ hx)]

theorem mapM_eq_error {α β : Type} {f : α → Except Fault β} {b : α → β} {x : α} {fault : Fault}
    {before after : List α} (h : ∀ y ∈ before, f y = .ok (b y)) (hx : f x = .error fault) :
    (before ++ x :: after).mapM f = .error fault := by
  induction before with
  | nil =>
    rw [List.nil_append, List.mapM_cons, hx]
    rfl
  | cons y before ih =>
    rw [List.cons_append, List.mapM_cons, h y List.mem_cons_self,
      ih fun z hz => h z (List.mem_cons_of_mem _ hz)]
    rfl

/-- If each question can fail in one way only then one that does decides how all do. -/
theorem mapM_ok_or_error {α β : Type} {f : α → Except Fault β} {fault : α → Fault} {l : List α}
    (h : ∀ x ∈ l, (∃ b, f x = .ok b) ∨ f x = .error (fault x)) :
    (∃ bs, l.mapM f = .ok bs) ∨ ∃ x ∈ l, l.mapM f = .error (fault x) := by
  induction l with
  | nil => exact .inl ⟨[], rfl⟩
  | cons x l ih =>
    rw [List.mapM_cons]
    rcases h x List.mem_cons_self with ⟨b, hb⟩ | hx
    · rw [hb]
      rcases ih fun y hy => h y (List.mem_cons_of_mem _ hy) with ⟨bs, hbs⟩ | ⟨y, hy, hfault⟩
      · rw [hbs]
        exact .inl ⟨b :: bs, rfl⟩
      · rw [hfault]
        exact .inr ⟨y, List.mem_cons_of_mem _ hy, rfl⟩
    · rw [hx]
      exact .inr ⟨x, List.mem_cons_self, rfl⟩

theorem mapM_congr {α β : Type} {f f' : α → Except Fault β} {l : List α}
    (h : ∀ x ∈ l, f x = f' x) : l.mapM f = l.mapM f' := by
  induction l with
  | nil => rfl
  | cons x l ih =>
    rw [List.mapM_cons, List.mapM_cons, h x List.mem_cons_self,
      ih fun y hy => h y (List.mem_cons_of_mem _ hy)]

namespace Diagram

variable {α : Type} {g : Diagram α} {ps cs ps' cs' : List Nat} {label : α}

/-- The listed nodes may become parents and children of a new one. -/
structure Hosts (g : Diagram α) (ps cs : List Nat) : Prop where
  parent : ∀ p ∈ ps, g.contains p = true ∧ p ∉ g.outputs
  child : ∀ c ∈ cs, g.contains c = true ∧ c ∉ g.inputs

theorem checkNeighbours_eq_ok_iff : g.checkNeighbours ps cs = .ok () ↔ g.Hosts ps cs := by
  have hall (p : Nat → Bool) (l : List Nat) : l.find? p = none ↔ ∀ k ∈ l, p k = false := by
    simp
  unfold checkNeighbours
  constructor
  · intro h
    cases hmissing : (ps ++ cs).find? (!g.contains ·) with
    | some id => simp [hmissing] at h
    | none =>
      cases hout : ps.find? (g.isOutput ·) with
      | some p => simp [hmissing, hout] at h
      | none =>
        cases hin : cs.find? (g.isInput ·) with
        | some c => simp [hmissing, hout, hin] at h
        | none =>
          rw [hall] at hmissing hout hin
          refine ⟨fun p hp => ⟨?_, ?_⟩, fun c hc => ⟨?_, ?_⟩⟩
          · simpa using hmissing p (List.mem_append_left _ hp)
          · simpa [isOutput] using hout p hp
          · simpa using hmissing c (List.mem_append_right _ hc)
          · simpa [isInput] using hin c hc
  · intro h
    have hmissing : (ps ++ cs).find? (!g.contains ·) = none := by
      rw [hall]
      intro k hk
      rcases List.mem_append.1 hk with hk | hk
      · simp [(h.parent k hk).1]
      · simp [(h.child k hk).1]
    have hout : ps.find? (g.isOutput ·) = none := by
      rw [hall]
      intro p hp
      simpa [isOutput] using (h.parent p hp).2
    have hin : cs.find? (g.isInput ·) = none := by
      rw [hall]
      intro c hc
      simpa [isInput] using (h.child c hc).2
    rw [hmissing, hout, hin]

theorem Hosts.attach (h : g.Hosts ps cs) : (g.attach label ps' cs').Hosts ps cs := by
  constructor
  · intro p hp
    rw [contains_attach, (h.parent p hp).1, outputs_attach]
    exact ⟨rfl, (h.parent p hp).2⟩
  · intro c hc
    rw [contains_attach, (h.child c hc).1, inputs_attach]
    exact ⟨rfl, (h.child c hc).2⟩

theorem Hosts.attachAll {ends : List (List Nat × List Nat)} (h : g.Hosts ps cs) :
    (g.attachAll label ends).Hosts ps cs := by
  induction ends generalizing g with
  | nil => exact h
  | cons e ends ih => exact ih h.attach

theorem Hosts.sever (h : g.Hosts ps cs) (a b : Nat) : (g.sever a b).Hosts ps cs := by
  constructor
  · intro p hp
    rw [contains_sever, outputs_sever]
    exact h.parent p hp
  · intro c hc
    rw [contains_sever, inputs_sever]
    exact h.child c hc

end Diagram

namespace Edit

variable {α β γ : Type} {g h : Diagram α} {ps cs : List Nat} {label : α}

/-- An edit that is not refused goes on with its answer. -/
theorem runOn_bind_ok {e : Edit α β} {b : β} (he : e.runOn g = (.ok b, h)) (f : β → Edit α γ) :
    (e >>= f).runOn g = (f b).runOn h := by
  rw [runOn_bind, he]

/-- Edits that go on in the same way from the same answer do the same. -/
theorem runOn_bind_congr {e e' : Edit α β} {f f' : β → Edit α γ} (he : e.runOn g = e'.runOn g)
    (hf : ∀ b h, e.runOn g = (.ok b, h) → (f b).runOn h = (f' b).runOn h) :
    (e >>= f).runOn g = (e' >>= f').runOn g := by
  rw [runOn_bind, runOn_bind, ← he]
  cases hrun : e.runOn g with
  | mk answer h =>
    cases answer with
    | ok b => exact hf b h hrun
    | error fault => rfl

theorem runOn_find_bind_congr {c : Nat} {f f' : Node α → Edit α γ}
    (hf : ∀ n, g.node? c = some n → (f n).runOn g = (f' n).runOn g) :
    (ask (·.find c) >>= f).runOn g = (ask (·.find c) >>= f').runOn g := by
  refine runOn_bind_congr rfl fun n h hrun => ?_
  rw [runOn_ask, Prod.mk.injEq] at hrun
  obtain ⟨hn, rfl⟩ := hrun
  exact hf n (Diagram.find_eq_ok_iff.1 hn)

theorem discard_eq_bind (e : Edit α β) :
    (discard e : Edit α PUnit) = e >>= fun _ => pure ⟨⟩ := by
  rw [Functor.discard, ← map_eq_pure_bind]
  rfl

theorem runOn_discard {e : Edit α β} {b : β} (he : e.runOn g = (.ok b, h)) :
    (discard e : Edit α PUnit).runOn g = (.ok ⟨⟩, h) := by
  rw [discard_eq_bind, runOn_bind_ok he, runOn_pure]

theorem runOn_setLabel {id : Nat} (hid : g.contains id = true) :
    (setLabel id label).runOn g = (.ok (), g.relabel id label) := by
  obtain ⟨n, hn⟩ := Diagram.contains_iff.1 hid
  rw [setLabel, runOn_ask_bind, Diagram.find_eq_ok_iff.2 hn]
  rfl

theorem runOn_addNode [Words] (h : g.Hosts ps cs) :
    (addNode label ps cs).runOn g = (.ok g.nextId, g.attach label ps cs) := by
  rw [addNode, runOn_ask_bind, Diagram.checkNeighbours_eq_ok_iff.2 h]
  rfl

/-- A new node that is refused changes nothing. -/
theorem runOn_addNode_of_not_hosts [Words] (label : α) (h : ¬g.Hosts ps cs) :
    ∃ fault, (addNode label ps cs).runOn g = (.error fault, g) := by
  rw [addNode, runOn_ask_bind]
  cases hcheck : g.checkNeighbours ps cs with
  | ok _ => exact absurd (Diagram.checkNeighbours_eq_ok_iff.1 hcheck) h
  | error fault => exact ⟨fault, rfl⟩

/-! ## What an edit leaves -/

/-- An edit that starts with a question leaves what it had, if it is refused. -/
theorem leaves_ask_bind (P : Diagram α → Prop) {question : Diagram α → Except Fault β}
    {f : β → Edit α γ} (hg : P g) (hok : ∀ x, question g = .ok x → P ((f x).runOn g).2) :
    P ((ask question >>= f).runOn g).2 := by
  rw [runOn_ask_bind]
  cases hq : question g with
  | ok x => exact hok x hq
  | error fault => exact hg

/-- So does one that starts with a new node. -/
theorem leaves_addNode_bind [Words] (P : Diagram α → Prop) {f : Nat → Edit α γ} (hg : P g)
    (hnew : g.Hosts ps cs → P ((f g.nextId).runOn (g.attach label ps cs)).2) :
    P ((addNode label ps cs >>= f).runOn g).2 := by
  by_cases h : g.Hosts ps cs
  · rw [runOn_bind_ok (runOn_addNode h)]
    exact hnew h
  · obtain ⟨fault, hfault⟩ := runOn_addNode_of_not_hosts label h
    rw [runOn_bind, hfault]
    exact hg

theorem leaves_addNode [Words] (P : Diagram α → Prop) (hg : P g)
    (hnew : g.Hosts ps cs → P (g.attach label ps cs)) :
    P ((addNode label ps cs).runOn g).2 := by
  rw [← bind_pure (addNode label ps cs)]
  exact leaves_addNode_bind P hg hnew

/-! ## Loops -/

/-- Many new nodes with the same neighbours. -/
theorem runOn_repeated_addNode (h : g.Hosts ps cs) (m : Nat) :
    (repeated (discard (addNode label ps cs)) m).runOn g =
      (.ok (), g.attachAll label (List.replicate m (ps, cs))) := by
  induction m generalizing g with
  | zero => rfl
  | succ m ih =>
    rw [repeated, runOn_bind_ok (runOn_discard (runOn_addNode h)), ih h.attach,
      List.replicate_succ, Diagram.attachAll_cons]

/-- A loop over edits that are not refused while `P` holds, and keep it. -/
theorem runOn_forM (P : Diagram α → Prop) (step : Diagram α → β → Diagram α)
    {f : β → Edit α PUnit} {items : List β}
    (hstep : ∀ x ∈ items, ∀ g, P g → (f x).runOn g = (.ok ⟨⟩, step g x) ∧ P (step g x))
    (hg : P g) : (items.forM f).runOn g = (.ok ⟨⟩, items.foldl step g) := by
  induction items generalizing g with
  | nil => rfl
  | cons x items ih =>
    obtain ⟨hx, hnext⟩ := hstep x List.mem_cons_self g hg
    have hcons : (x :: items).forM f = f x >>= fun _ => items.forM f := List.forM_cons
    rw [hcons, runOn_bind_ok hx, List.foldl_cons]
    exact ih (fun y hy => hstep y (List.mem_cons_of_mem _ hy)) hnext

/-! ## Loops over tallies -/

theorem flatMap_entries (t : Tally) (f : Nat → β) :
    (t.entries.flatMap fun e => List.replicate e.2 (f e.1)) = t.spread.map f := by
  simp [Tally.spread, List.map_flatMap]

/-- A new node for every edge that a tally counts. -/
theorem runOn_forM_addNode (label : α) (t : Tally) (up down : Nat → List Nat)
    (h : ∀ k ∈ t.keys, g.Hosts (up k) (down k)) :
    (t.entries.forM fun e =>
        repeated (discard (addNode label (up e.1) (down e.1))) e.2).runOn g =
      (.ok ⟨⟩, g.attachAll label (t.spread.map fun k => (up k, down k))) := by
  let ends (e : Nat × Nat) := List.replicate e.2 (up e.1, down e.1)
  rw [runOn_forM (fun g => ∀ k ∈ t.keys, g.Hosts (up k) (down k))
    (fun g e => g.attachAll label (ends e)) (fun e he g hg => ⟨?_, ?_⟩) h]
  · rw [← flatMap_entries, Diagram.attachAll, List.foldl_flatMap]
    rfl
  · exact runOn_repeated_addNode (hg e.1 (List.mem_map_of_mem he)) e.2
  · exact fun k hk => (hg k hk).attachAll

/-- Between two nodes for every edge that a tally counts, nothing is left but a new node each. -/
theorem runOn_forM_sever_addNode (label : α) (t : Tally) (pair : Nat → Nat × Nat)
    (up down : Nat → List Nat) (h : ∀ k ∈ t.keys, g.Hosts (up k) (down k))
    (hpair : ∀ k ∈ t.keys, (pair k).1 < g.nextId ∧ (pair k).2 < g.nextId) :
    (t.entries.forM fun e => do
        change (·.sever (pair e.1).1 (pair e.1).2)
        repeated (discard (addNode label (up e.1) (down e.1))) e.2).runOn g =
      (.ok ⟨⟩, (g.severAll (t.keys.map pair)).attachAll label
        (t.spread.map fun k => (up k, down k))) := by
  let ends (e : Nat × Nat) := List.replicate e.2 (up e.1, down e.1)
  rw [runOn_forM (fun g => ∀ k ∈ t.keys, g.Hosts (up k) (down k))
    (fun g e => (g.sever (pair e.1).1 (pair e.1).2).attachAll label (ends e))
    (fun e he g hg => ⟨?_, ?_⟩) h]
  · rw [Diagram.foldl_sever_attachAll (fun e => pair e.1) ends
      (fun e he => hpair e.1 (List.mem_map_of_mem he)), ← flatMap_entries, IdMap.keys, List.map_map]
    rfl
  · rw [runOn_bind_ok (runOn_change _ g)]
    exact runOn_repeated_addNode ((hg e.1 (List.mem_map_of_mem he)).sever _ _) e.2
  · exact fun k hk => ((hg k hk).sever _ _).attachAll

/-! ## What an answer says -/

/-- An edit that answers has answered at each of its steps. -/
theorem runOn_bind_eq_ok_iff {e : Edit α β} {f : β → Edit α γ} {c : γ} :
    (e >>= f).runOn g = (.ok c, h) ↔
      ∃ b mid, e.runOn g = (.ok b, mid) ∧ (f b).runOn mid = (.ok c, h) := by
  rw [runOn_bind]
  cases e.runOn g with
  | mk answer mid =>
    cases answer with
    | ok b => simp
    | error fault => simp

theorem hosts_of_runOn_addNode [Words] {id : Nat}
    (hrun : (addNode label ps cs).runOn g = (.ok id, h)) : g.Hosts ps cs := by
  by_contra hnot
  obtain ⟨fault, hfault⟩ := runOn_addNode_of_not_hosts label hnot
  rw [hfault] at hrun
  cases hrun

theorem hosts_of_runOn_repeated_addNode {m : Nat} (hm : 0 < m)
    (hrun : (repeated (discard (addNode label ps cs)) m).runOn g = (.ok (), h)) :
    g.Hosts ps cs := by
  obtain ⟨m, rfl⟩ := Nat.exists_eq_succ_of_ne_zero (Nat.ne_of_gt hm)
  rw [repeated, runOn_bind_eq_ok_iff] at hrun
  obtain ⟨_, _, hfirst, -⟩ := hrun
  rw [discard_eq_bind, runOn_bind_eq_ok_iff] at hfirst
  obtain ⟨id, mid, hadd, -⟩ := hfirst
  exact hosts_of_runOn_addNode hadd

/-- If a loop answers, and its steps keep `P` and answer only where `Q` holds, then `Q` holds of all
    items. -/
theorem of_runOn_forM (P : Diagram α → Prop) (Q : β → Prop) {f : β → Edit α PUnit}
    {items : List β}
    (hstep : ∀ x ∈ items, ∀ g h, P g → (f x).runOn g = (.ok ⟨⟩, h) → Q x ∧ P h) (hg : P g)
    (hrun : (items.forM f).runOn g = (.ok ⟨⟩, h)) : ∀ x ∈ items, Q x := by
  induction items generalizing g with
  | nil => simp
  | cons x items ih =>
    have hcons : (x :: items).forM f = f x >>= fun _ => items.forM f := List.forM_cons
    rw [hcons, runOn_bind_eq_ok_iff] at hrun
    obtain ⟨_, mid, hx, hrest⟩ := hrun
    obtain ⟨hQ, hP⟩ := hstep x List.mem_cons_self g mid hg hx
    have ih := ih (fun y hy => hstep y (List.mem_cons_of_mem _ hy)) hP hrest
    exact List.forall_mem_cons.2 ⟨hQ, ih⟩

/-- If a loop over a tally answers then all its checks would have passed at its start: what it does
    before each of them leaves the terminals alone. -/
theorem hosts_of_runOn_forM {t : Tally} (ht : t.Positive) (up down : Nat → List Nat)
    {f : Nat × Nat → Edit α PUnit} (prepare : Nat × Nat → Diagram α → Diagram α)
    (hf : ∀ e g, (f e).runOn g =
      (repeated (discard (addNode label (up e.1) (down e.1))) e.2).runOn (prepare e g))
    (hin : ∀ e g, (prepare e g).inputs = g.inputs)
    (hout : ∀ e g, (prepare e g).outputs = g.outputs)
    (hc : ∀ k ∈ t.keys, ∀ i ∈ up k ++ down k, g.contains i = true)
    (hrun : (t.entries.forM f).runOn g = (.ok ⟨⟩, h)) :
    ∀ k ∈ t.keys, g.Hosts (up k) (down k) := by
  have hall := of_runOn_forM (fun h => h.inputs = g.inputs ∧ h.outputs = g.outputs)
    (fun e => (∀ p ∈ up e.1, p ∉ g.outputs) ∧ ∀ c ∈ down e.1, c ∉ g.inputs) ?_ ⟨rfl, rfl⟩ hrun
  · intro k hk
    obtain ⟨e, he, rfl⟩ := List.mem_map.1 hk
    obtain ⟨hup, hdown⟩ := hall e he
    exact ⟨fun p hp => ⟨hc e.1 hk p (List.mem_append_left _ hp), hup p hp⟩,
      fun c hcc => ⟨hc e.1 hk c (List.mem_append_right _ hcc), hdown c hcc⟩⟩
  · intro e he g' h' ⟨hgin, hgout⟩ hstep
    rw [hf] at hstep
    have hpos : 0 < e.2 := ht e.1 e.2 (IdMap.mem_entries_iff.1 he)
    have hhosts := hosts_of_runOn_repeated_addNode hpos hstep
    rw [runOn_repeated_addNode hhosts, Prod.mk.injEq] at hstep
    obtain ⟨-, rfl⟩ := hstep
    rw [Diagram.inputs_attachAll, Diagram.outputs_attachAll, hin, hout, hgin, hgout]
    refine ⟨⟨fun p hp => ?_, fun c hcc => ?_⟩, rfl, rfl⟩
    · rw [← hgout, ← hout e]
      exact (hhosts.parent p hp).2
    · rw [← hgin, ← hin e]
      exact (hhosts.child c hcc).2

/-! ## Edits that move along a relation -/

section Moves

variable {R : Diagram α → Diagram α → Prop}

/-- **The edit moves along `R`**, whether it is refused or not. -/
def Moves (R : Diagram α → Diagram α → Prop) (e : Edit α β) : Prop := ∀ g, R g (e.runOn g).2

theorem moves_change {f : Diagram α → Diagram α} (hf : ∀ g, R g (f g)) : Moves R (change f) := hf

theorem moves_addNode [Words] [Std.Refl R] {label : α} {ps cs : List Nat}
    (hnew : ∀ g, R g (g.attach label ps cs)) : Moves R (addNode label ps cs) := fun g =>
  leaves_addNode (R g) (refl_of R g) fun _ => hnew g

theorem moves_pure [Std.Refl R] (b : β) : Moves R (pure b) := fun g => refl_of R g

theorem moves_get [Std.Refl R] : Moves R get := fun g => refl_of R g

theorem moves_ask [Std.Refl R] (question : Diagram α → Except Fault β) : Moves R (ask question) :=
  fun g => by
    rw [runOn_ask]
    exact refl_of R g

theorem Moves.bind [IsTrans (Diagram α) R] {e : Edit α β} {f : β → Edit α γ} (he : Moves R e)
    (hf : ∀ b, Moves R (f b)) : Moves R (e >>= f) := by
  intro g
  have hfirst := he g
  rw [runOn_bind]
  generalize e.runOn g = run at hfirst
  obtain ⟨answer, mid⟩ := run
  cases answer with
  | ok b => exact trans_of R hfirst (hf b mid)
  | error fault => exact hfirst

variable [Std.Refl R] [IsTrans (Diagram α) R]

theorem Moves.discard {e : Edit α β} (he : Moves R e) : Moves R (discard e : Edit α PUnit) := by
  rw [discard_eq_bind]
  exact he.bind fun _ => moves_pure _

theorem Moves.repeated {e : Edit α Unit} (he : Moves R e) (times : Nat) :
    Moves R (repeated e times) := by
  induction times with
  | zero => exact moves_pure ()
  | succ times ih => exact he.bind fun _ => ih

theorem Moves.forM {f : β → Edit α PUnit} (hf : ∀ x, Moves R (f x)) (items : List β) :
    Moves R (items.forM f) := by
  induction items with
  | nil => exact moves_pure _
  | cons x items ih =>
    have hcons : (x :: items).forM f = f x >>= fun _ => items.forM f := List.forM_cons
    rw [hcons]
    exact (hf x).bind fun _ => ih

end Moves

end Edit

end Wiring
