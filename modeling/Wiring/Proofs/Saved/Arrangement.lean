import Mathlib.Data.List.Perm.Basic
import Wiring.IdMap.Lemmas
import Wiring.Saved.Tree

/-!
# The order of fields

The fields of a record have no order of their own: whoever passes a tree on may put them in any, and
where ids are written as texts the order of the texts is not that of the ids. So nothing may depend
on it when a tree is read. Here a tree is passed on by a function that puts the fields of every
record in some order, and readings are shown to be what they were.

## Main definitions

- `Tree.Arranges` — a way to put fields in order
- `Tree.arrange` — a tree with all its records put in order
- `Tree.byName` — the order of names

## Main statements

- `Tree.fields?_arrange` — the named fields of a record
- `Tree.idMap?_of_perm` — the map that a record stands for
-/

namespace Wiring.Saved.Tree

variable {β : Type} {order : List (String × Tree) → List (String × Tree)}

/-- **A way to put fields in order**: it leaves none out and adds none. -/
def Arranges (order : List (String × Tree) → List (String × Tree)) : Prop :=
  ∀ fields, (order fields).Perm fields

theorem arranges_id : Arranges id := fun fields => List.Perm.refl fields

/-- Fields in the order of their names. -/
def byName (fields : List (String × Tree)) : List (String × Tree) :=
  fields.mergeSort fun e e' => decide (e.1 ≤ e'.1)

theorem arranges_byName : Arranges byName := fun fields => fields.mergeSort_perm _

mutual

/-- **The tree with the fields of every record put in order**, from the inside out. -/
def arrange (order : List (String × Tree) → List (String × Tree)) : Tree → Tree
  | .list items => .list (arrangeItems order items)
  | .record fields => .record (order (arrangeFields order fields))
  | t => t

/-- Several trees. -/
def arrangeItems (order : List (String × Tree) → List (String × Tree)) : List Tree → List Tree
  | [] => []
  | t :: ts => arrange order t :: arrangeItems order ts

/-- The trees under several names. -/
def arrangeFields (order : List (String × Tree) → List (String × Tree)) :
    List (String × Tree) → List (String × Tree)
  | [] => []
  | (name, t) :: fields => (name, arrange order t) :: arrangeFields order fields

end

theorem arrangeItems_eq_map (items : List Tree) :
    arrangeItems order items = items.map (arrange order) := by
  induction items with
  | nil => rfl
  | cons t ts ih => rw [arrangeItems, ih, List.map_cons]

theorem arrangeFields_eq_map (fields : List (String × Tree)) :
    arrangeFields order fields = fields.map fun e => (e.1, arrange order e.2) := by
  induction fields with
  | nil => rfl
  | cons e fields ih => rw [arrangeFields, ih, List.map_cons]

theorem arrange_list (items : List Tree) :
    arrange order (.list items) = .list (items.map (arrange order)) := by
  rw [arrange, arrangeItems_eq_map]

theorem arrange_record (fields : List (String × Tree)) :
    arrange order (.record fields) =
      .record (order (fields.map fun e => (e.1, arrange order e.2))) := by
  rw [arrange, arrangeFields_eq_map]

mutual

/-- Nothing changes if the fields stay in the order they have. -/
theorem arrange_id : ∀ t : Tree, arrange id t = t
  | .null | .bool _ | .natural _ | .otherNumber | .text _ => rfl
  | .list items => by rw [arrange, arrangeItems_id items]
  | .record fields => by rw [arrange, arrangeFields_id fields, id]

theorem arrangeItems_id : ∀ items : List Tree, arrangeItems id items = items
  | [] => rfl
  | t :: ts => by rw [arrangeItems, arrange_id t, arrangeItems_id ts]

theorem arrangeFields_id : ∀ fields : List (String × Tree), arrangeFields id fields = fields
  | [] => rfl
  | (name, t) :: fields => by rw [arrangeFields, arrange_id t, arrangeFields_id fields]

end

/-- A single field stays where it is. -/
theorem arrange_singleton (horder : Arranges order) (name : String) (t : Tree) :
    arrange order (.record [(name, t)]) = .record [(name, arrange order t)] := by
  rw [arrange_record, List.map_singleton, List.perm_singleton.1 (horder _)]

@[simp] theorem arrange_ofNaturals (ns : List Nat) :
    arrange order (ofNaturals ns) = ofNaturals ns := by
  rw [ofNaturals, arrange_list, List.map_map]
  rfl

/-! ## Reading fields -/

/-- Where no name occurs twice a name is looked up by membership. -/
theorem lookup_eq_some_iff_mem {κ : Type} [DecidableEq κ] {l : List (κ × β)}
    (hl : (l.map (·.1)).Nodup) {k : κ} {v : β} : l.lookup k = some v ↔ (k, v) ∈ l := by
  induction l with
  | nil => simp
  | cons e l ih =>
    obtain ⟨j, w⟩ := e
    obtain ⟨hj, hl⟩ := List.nodup_cons.1 hl
    rw [List.lookup_cons, List.mem_cons, Prod.mk.injEq]
    by_cases hk : k = j
    · subst hk
      have hnot : (k, v) ∉ l := fun hmem => hj (List.mem_map.2 ⟨(k, v), hmem, rfl⟩)
      simp [hnot, eq_comm]
    · have hbeq : (k == j) = false := by simpa using hk
      simp only [hbeq, hk, false_and, false_or]
      exact ih hl

/-- Where no name occurs twice the order does not matter for looking names up. -/
theorem lookup_perm {κ : Type} [DecidableEq κ] {l l' : List (κ × β)} (h : l.Perm l')
    (hl : (l.map (·.1)).Nodup) (k : κ) : l.lookup k = l'.lookup k := by
  apply Option.ext
  intro v
  have hl' : (l'.map (·.1)).Nodup := (h.map _).nodup_iff.1 hl
  rw [lookup_eq_some_iff_mem hl, lookup_eq_some_iff_mem hl', h.mem_iff]

theorem lookup_map_snd (f : Tree → Tree) (fields : List (String × Tree)) (name : String) :
    (fields.map fun e => (e.1, f e.2)).lookup name = (fields.lookup name).map f := by
  induction fields with
  | nil => rfl
  | cons e fields ih =>
    rw [List.map_cons, List.lookup_cons, List.lookup_cons, ih]
    cases name == e.1 <;> rfl

/-- **The named fields of a record** are found in whatever order they are. -/
theorem fields?_arrange (horder : Arranges order) {fields : List (String × Tree)}
    (hnodup : (fields.map (·.1)).Nodup) (names : List String) :
    ((record fields).arrange order).fields? names =
      ((record fields).fields? names).map (List.map (arrange order)) := by
  have hlookup (name : String) :
      (order (fields.map fun e => (e.1, arrange order e.2))).lookup name =
        (fields.lookup name).map (arrange order) := by
    rw [← lookup_map_snd]
    refine lookup_perm (horder _) (((horder _).map _).nodup_iff.2 ?_) name
    rwa [List.map_map]
  rw [arrange_record, fields?, fields?]
  induction names with
  | nil => rfl
  | cons name names ih =>
    rw [List.mapM_cons, List.mapM_cons, hlookup, ih]
    cases fields.lookup name with
    | none => rfl
    | some t => cases names.mapM fun name => fields.lookup name <;> rfl

/-! ## Reading maps -/

/-- If every entry can be read then all of them are. -/
theorem mapM_eq_filterMap {γ δ : Type} {f : γ → Option δ} {l : List γ}
    (h : ∀ x ∈ l, (f x).isSome = true) : l.mapM f = some (l.filterMap f) := by
  induction l with
  | nil => rfl
  | cons x l ih =>
    obtain ⟨hx, hl⟩ := List.forall_mem_cons.1 h
    obtain ⟨y, hy⟩ := Option.isSome_iff_exists.1 hx
    rw [List.mapM_cons, hy, ih hl, List.filterMap_cons_some hy]
    rfl

theorem key?_write {n : Nat} (h : n < limit) : key? (Decimal.write n) = some n := by
  rw [key?, Decimal.read?_write, Option.filter_some, if_pos (decide_eq_true h)]

/-- A map is what any list of its entries makes. -/
theorem ofList_of_perm {m : IdMap β} {l : List (Nat × β)} (h : l.Perm m.entries) :
    IdMap.ofList l = m := by
  apply IdMap.ext
  intro k
  have hnodup : (l.map (·.1)).Nodup := (h.map _).nodup_iff.2 m.nodup_keys
  rw [IdMap.ofList, IdMap.get?_insertAll, IdMap.get?_empty, Option.or_none,
    lookup_perm (l.reverse_perm) ((l.reverse_perm.map _).nodup_iff.2 hnodup), lookup_perm h hnodup]
  rfl

/-- **The map that a record stands for** is read in whatever order the fields are, if its keys are
    below the limit and its values can be read. -/
theorem idMap?_of_perm (tree : β → Tree) {value? : Tree → Option β} {m : IdMap β}
    {fields : List (String × Tree)}
    (hfields : fields.Perm (m.entries.map fun e => (Decimal.write e.1, tree e.2)))
    (h : ∀ e ∈ m.entries, e.1 < limit ∧ value? (tree e.2) = some e.2) :
    (record fields).idMap? value? = some m := by
  let pair? (e : String × Tree) : Option (Nat × β) := do
    let k ← key? e.1
    let v ← value? e.2
    some (k, v)
  have hpair (e : Nat × β) (he : e ∈ m.entries) :
      pair? (Decimal.write e.1, tree e.2) = some e := by
    obtain ⟨hkey, hvalue⟩ := h e he
    show ((key? (Decimal.write e.1)).bind fun k =>
      (value? (tree e.2)).bind fun v => some (k, v)) = _
    rw [key?_write hkey, hvalue]
    rfl
  have hsome : ∀ e ∈ fields, (pair? e).isSome = true := by
    intro e he
    obtain ⟨e', he', rfl⟩ := List.mem_map.1 (hfields.mem_iff.1 he)
    rw [hpair e' he']
    rfl
  have hread : fields.filterMap pair? |>.Perm m.entries := by
    refine (hfields.filterMap pair?).trans (List.Perm.of_eq ?_)
    rw [List.filterMap_map]
    exact (List.filterMap_congr hpair).trans List.filterMap_some
  show ((fields.mapM pair?).bind fun entries => some (IdMap.ofList entries)) = some m
  rw [mapM_eq_filterMap hsome, Option.bind_some, ofList_of_perm hread]

end Wiring.Saved.Tree
