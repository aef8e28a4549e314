import Mathlib.Data.List.Nodup
import Wiring.Diagram.Components

/-!
# Floods

A flood goes on from a stacked node to its neighbours: all of them get the index of the flood, and
those that had none are stacked in turn. Afterwards the indices are replaced by numbers that count
up in the order in which the indices appear.

## Main definitions

- `Flows` — what the flood of one node does to the indices
- `Heads` — the smallest keys of all values, in the order in which the values appear

## Main statements

- `exists_flows` — the neighbours that it stacks
- `floodFrom_cons`, `floodFrom_cons_missing` — the rounds of a flood
- `Heads.cons`, `exists_heads` — the heads of ascending entries
- `exists_canonicalNumbering` — the numbers are the positions of the heads
-/

namespace Wiring

open scoped Unlimited

/-! ## Rounds of a flood -/

section Flood

variable {α : Type} {index u v w : Nat} {dry : IdMap (Node α)} {rest neighbours fresh : List Nat}
  {component component' : IdMap Nat}

/-- **Neighbours are flooded**: all get the index, and those that had none are stacked, each
    once. -/
structure Flows (index : Nat) (component component' : IdMap Nat) (neighbours fresh : List Nat) :
    Prop where
  nodup : fresh.Nodup
  mem_fresh : ∀ v, v ∈ fresh ↔ v ∈ neighbours ∧ component.contains v = false
  get? : ∀ v, component'.get? v = if v ∈ neighbours then some index else component.get? v

namespace Flows

theorem contains_iff (h : Flows index component component' neighbours fresh) :
    component'.contains v = true ↔ v ∈ neighbours ∨ component.contains v = true := by
  rw [IdMap.contains, h.get?, IdMap.contains]
  split <;> simp [*]

/-- A neighbour more. It is found anew unless it had an index. -/
theorem cons (h : Flows index (component.insert w index) component' neighbours fresh) :
    Flows index component component' (w :: neighbours)
      (if component.contains w then fresh else fresh ++ [w]) := by
  have hmem (v : Nat) : v ∈ fresh ↔ v ∈ neighbours ∧ v ≠ w ∧ component.contains v = false := by
    rw [h.mem_fresh, IdMap.contains_insert, Bool.or_eq_false_iff, beq_eq_false_iff_ne]
  refine ⟨?_, fun v => ?_, fun v => ?_⟩
  · split
    · exact h.nodup
    · refine List.nodup_append.2 ⟨h.nodup, List.nodup_singleton w, fun v hv x hx => ?_⟩
      rw [List.mem_singleton.1 hx]
      exact ((hmem v).1 hv).2.1
  · by_cases hv : v = w
    · subst hv
      cases hc : component.contains v <;> simp [hmem]
    · rw [List.mem_cons, or_iff_right hv]
      cases component.contains w <;> simp [hmem, hv]
  · rw [h.get?, IdMap.get?_insert]
    by_cases hw : v = w <;> by_cases hv : v ∈ neighbours <;> simp [hw, hv]

end Flows

theorem exists_flows (index : Nat) (neighbours stack : List Nat) (component : IdMap Nat) :
    ∃ fresh component', neighbours.foldl (flow index) (stack, component) =
      (fresh ++ stack, component') ∧ Flows index component component' neighbours fresh := by
  induction neighbours generalizing stack component with
  | nil => exact ⟨[], component, rfl, .nil, by simp, by simp⟩
  | cons w neighbours ih =>
    obtain ⟨fresh, component', heq, hflows⟩ :=
      ih (if component.contains w then stack else w :: stack) (component.insert w index)
    refine ⟨_, component', ?_, hflows.cons⟩
    rw [List.foldl_cons, flow, heq]
    cases component.contains w <;> simp

theorem floodFrom_cons_missing (hn : dry.get? u = none) :
    floodFrom index dry (u :: rest) component = .error (.dangling u) := by
  rw [floodFrom]
  split
  · rfl
  · rename_i n hn'
    rw [hn] at hn'
    cases hn'

theorem floodFrom_cons {n : Node α} (hn : dry.get? u = some n) :
    floodFrom index dry (u :: rest) component =
      let s := (n.children.keys ++ n.parents.keys).foldl (flow index) (rest, component)
      floodFrom index (dry.erase u) s.1 s.2 := by
  rw [floodFrom]
  split
  · rename_i hn'
    rw [hn] at hn'
    cases hn'
  · rename_i n' hn'
    rw [hn, Option.some.injEq] at hn'
    subst hn'
    rfl

end Flood

/-! ## Numbers in the order of appearance -/

theorem nodup_eraseDups (l : List Nat) : l.eraseDups.Nodup := by
  induction hlength : l.length using Nat.strongRecOn generalizing l with
  | ind n ih =>
    cases l with
    | nil => exact .nil
    | cons a l =>
      rw [List.eraseDups_cons]
      refine List.nodup_cons.2 ⟨fun hmem => ?_, ih _ ?_ _ rfl⟩
      · rw [List.mem_eraseDups] at hmem
        simpa using (List.mem_filter.1 hmem).2
      · rw [← hlength, List.length_cons]
        exact Nat.lt_succ_of_le (List.length_filter_le _ l)

/-- **The heads of the values**: one for each, and the `i`-th head is the smallest key of the value
    that appears as the `i`-th. -/
structure Heads (entries : List (Nat × Nat)) (heads : List Nat) : Prop where
  ascending : heads.Pairwise (· < ·)
  length_eq : heads.length = (entries.map (·.2)).eraseDups.length
  first : ∀ (i h : Nat), heads[i]? = some h → ∃ c, (entries.map (·.2)).eraseDups[i]? = some c ∧
    (h, c) ∈ entries ∧ ∀ k, (k, c) ∈ entries → h ≤ k

namespace Heads

variable {entries rest : List (Nat × Nat)} {heads : List Nat} {c h k : Nat}

theorem mem (hh : Heads entries heads) (hmem : h ∈ heads) : ∃ c, (h, c) ∈ entries := by
  obtain ⟨i, hi⟩ := List.mem_iff_getElem?.1 hmem
  obtain ⟨c, -, hentry, -⟩ := hh.first i h hi
  exact ⟨c, hentry⟩

/-- The first key is the head of its value; the other values appear among the entries with them. -/
theorem cons (hh : Heads (rest.filter fun e => !e.2 == c) heads) (hk : ∀ e ∈ rest, k < e.1) :
    Heads ((k, c) :: rest) (k :: heads) := by
  have hmem (h c' : Nat) : (h, c') ∈ rest.filter (fun e => !e.2 == c) ↔
      (h, c') ∈ rest ∧ c' ≠ c := by
    simp
  have hvalues : (((k, c) :: rest).map (·.2)).eraseDups =
      c :: ((rest.filter fun e => !e.2 == c).map (·.2)).eraseDups := by
    rw [List.map_cons, List.eraseDups_cons, List.filter_map]
    rfl
  refine ⟨List.pairwise_cons.2 ⟨fun h hh' => ?_, hh.ascending⟩, ?_, fun i h hi => ?_⟩
  · obtain ⟨c', hentry⟩ := hh.mem hh'
    exact hk _ ((hmem h c').1 hentry).1
  · rw [hvalues, List.length_cons, List.length_cons, hh.length_eq]
  · rw [hvalues]
    cases i with
    | zero =>
      obtain rfl : k = h := Option.some.inj hi
      refine ⟨c, rfl, List.mem_cons_self, fun k' hk' => ?_⟩
      rcases List.mem_cons.1 hk' with heq | hk'
      · exact Nat.le_of_eq (congrArg Prod.fst heq).symm
      · exact Nat.le_of_lt (hk _ hk')
    | succ i =>
      obtain ⟨c', hc', hentry, hleast⟩ := hh.first i h hi
      obtain ⟨hentry, hne⟩ := (hmem h c').1 hentry
      refine ⟨c', hc', List.mem_cons_of_mem _ hentry, fun k' hk' => ?_⟩
      rcases List.mem_cons.1 hk' with heq | hk'
      · exact absurd (congrArg Prod.snd heq) hne
      · exact hleast k' ((hmem k' c').2 ⟨hk', hne⟩)

end Heads

/-- Entries in the order of their keys have heads. -/
theorem exists_heads {entries : List (Nat × Nat)}
    (hascending : entries.Pairwise fun a b => a.1 < b.1) : ∃ heads, Heads entries heads := by
  induction hlength : entries.length using Nat.strongRecOn generalizing entries with
  | ind n ih =>
    cases entries with
    | nil => exact ⟨[], .nil, rfl, fun i h hi => nomatch hi⟩
    | cons e rest =>
      obtain ⟨k, c⟩ := e
      obtain ⟨hk, hrest⟩ := List.pairwise_cons.1 hascending
      have hfewer : (rest.filter fun e => !e.2 == c).length < n := by
        rw [← hlength, List.length_cons]
        exact Nat.lt_succ_of_le (List.length_filter_le _ rest)
      obtain ⟨heads, hheads⟩ := ih _ hfewer (hrest.filter _) rfl
      exact ⟨k :: heads, hheads.cons hk⟩

/-- **Numbers are positions of heads**: a key gets the number `i` exactly if it has the value of the
    `i`-th of the heads, which are the smallest keys of all values in ascending order. -/
theorem exists_canonicalNumbering (component : IdMap Nat) :
    ∃ heads : List Nat, heads.Pairwise (· < ·) ∧
      heads.length = component.values.eraseDups.length ∧
      (∀ h ∈ heads, ∃ c, component.get? h = some c ∧ ∀ k, component.get? k = some c → h ≤ k) ∧
      ∀ v i, (canonicalNumbering component).get? v = some i ↔
        ∃ h, heads[i]? = some h ∧ ∃ c, component.get? h = some c ∧ component.get? v = some c := by
  obtain ⟨heads, hheads, hlength, hfirst⟩ := exists_heads component.ascending
  rw [← IdMap.values] at hlength hfirst
  simp only [IdMap.mem_entries_iff] at hfirst
  refine ⟨heads, hheads, hlength, fun h hh => ?_, fun v i => ?_⟩
  · obtain ⟨i, hi⟩ := List.mem_iff_getElem?.1 hh
    obtain ⟨c, -, hc⟩ := hfirst i h hi
    exact ⟨c, hc⟩
  · rw [canonicalNumbering, IdMap.get?_map, Option.map_eq_some_iff]
    constructor
    · rintro ⟨c, hv, rfl⟩
      have hc : c ∈ component.values.eraseDups := by
        rw [List.mem_eraseDups, IdMap.mem_values_iff]
        exact ⟨v, hv⟩
      have hlt := List.idxOf_lt_length_of_mem hc
      rw [← hlength] at hlt
      obtain ⟨c', hc', hh, -⟩ := hfirst _ _ (List.getElem?_eq_getElem hlt)
      rw [List.getElem?_idxOf hc, Option.some.injEq] at hc'
      subst hc'
      exact ⟨_, List.getElem?_eq_getElem hlt, c, hh, hv⟩
    · rintro ⟨h, hi, c, hh, hv⟩
      obtain ⟨c', hc', hh', -⟩ := hfirst i h hi
      rw [hh, Option.some.injEq] at hh'
      subst hh'
      obtain ⟨hlt, hget⟩ := List.getElem?_eq_some_iff.1 hc'
      refine ⟨c, hv, ?_⟩
      rw [← hget]
      exact (nodup_eraseDups _).idxOf_getElem i hlt

end Wiring
