import Wiring.IdMap.Lemmas
import Wiring.Tally.Basic

/-!
# Maps under raised keys

A map whose keys are all raised by the same distance, while its values are renamed as well. Every
operation on maps commutes with this, as long as what it does to values does.

## Main definitions

- `IdMap.raise` — keys raised and values renamed

## Main statements

- `IdMap.get?_raise`, `IdMap.keys_raise`, `IdMap.values_raise` — what is in a raised map
- `IdMap.alter_raise`, `IdMap.filter_raise`, `IdMap.map_raise`, `IdMap.ofList_raise` — updates
- `Tally.add_shift`, `Tally.single?_shift` — tallies of raised neighbours
-/

namespace Wiring

open scoped Unlimited

namespace IdMap

variable {β γ δ ε : Type} {d k : Nat} {f : β → γ} {m : IdMap β}

/-- **The map with every key raised by `d`** and every value renamed by `f`. -/
def raise (d : Nat) (f : β → γ) (m : IdMap β) : IdMap γ := (m.map fun _ v => f v).shift d

theorem entries_raise : (m.raise d f).entries = m.entries.map fun e => (e.1 + d, f e.2) := by
  show (m.entries.map _).map _ = _
  rw [List.map_map]
  rfl

theorem shift_eq_raise (m : IdMap β) (d : Nat) : m.shift d = m.raise d id := by
  have hsame : (m.map fun _ v => id v) = m := ext fun k => by rw [get?_map]; exact Option.map_id'
  rw [raise, hsame]

@[simp] theorem get?_raise : (m.raise d f).get? (k + d) = (m.get? k).map f := by
  rw [raise, get?_shift, get?_map]

theorem get?_raise_of_lt (h : k < d) : (m.raise d f).get? k = none := get?_shift_of_lt h

@[simp] theorem contains_raise : (m.raise d f).contains (k + d) = m.contains k := by
  rw [contains, contains, get?_raise, Option.isSome_map]

@[simp] theorem keys_raise : (m.raise d f).keys = m.keys.map (· + d) := by
  rw [keys, entries_raise, keys, List.map_map, List.map_map]
  rfl

@[simp] theorem values_raise : (m.raise d f).values = m.values.map f := by
  rw [values, entries_raise, values, List.map_map, List.map_map]
  rfl

@[simp] theorem size_raise : (m.raise d f).size = m.size := by
  rw [size, entries_raise, List.length_map, size]

@[simp] theorem isEmpty_raise : (m.raise d f).isEmpty = m.isEmpty := by
  rw [isEmpty, entries_raise, List.isEmpty_map, isEmpty]

@[simp] theorem raise_empty : (empty : IdMap β).raise d f = empty := rfl

/-- A map is a raised one if it has the raised entries, and nothing below. -/
theorem eq_raise {m' : IdMap γ} (h : ∀ k, m'.get? (k + d) = (m.get? k).map f)
    (hlt : ∀ k < d, m'.get? k = none) : m' = m.raise d f := by
  refine ext fun j => ?_
  by_cases hj : j < d
  · rw [hlt j hj, get?_raise_of_lt hj]
  · obtain ⟨k, rfl⟩ := Nat.exists_eq_add_of_le' (Nat.le_of_not_lt hj)
    rw [h, get?_raise]

/-! ## Updates -/

theorem alter_raise {p : Option β → Option β} {q : Option γ → Option γ}
    (h : ∀ o, q (o.map f) = (p o).map f) :
    (m.raise d f).alter (k + d) q = (m.alter k p).raise d f := by
  refine eq_raise (fun j => ?_) fun j hj => ?_
  · rw [get?_alter, get?_alter, get?_raise, get?_raise, h]
    by_cases hj : j = k
    · rw [if_pos hj, if_pos (by rw [hj])]
    · rw [if_neg hj, if_neg (by omega)]
  · rw [get?_alter, if_neg (by omega), get?_raise_of_lt hj]

theorem insert_raise {v : β} : (m.raise d f).insert (k + d) (f v) = (m.insert k v).raise d f :=
  alter_raise fun _ => rfl

theorem erase_raise : (m.raise d f).erase (k + d) = (m.erase k).raise d f :=
  alter_raise fun _ => rfl

theorem modify_raise {u : β → β} {u' : γ → γ} (h : ∀ v, u' (f v) = f (u v)) :
    (m.raise d f).modify (k + d) u' = (m.modify k u).raise d f :=
  alter_raise fun o => by
    cases o with
    | none => rfl
    | some v => exact congrArg some (h v)

theorem filter_raise {p : Nat → β → Bool} {p' : Nat → γ → Bool}
    (h : ∀ k v, p' (k + d) (f v) = p k v) :
    (m.raise d f).filter p' = (m.filter p).raise d f := by
  refine eq_raise (fun k => ?_) fun k hk => ?_
  · rw [get?_filter, get?_filter, get?_raise]
    cases m.get? k with
    | none => rfl
    | some v =>
      rw [Option.map_some, Option.filter_some, Option.filter_some, h]
      split <;> rfl
  · rw [get?_filter, get?_raise_of_lt hk]
    rfl

theorem map_raise {u : Nat → β → δ} {u' : Nat → γ → ε} {f' : δ → ε}
    (h : ∀ k v, u' (k + d) (f v) = f' (u k v)) :
    (m.raise d f).map u' = (m.map u).raise d f' := by
  refine eq_raise (fun k => ?_) fun k hk => ?_
  · rw [get?_map, get?_map, get?_raise, Option.map_map, Option.map_map]
    exact congrArg (Option.map · (m.get? k)) (funext fun v => h k v)
  · rw [get?_map, get?_raise_of_lt hk]
    rfl

theorem insertAll_raise (l : List (Nat × β)) :
    (m.raise d f).insertAll (l.map fun e => (e.1 + d, f e.2)) = (m.insertAll l).raise d f := by
  induction l generalizing m with
  | nil => rfl
  | cons e l ih =>
    show ((m.raise d f).insert (e.1 + d) (f e.2)).insertAll _ = _
    rw [insert_raise, ih]
    rfl

theorem ofList_raise (l : List (Nat × β)) :
    ofList (l.map fun e => (e.1 + d, f e.2)) = (ofList l).raise d f := by
  rw [ofList, ofList, ← insertAll_raise, raise_empty]

/-! ## Keys alone -/

@[simp] theorem contains_shift : (m.shift d).contains (k + d) = m.contains k := by
  rw [shift_eq_raise, contains_raise]

@[simp] theorem keys_shift : (m.shift d).keys = m.keys.map (· + d) := by
  rw [shift_eq_raise, keys_raise]

@[simp] theorem values_shift : (m.shift d).values = m.values := by
  rw [shift_eq_raise, values_raise, List.map_id]

theorem alter_shift {p : Option β → Option β} :
    (m.shift d).alter (k + d) p = (m.alter k p).shift d := by
  rw [shift_eq_raise, shift_eq_raise]
  exact alter_raise fun o => by rw [Option.map_id]; rfl

theorem insert_shift {v : β} : (m.shift d).insert (k + d) v = (m.insert k v).shift d := alter_shift

theorem erase_shift : (m.shift d).erase (k + d) = (m.erase k).shift d := alter_shift

theorem modify_shift {u : β → β} : (m.shift d).modify (k + d) u = (m.modify k u).shift d :=
  alter_shift

theorem filter_shift {p p' : Nat → β → Bool} (h : ∀ k v, p' (k + d) v = p k v) :
    (m.shift d).filter p' = (m.filter p).shift d := by
  rw [shift_eq_raise, shift_eq_raise]
  exact filter_raise h

theorem map_shift {u : Nat → β → γ} {u' : Nat → β → γ} (h : ∀ k v, u' (k + d) v = u k v) :
    (m.shift d).map u' = (m.map u).shift d := by
  rw [shift_eq_raise, shift_eq_raise]
  exact map_raise h

theorem ofList_shift (l : List (Nat × β)) :
    ofList (l.map fun e => (e.1 + d, e.2)) = (ofList l).shift d := by
  rw [shift_eq_raise, ← ofList_raise]
  rfl

end IdMap

namespace Tally

variable {t : Tally} {d k m : Nat}

@[simp] theorem total_shift : total (t.shift d) = t.total := by
  rw [total, IdMap.values_shift, total]

theorem add_shift : add (t.shift d) (k + d) m = (t.add k m).shift d := by
  unfold add
  split
  · rfl
  · exact IdMap.alter_shift

theorem single?_shift : single? (t.shift d) = t.single?.map (· + d) := by
  have hentries : (t.shift d).entries = t.entries.map fun e => (e.1 + d, e.2) := rfl
  unfold single?
  rw [hentries]
  match t.entries with
  | [] => rfl
  | [(_, 0)] | [(_, 1)] | [(_, _ + 2)] => rfl
  | (_, 0) :: _ :: _ | (_, 1) :: _ :: _ | (_, _ + 2) :: _ :: _ => rfl

end Tally

end Wiring
