import Wiring.Proofs.Circuit.Outputs
import Wiring.Proofs.Circuit.Preservation

/-!
# What evaluation makes of a circuit

Folding starts from constants without arguments. The check also lets pass constants that have some,
and to these no rule applies: they stay where they are, an output that they feed has their value,
and a gate that they feed waits for an argument that never comes. So a circuit is read with two
kinds of values, those that gates can use and those that outputs can only show. In a normal circuit
nothing is known but constants, and so evaluation finds exactly what this reading says.

## Main definitions

- `Reading`, `Gate.reading` — values of both kinds, and what gates make of them
- `Circuit.reading` — the reading of a circuit whose inputs are unknown unless they are constants

## Main statements

- `Gate.lawful_reading` — folds keep readings
- `Gate.kleene_mono` — what gates make of more arguments that are known
- `Circuit.IsNormal.reading_eq_unknown` — in a normal circuit nothing is read but constants
- `Circuit.Sound.evaluate_eq_reading` — evaluation answers what is read at the outputs
-/

namespace Wiring

open scoped Unlimited

/-- **What can be told of a node**: nothing, a value, or a value that only outputs make use of. -/
inductive Reading where
  | unknown
  | known (v : Bool)
  | shown (v : Bool)
deriving DecidableEq

namespace Reading

instance : Inhabited Reading := ⟨.unknown⟩

/-- The value that a gate can use. -/
def usable? : Reading → Option Bool
  | known v => some v
  | unknown | shown _ => none

/-- The value that an output has. -/
def bit? : Reading → Option Bool
  | unknown => none
  | known v | shown v => some v

theorem bit?_of_usable? {x : Reading} {v : Bool} (h : x.usable? = some v) : x.bit? = some v := by
  cases x with
  | known w => exact h
  | unknown => cases h
  | shown w => cases h

theorem bit?_eq_none {x : Reading} : x.bit? = none ↔ x = .unknown := by
  cases x <;> simp [bit?]

/-- A value that gates can use, if there is one. -/
def ofOption : Option Bool → Reading
  | none => unknown
  | some v => known v

@[simp] theorem usable?_ofOption (x : Option Bool) : (ofOption x).usable? = x := by
  cases x <;> rfl

@[simp] theorem bit?_ofOption (x : Option Bool) : (ofOption x).bit? = x := by
  cases x <;> rfl

end Reading

namespace Gate

/-- What a gate makes of its arguments: a constant with arguments can only be shown. -/
def reading : Gate → List Reading → Reading
  | .const v, [] => .known v
  | .const v, _ :: _ => .shown v
  | gate, args => .ofOption (gate.kleene (args.map Reading.usable?))

theorem reading_const (v : Bool) {args : List Reading} (h : args ≠ []) :
    reading (.const v) args = .shown v := by
  cases args with
  | nil => exact absurd rfl h
  | cons x args => rfl

theorem reading_of_value?_eq_none {gate : Gate} (h : gate.value? = none) (args : List Reading) :
    gate.reading args = .ofOption (gate.kleene (args.map Reading.usable?)) := by
  cases gate with
  | const v => cases h
  | _ => rfl

theorem value?_of_absorbing? {gate : Gate} {v : Bool} (h : gate.absorbing? = some v) :
    gate.value? = none := by
  cases gate <;> first | rfl | cases h

/-- **Folds keep readings.** They take away and put down constants without arguments only. -/
theorem lawful_reading : Lawful reading .known where
  perm gate l l' h := by
    cases hv : gate.value? with
    | none =>
      rw [reading_of_value?_eq_none hv, reading_of_value?_eq_none hv,
        kleene_perm (h.map Reading.usable?)]
    | some v =>
      obtain rfl : gate = .const v := Circuit.value?_eq_some_iff.1 hv
      cases l with
      | nil => rw [h.nil_eq]
      | cons x l =>
        have hne : l' ≠ [] := fun hnil => by
          have hlength := h.length_eq
          rw [hnil] at hlength
          cases hlength
        rw [reading_const v (List.cons_ne_nil x l), reading_const v hne]
  const _ := rfl
  singleton gate v h := by
    rcases h with rfl | rfl <;> rfl
  neutral gate v l h := by
    have hv := value?_of_neutral? h
    rw [reading_of_value?_eq_none hv, reading_of_value?_eq_none hv, List.map_cons]
    exact congrArg Reading.ofOption (kleene_cons_neutral h _)
  absorbing gate v l h := by
    rw [reading_of_value?_eq_none (value?_of_absorbing? h), List.map_cons]
    exact congrArg Reading.ofOption (kleene_cons_absorbing h _)
  negated l := by
    rw [reading_of_value?_eq_none rfl, reading_of_value?_eq_none rfl,
      reading_of_value?_eq_none rfl, List.map_singleton, Reading.usable?_ofOption, List.map_cons]
    exact congrArg Reading.ofOption (kleene_cons_true _)
  nil gate v h := by
    rw [reading_of_value?_eq_none (value?_of_neutral? h), List.map_nil, kleene_nil h]
    rfl

/-- A gate with arguments that are all unknown is unknown. -/
theorem kleene_unknown {gate : Gate} {ins outs : Nat} (h : gate.Allows ins outs)
    (hv : gate.value? = none) (hsome : ∀ w, gate.neutral? = some w → ins ≠ 0) :
    gate.kleene (List.replicate ins none) = none := by
  cases gate with
  | copy =>
    obtain rfl : ins = 1 := h
    rfl
  | not =>
    obtain rfl : ins = 1 := h.1
    rfl
  | and => simp [kleene, hsome true rfl]
  | or => simp [kleene, hsome false rfl]
  | xor => simp [kleene, hsome false rfl]
  | const w => cases hv
  | free name => exact h.elim

/-- **What is settled stays so when more of the arguments are known.** -/
theorem kleene_mono {α : Type} {gate : Gate} {l : List α} {f f' : α → Option Bool} {v : Bool}
    (hf : ∀ a ∈ l, ∀ w, f a = some w → f' a = some w) (h : gate.kleene (l.map f) = some v) :
    gate.kleene (l.map f') = some v := by
  have hmem (w : Bool) (hw : some w ∈ l.map f) : some w ∈ l.map f' := by
    obtain ⟨a, ha, hfa⟩ := List.mem_map.1 hw
    exact List.mem_map.2 ⟨a, ha, hf a ha w hfa⟩
  -- without an unknown argument nothing can be learned, and the lists are the same
  have hall (hnone : none ∉ l.map f) : l.map f' = l.map f := by
    refine List.map_congr_left fun a ha => ?_
    obtain ⟨w, hw⟩ := Option.ne_none_iff_exists'.1 fun hfa => hnone (List.mem_map.2 ⟨a, ha, hfa⟩)
    rw [hw, hf a ha w hw]
  have hsole (w : Bool) (hw : sole (l.map f) = some w) : sole (l.map f') = some w := by
    match l, hw with
    | [a], hw => exact hf a (List.mem_singleton_self a) w hw
  -- `&` and `|` differ only in the value that settles them
  have habsorbed (w : Bool)
      (hw : (if some w ∈ l.map f then some w else if none ∈ l.map f then none else some !w) =
        some v) :
      (if some w ∈ l.map f' then some w else if none ∈ l.map f' then none else some !w) =
        some v := by
    by_cases habsorbing : some w ∈ l.map f
    · rw [if_pos habsorbing] at hw
      rw [if_pos (hmem w habsorbing), hw]
    · rw [if_neg habsorbing] at hw
      by_cases hnone : none ∈ l.map f
      · rw [if_pos hnone] at hw
        cases hw
      · rw [hall hnone, if_neg habsorbing, hw]
  cases gate with
  | copy => exact hsole v h
  | not =>
    obtain ⟨w, hw, rfl⟩ := Option.map_eq_some_iff.1 h
    rw [kleene, hsole w hw, Option.map_some]
  | and => exact habsorbed false h
  | or => exact habsorbed true h
  | xor =>
    rw [kleene] at h ⊢
    by_cases hnone : none ∈ l.map f
    · rw [if_pos hnone] at h
      cases h
    · rwa [hall hnone]
  | const w => exact h
  | free name => cases h

end Gate

namespace Circuit

variable {g : Circuit} {k o p u : Nat} {v : Bool} {label : Gate} {f : Nat → Option Bool}

/-- The more is known of the others, the more is known of a node. -/
theorem nodeValue_mono {σ ν ν' : Nat → Option Bool}
    (hν : ∀ u ∈ g.above k, ∀ w, ν u = some w → ν' u = some w)
    (h : nodeValue Gate.kleene g σ ν k = some v) : nodeValue Gate.kleene g σ ν' k = some v := by
  rw [nodeValue] at h ⊢
  split at h
  · rename_i hout
    rw [if_pos hout]
    -- an output makes of its parent what a copy makes of its argument
    have hcopy : Gate.copy.kleene ((g.above k).map ν) = some v := h
    exact Gate.kleene_mono hν hcopy
  · rename_i hout
    rw [if_neg hout]
    cases hl : g.label? k with
    | none =>
      rw [hl] at h
      cases h
    | some label =>
      simp only [hl] at h ⊢
      split at h
      · rename_i hin
        rwa [if_pos hin]
      · rename_i hin
        rw [if_neg hin]
        exact Gate.kleene_mono hν h

/-- **The reading of a circuit**, nothing being told of inputs without a constant. -/
def reading (g : Circuit) : Nat → Reading := value Gate.reading g fun _ => .unknown

theorem Lax.settles_reading (hg : g.Lax) :
    Settles Gate.reading g (fun _ => .unknown) (reading g) :=
  settles_value hg.coherent hg.acyclic

/-- An output has the reading of the node that feeds it. -/
theorem Lax.reading_output (hg : g.Lax) (ho : o ∈ g.outputs) (hp : g.above o = [p]) :
    reading g o = reading g p := by
  rw [hg.settles_reading o (hg.contains_of_mem_outputs ho), nodeValue_output ho, hp]
  rfl

theorem Lax.reading_const (hg : g.Lax) (hk : g.label? k = some (.const v)) (hout : k ∉ g.outputs) :
    reading g k = if g.above k = [] then .known v else .shown v := by
  rw [hg.settles_reading k (Diagram.contains_iff_label?.2 ⟨_, hk⟩),
    nodeValue_gate hk hout (.inr rfl)]
  split
  · rename_i hnil
    rw [hnil]
    rfl
  · rename_i hne
    exact Gate.reading_const v (by simpa using hne)

/-! ## Normal circuits -/

namespace IsNormal

variable (hn : IsNormal g) (hg : g.Lax)
include hn hg

/-- A constant without arguments in a normal circuit has one child, an output or a constant. -/
theorem exists_below (hk : g.label? k = some (.const v)) (habove : g.above k = [])
    (hout : k ∉ g.outputs) :
    ∃ c, g.below k = [c] ∧ (c ∈ g.outputs ∨ ∃ w, g.label? c = some (.const w)) := by
  have hkg : g.contains k = true := Diagram.contains_iff_label?.2 ⟨_, hk⟩
  -- with no child it would be a dead end, and with several it could be split
  have hsome : g.below k ≠ [] := fun hnil => hn.deadEnd k ⟨hkg, hnil, hout⟩
  have hone : (g.below k).length = 1 := by
    have hmany : ¬1 < (g.below k).length := fun hmany =>
      hn.source k (.inl ⟨v, hk, habove, hmany⟩)
    have := List.length_pos_iff.2 hsome
    omega
  obtain ⟨c, hc⟩ := List.length_eq_one_iff.1 hone
  refine ⟨c, hc, or_iff_not_imp_left.2 fun hcout => ?_⟩
  have hf : Feeds g k v c := ⟨hk, habove, hc, hcout⟩
  obtain ⟨label, hl⟩ := Diagram.contains_iff_label?.1 (hf.contains_target hg.coherent)
  cases label with
  | const w => exact ⟨w, hl⟩
  | free name => exact (hf.allows hg hl).elim
  | _ => exact absurd (.inr ⟨v, c, _, hf, hl, rfl⟩) (hn.source k)

/-- A constant above a node that is neither an output nor a constant has arguments itself. -/
theorem above_ne_nil (hu : g.label? u = some (.const v)) (hku : k ∈ g.below u)
    (hk : g.label? k = some label) (hout : k ∉ g.outputs) (hv : label.value? = none) :
    g.above u ≠ [] := by
  intro hnil
  obtain ⟨c, hc, hchild⟩ :=
    hn.exists_below hg hu hnil (hg.not_mem_outputs (List.ne_nil_of_mem hku))
  obtain rfl : k = c := List.mem_singleton.1 (hc ▸ hku)
  rcases hchild with hchild | ⟨w, hchild⟩
  · exact hout hchild
  · obtain rfl := Option.some.inj (hk.symm.trans hchild)
    cases hv

/-- **Whatever is no constant, and no output, is unknown.** -/
theorem reading_eq_unknown (hk : g.label? k = some label) (hout : k ∉ g.outputs)
    (hv : label.value? = none) : reading g k = .unknown := by
  obtain ⟨r, hr⟩ := hg.acyclic
  -- an argument that could be used would be a constant without arguments, and no gate has these
  induction hrank : r k using Nat.strongRecOn generalizing k label with
  | ind rank ih =>
    have hnode := hg.settles_reading k (Diagram.contains_iff_label?.2 ⟨label, hk⟩)
    have hargs : ∀ u ∈ g.above k, (reading g u).usable? = none := by
      intro u hu
      have hku : k ∈ g.below u := hg.coherent.mem_above_iff.1 hu
      have huout : u ∉ g.outputs := hg.not_mem_outputs (List.ne_nil_of_mem hku)
      obtain ⟨label', hl'⟩ :=
        Diagram.contains_iff_label?.1 (hg.coherent.contains_of_mem_above hu)
      cases hv' : label'.value? with
      | none =>
        rw [ih (r u) (hrank ▸ hr u k hu) hl' huout hv' rfl]
        rfl
      | some w =>
        rw [value?_eq_some_iff.1 hv'] at hl'
        rw [hg.reading_const hl' huout, if_neg (hn.above_ne_nil hg hl' hku hk hout hv)]
        rfl
    by_cases hin : k ∈ g.inputs
    · rw [hnode, nodeValue_input hk hout hin hv]
    · have hmap : ((g.above k).map (reading g)).map Reading.usable? =
          List.replicate (g.above k).length none := by
        rw [List.map_map, List.eq_replicate_iff, List.length_map]
        refine ⟨rfl, fun b hb => ?_⟩
        obtain ⟨u, hu, rfl⟩ := List.mem_map.1 hb
        exact hargs u hu
      have hsome (w : Bool) (hw : label.neutral? = some w) : (g.above k).length ≠ 0 := by
        intro hzero
        exact hn.neutral k ⟨w, label, hk, hw, List.length_eq_zero_iff.1 hzero⟩
      rw [hnode, nodeValue_gate hk hout (.inl hin), Gate.reading_of_value?_eq_none hv, hmap,
        Gate.kleene_unknown (hg.gate k label hk hin hout) hv hsome]
      rfl

end IsNormal

/-! ## Reading bits off -/

/-- The character of the bit at `o`, or the complaint that there is none. -/
def bitOrFault (f : Nat → Option Bool) (o : Nat) : Except Fault Char :=
  match f o with
  | some v => .ok (bitChar v)
  | none => .error (.unresolved o)

theorem bitOrFault_eq_ok (h : f o = some v) : bitOrFault f o = .ok (bitChar v) := by
  rw [bitOrFault, h]

/-- If there is a bit everywhere then all of them are read off. -/
theorem mapM_bitOrFault_eq_ok {os : List Nat} {bits : List Bool} (h : os.map f = bits.map some) :
    os.mapM (bitOrFault f) = .ok (bits.map bitChar) := by
  induction os generalizing bits with
  | nil =>
    obtain rfl : bits = [] := List.map_eq_nil_iff.1 h.symm
    rfl
  | cons o os ih =>
    cases bits with
    | nil => cases h
    | cons v bits =>
      rw [List.map_cons, List.map_cons, List.cons.injEq] at h
      rw [List.mapM_cons, bitOrFault_eq_ok h.1, ih h.2]
      rfl

/-- Otherwise the complaint is about the first place that has none. -/
theorem mapM_bitOrFault_eq_error {before after : List Nat} (hbefore : ∀ b ∈ before, f b ≠ none)
    (ho : f o = none) :
    (before ++ o :: after).mapM (bitOrFault f) = .error (.unresolved o) := by
  refine mapM_eq_error (b := fun b => bitChar ((f b).getD false)) (fun b hb => ?_) ?_
  · obtain ⟨v, hv⟩ := Option.ne_none_iff_exists'.1 (hbefore b hb)
    rw [bitOrFault_eq_ok hv, hv]
    rfl
  · rw [bitOrFault, ho]

/-- The bit at an output of a normal circuit is what is read there. -/
theorem IsNormal.outputBit_eq (hn : IsNormal g) (hg : g.Lax) (ho : o ∈ g.outputs) :
    outputBit g o = bitOrFault (fun o => (reading g o).bit?) o := by
  obtain ⟨hog, -, hone⟩ := hg.output o ho
  obtain ⟨p, hp⟩ := List.length_eq_one_iff.1 hone
  obtain ⟨n, hnode⟩ := Diagram.contains_iff.1 hog
  have hsingle : n.parents.single? = some p := by
    rw [(hg.coherent.positive o n hnode).1.single?_eq_some_iff, ← Diagram.above_of_node? hnode, hp]
  have hop : o ∈ g.below p := by
    rw [← hg.coherent.mem_above_iff, hp]
    exact List.mem_singleton_self p
  have hpout : p ∉ g.outputs := hg.not_mem_outputs (List.ne_nil_of_mem hop)
  obtain ⟨label, hl⟩ := Diagram.contains_iff_label?.1 (Diagram.contains_of_mem_below hop)
  have hbit : (reading g p).bit? =
      n.parents.single?.bind fun p => (g.label? p).bind Gate.value? := by
    rw [hsingle, Option.bind_some, hl, Option.bind_some]
    cases hv : label.value? with
    | none =>
      rw [hn.reading_eq_unknown hg hl hpout hv]
      rfl
    | some v =>
      rw [value?_eq_some_iff.1 hv] at hl
      rw [hg.reading_const hl hpout]
      split <;> rfl
  have hshown := outputBit_of_node? hnode
  rw [← hbit, ← hg.reading_output ho hp] at hshown
  exact hshown

/-- **Evaluation answers what is read at the outputs**, one after the other. -/
theorem Sound.evaluate_eq_reading (hg : g.Sound) (hp : g.PlainInputs) :
    evaluate g = (g.outputs.mapM (bitOrFault fun o => (reading g o).bit?) >>=
      fun bits => .ok (String.ofList bits)) := by
  obtain ⟨passes, h, hrun, hr, -, hnormal⟩ := hg.runsTo_normalize none
  -- normalizing has not changed what is read at the outputs
  have hbit (o : Nat) (ho : o ∈ g.outputs) :
      outputBit h o = bitOrFault (fun o => (reading g o).bit?) o := by
    rw [(hnormal rfl).outputBit_eq hr.lax (by rwa [hr.outputs_eq]), bitOrFault, bitOrFault, reading,
      hr.value_eq Gate.lawful_reading hg.lax hp.givesNeutral ho, reading]
  rw [evaluate, evaluateWithin, hrun]
  show outputBits h = _
  rw [outputBits, hr.outputs_eq, mapM_congr hbit]

end Circuit

end Wiring
