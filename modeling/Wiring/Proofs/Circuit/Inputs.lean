import Wiring.Proofs.Circuit.Copies
import Wiring.Proofs.Circuit.Evaluating
import Wiring.Proofs.Words.Extent

/-!
# Circuits with bits at their inputs

To evaluate a circuit on a string of bits is to label its inputs with constants and to evaluate
what this makes of it. Every choice of bits gives values to all nodes, and the answer is the values
of the outputs.

## Main definitions

- `Circuit.bitString`, `Circuit.IsBits` — strings of bits
- `Circuit.valued` — a circuit with bits at its inputs

## Main statements

- `Circuit.readInputBits_eq_ok_iff` — which strings are accepted
- `Circuit.Lax.exists_obeys` — every choice of bits gives values
- `Circuit.Sound.evaluateOn_eq` — evaluation answers those of the outputs
- `Circuit.Lax.evaluateOn_eq` — and does so within words
-/

namespace Wiring

open scoped Unlimited

namespace Circuit

variable {g h : Circuit} {τ : Nat → Bool} {values : List Bool} {bits : String} {v : Bool} {n : Nat}

/-! ## Strings of bits -/

/-- Bits, written as a string. -/
def bitString (values : List Bool) : String := String.ofList (values.map bitChar)

/-- A string of `n` zeros and ones. -/
def IsBits (bits : String) (n : Nat) : Prop :=
  bits.toList.length = n ∧ ∀ c ∈ bits.toList, c = '0' ∨ c = '1'

theorem toList_bitString (values : List Bool) :
    (bitString values).toList = values.map bitChar := String.toList_ofList

theorem readBit_eq_ok_iff {c : Char} : readBit c = .ok v ↔ c = bitChar v := by
  unfold readBit bitChar
  constructor
  · intro h
    split at h
    · cases h
      assumption
    · split at h
      · cases h
        assumption
      · cases h
  · rintro rfl
    cases v <;> rfl

theorem mapM_readBit_eq_ok_iff {l : List Char} :
    l.mapM readBit = .ok values ↔ l = values.map bitChar := by
  induction l generalizing values with
  | nil =>
    rw [List.mapM_nil, eq_comm (a := []), List.map_eq_nil_iff]
    show Except.ok [] = .ok values ↔ _
    rw [Except.ok.injEq, eq_comm]
  | cons c l ih =>
    rw [List.mapM_cons, bind_eq_ok_iff]
    constructor
    · rintro ⟨v, hv, hrest⟩
      obtain ⟨vs, hvs, heq⟩ := bind_eq_ok_iff.1 hrest
      obtain rfl : v :: vs = values := Except.ok.inj heq
      rw [List.map_cons, ← readBit_eq_ok_iff.1 hv, ← ih.1 hvs]
    · intro h
      obtain ⟨v, vs, rfl, hc, hl⟩ := List.map_eq_cons_iff.1 h.symm
      exact ⟨v, readBit_eq_ok_iff.2 hc.symm, bind_eq_ok_iff.2 ⟨vs, ih.2 hl.symm, rfl⟩⟩

/-- A string is accepted if it is made of as many bits as there are inputs. -/
theorem readInputBits_eq_ok_iff : readInputBits g bits = .ok values ↔
    values.length = g.inputs.length ∧ bits = bitString values := by
  rw [readInputBits, bind_eq_ok_iff]
  constructor
  · rintro ⟨read, hread, hlength⟩
    split at hlength
    · cases hlength
      refine ⟨by assumption, String.toList_injective ?_⟩
      rw [toList_bitString, mapM_readBit_eq_ok_iff.1 hread]
    · cases hlength
  · rintro ⟨hlength, rfl⟩
    exact ⟨values, mapM_readBit_eq_ok_iff.2 (toList_bitString values), if_pos hlength⟩

theorem isBits_iff : IsBits bits n ↔ ∃ values, values.length = n ∧ bits = bitString values := by
  constructor
  · rintro ⟨hlength, hbits⟩
    refine ⟨bits.toList.map (· == '1'), (List.length_map _).trans hlength,
      String.toList_injective ?_⟩
    have hself : ∀ c ∈ bits.toList, bitChar (c == '1') = c := by
      intro c hc
      rcases hbits c hc with rfl | rfl <;> rfl
    rw [toList_bitString, List.map_map]
    exact ((List.map_congr_left hself).trans (List.map_id _)).symm
  · rintro ⟨values, hlength, rfl⟩
    constructor
    · rw [toList_bitString, List.length_map, hlength]
    · intro c hc
      rw [toList_bitString] at hc
      obtain ⟨v, -, rfl⟩ := List.mem_map.1 hc
      cases v
      · exact .inl rfl
      · exact .inr rfl

/-! ## Bits at the inputs -/

/-- The circuit with constants at its inputs. -/
def valued (g : Circuit) (values : List Bool) : Circuit :=
  g.relabelAll (g.inputs.zip (values.map .const))

theorem runOn_setInputBits (hg : g.Lax) (hlength : values.length = g.inputs.length) :
    (setInputBits (bitString values)).runOn g = (.ok (), valued g values) := by
  have hread : readInputBits g (bitString values) = .ok values :=
    readInputBits_eq_ok_iff.2 ⟨hlength, rfl⟩
  rw [setInputBits, Edit.runOn_ask_bind, hread]
  show Edit.runOn (get >>= fun g => _) g = _
  rw [runOn_get_bind, Edit.runOn_forM (fun h => ∀ i ∈ g.inputs, h.contains i = true)
    fun h e => h.relabel e.1 (.const e.2)]
  · rw [valued, Diagram.relabelAll, List.zip_map_right, List.foldl_map]
    rfl
  · intro e he h hh
    have hmem : e.1 ∈ g.inputs := (List.of_mem_zip he).1
    refine ⟨Edit.runOn_setLabel (hh e.1 hmem), ?_⟩
    intro i hi
    rw [Diagram.contains_relabel]
    exact hh i hi
  · exact fun i hi => hg.contains_of_mem_inputs hi

theorem isCopy_valued (hg : g.Lax) (values : List Bool) : IsCopy id id g (valued g values) :=
  isCopy_relabelAll hg fun _ he => (List.of_mem_zip he).1

/-- Every input carries its bit. -/
theorem label?_valued (hg : g.Lax) (hlength : values.length = g.inputs.length) {i : Nat} {v : Bool}
    (hmem : (i, v) ∈ g.inputs.zip values) : (valued g values).label? i = some (.const v) := by
  have hkeys : (g.inputs.zip (values.map Gate.const)).map (·.1) = g.inputs :=
    List.map_fst_zip (by rw [List.length_map, hlength])
  refine Diagram.label?_relabelAll ?_ ?_ (hg.contains_of_mem_inputs (List.of_mem_zip hmem).1)
  · rw [hkeys]
    exact hg.nodup_inputs
  · rw [List.zip_map_right]
    exact List.mem_map.2 ⟨(i, v), hmem, rfl⟩

theorem exists_label?_valued (hg : g.Lax) (hlength : values.length = g.inputs.length) {i : Nat}
    (hi : i ∈ g.inputs) : ∃ v, (i, v) ∈ g.inputs.zip values ∧
      (valued g values).label? i = some (.const v) := by
  rw [← List.map_fst_zip (Nat.le_of_eq hlength.symm)] at hi
  obtain ⟨e, he, rfl⟩ := List.mem_map.1 hi
  exact ⟨e.2, he, label?_valued hg hlength he⟩

/-- Once the inputs carry bits, the values that satisfy all equations are those that agree with the
    bits and satisfy the equations of the other nodes. -/
theorem settles_valued_iff (hg : g.Lax) (hlength : values.length = g.inputs.length)
    (ρ : Nat → Bool) :
    Settles Gate.truth (valued g values) ρ τ ↔ Obeys g τ ∧ g.inputs.map τ = values := by
  have hcopy := isCopy_valued hg values
  have hlax := hcopy.lax hg
  have hinputs : (valued g values).inputs = g.inputs := Diagram.inputs_relabelAll
  have houtputs : (valued g values).outputs = g.outputs := Diagram.outputs_relabelAll
  -- the equation of an input says that it has the value of its bit
  have hconst {i : Nat} {v : Bool} (hmem : (i, v) ∈ g.inputs.zip values) :
      nodeValue Gate.truth (valued g values) ρ τ i = v := by
    rw [nodeValue_gate (label?_valued hg hlength hmem) _ (.inr rfl)]
    · rfl
    · rw [houtputs]
      exact hg.not_mem_outputs_of_input (List.of_mem_zip hmem).1
  constructor
  · intro hτ
    refine ⟨hcopy.obeys_iff.1 (hlax.obeys_of_settles hτ), ?_⟩
    have hbit : ∀ e ∈ g.inputs.zip values, τ e.1 = e.2 := by
      intro e he
      rw [hτ e.1 (Diagram.contains_iff_label?.2 ⟨_, label?_valued hg hlength he⟩), hconst he]
    calc g.inputs.map τ = ((g.inputs.zip values).map (·.1)).map τ := by
          rw [List.map_fst_zip (Nat.le_of_eq hlength.symm)]
      _ = (g.inputs.zip values).map (·.2) := by
          rw [List.map_map]
          exact List.map_congr_left hbit
      _ = values := List.map_snd_zip (Nat.le_of_eq hlength)
  · rintro ⟨hτ, rfl⟩ k hk
    have hτ' : Obeys (valued g (g.inputs.map τ)) τ := hcopy.obeys_iff.2 hτ
    by_cases hout : k ∈ (valued g (g.inputs.map τ)).outputs
    · rw [hτ'.output k hout, nodeValue_output hout]
    · by_cases hin : k ∈ (valued g (g.inputs.map τ)).inputs
      · have hzip : g.inputs.zip (g.inputs.map τ) = g.inputs.map fun i => (i, τ i) := by
          rw [← List.zip_map', List.map_id']
        have hmem : (k, τ k) ∈ g.inputs.zip (g.inputs.map τ) := by
          rw [hzip]
          exact List.mem_map.2 ⟨k, hinputs ▸ hin, rfl⟩
        rw [hconst hmem]
      · obtain ⟨label, hl⟩ := Diagram.contains_iff_label?.1 hk
        rw [hτ'.gate k label hl hin hout, nodeValue_gate hl hout (.inl hin)]

/-- Every choice of bits at the inputs gives values to all nodes. -/
theorem Lax.exists_obeys (hg : g.Lax) (hlength : values.length = g.inputs.length) :
    ∃ τ, Obeys g τ ∧ g.inputs.map τ = values := by
  have hlax := (isCopy_valued hg values).lax hg
  exact ⟨_, (settles_valued_iff hg hlength fun _ => false).1
    (settles_value hlax.coherent hlax.acyclic)⟩

/-- **A circuit is evaluated to the values of its outputs** by the bits that are the values of its
    inputs. -/
theorem Sound.evaluateOn_eq (hg : g.Sound) (hground : g.Grounded) (hτ : Obeys g τ) :
    evaluateOn (bitString (g.inputs.map τ)) g = .ok (bitString (g.outputs.map τ)) := by
  have hlength : (g.inputs.map τ).length = g.inputs.length := List.length_map _
  have hcopy := isCopy_valued hg.lax (g.inputs.map τ)
  have hsound := hcopy.sound hg
  have hinputs : (valued g (g.inputs.map τ)).inputs = g.inputs := Diagram.inputs_relabelAll
  have houtputs : (valued g (g.inputs.map τ)).outputs = g.outputs := Diagram.outputs_relabelAll
  have hvalued : ∀ i ∈ (valued g (g.inputs.map τ)).inputs,
      ∃ v, (valued g (g.inputs.map τ)).label? i = some (.const v) := by
    intro i hi
    rw [hinputs] at hi
    obtain ⟨v, -, hv⟩ := exists_label?_valued hg.lax hlength hi
    exact ⟨v, hv⟩
  rw [evaluateOn, runOn_setInputBits hg.lax hlength]
  show evaluate (valued g (g.inputs.map τ)) = _
  rw [hsound.evaluate_valued hvalued (fun _ => false) (hcopy.grounded hg.lax hground).weakly,
    houtputs]
  have hsettles := (settles_valued_iff hg.lax hlength fun _ => false).2 ⟨hτ, rfl⟩
  have htruth : ∀ o ∈ g.outputs,
      truth (valued g (g.inputs.map τ)) (fun _ => false) o = τ o := by
    intro o ho
    exact hsettles.eq_value hsound.lax.coherent hsound.lax.acyclic
      (hsound.lax.contains_of_mem_outputs (houtputs ▸ ho))
  rw [bitString, List.map_map, List.map_congr_left fun o ho => congrArg bitChar (htruth o ho)]
  rfl

theorem evaluateOn_of_error {fault : Fault} (h : readInputBits g bits = .error fault) :
    evaluateOn bits g = .error fault := by
  rw [evaluateOn, setInputBits, Edit.runOn_ask_bind, h]

/-- **Evaluation on bits within words** that are large enough whatever the bits are. -/
theorem Lax.evaluateOn_eq [Words] (hg : g.Lax) (haffords : ∀ values, (valued g values).Affords)
    (bits : String) : evaluateOn bits g = letI := Unlimited.words; evaluateOn bits g := by
  unfold evaluateOn
  cases hbits : readInputBits g bits with
  | error fault => rw [setInputBits, Edit.runOn_ask_bind, hbits]
  | ok values =>
    obtain ⟨hlength, rfl⟩ := readInputBits_eq_ok_iff.1 hbits
    rw [runOn_setInputBits hg hlength]
    exact (haffords values).evaluate_eq

/-- Bits make no difference to the size of a circuit. -/
theorem HasRoom.evaluateOn_eq [Words] (hroom : HasRoom g) (hg : g.Lax) (bits : String) :
    evaluateOn bits g = letI := Unlimited.words; evaluateOn bits g := by
  refine hg.evaluateOn_eq (fun values => ?_) bits
  have hcopy := isCopy_valued hg values
  have hvalued : HasRoom (valued g values) := by
    rw [HasRoom, hcopy.extent_eq, valued, Diagram.nextId_relabelAll]
    exact hroom
  have hlax := hcopy.lax hg
  exact hvalued.affords hlax.coherent hlax.idsBelow

theorem footprint_valued (g : Circuit) (values : List Bool) :
    (valued g values).footprint = g.footprint := by
  rw [Diagram.footprint, Diagram.footprint, valued, Diagram.nextId_relabelAll]
  refine Finset.sum_congr rfl fun k _ => ?_
  rw [Diagram.endsAt, Diagram.endsAt, Diagram.above_relabelAll, Diagram.below_relabelAll]

/-- Circuits with as many inputs that agree on bits agree on all strings: the faults that other
    strings meet with depend on the number of inputs alone. -/
theorem evaluateOn_eq_of_bitString (hlength : g.inputs.length = h.inputs.length)
    (heq : ∀ values, values.length = g.inputs.length →
      evaluateOn (bitString values) g = evaluateOn (bitString values) h) (bits : String) :
    evaluateOn bits g = evaluateOn bits h := by
  have hread : readInputBits g bits = readInputBits h bits := by
    rw [readInputBits, readInputBits, hlength]
  cases hbits : readInputBits g bits with
  | error fault =>
    rw [evaluateOn_of_error hbits, evaluateOn_of_error (hread ▸ hbits)]
  | ok values =>
    obtain ⟨hvalues, rfl⟩ := readInputBits_eq_ok_iff.1 hbits
    exact heq values hvalues

end Circuit

end Wiring
