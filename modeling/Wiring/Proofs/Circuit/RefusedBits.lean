import Wiring.Proofs.Circuit.Inputs
import Wiring.Proofs.Diagram.Mutations

/-!
# Input bits that are refused

All bits are read before any input is labelled, so a string that is too long, too short or made of
other characters changes nothing. Whether an input is a node is asked only when its turn comes. If
one is not, which can be so where inputs are listed by hand or have been loaded, then those before
it have their bits already when the edit is refused.

## Main definitions

- `Circuit.given` — the inputs that get their bits, with these
- `Circuit.SpoiltBy` — a bit changes an input before another one turns out to be no node

## Main statements

- `Diagram.relabelAll_eq_self_iff` — when labelling changes nothing
- `Edit.runOn_forM_setLabel` — labelling stops at the first id without a node
- `Circuit.runOn_setInputBits_bitString` — what bits do to any circuit
- `Circuit.input_bits_all_or_nothing` — when a refused edit changes nothing
-/

namespace Wiring

open scoped Unlimited

namespace Diagram

variable {α : Type} {g : Diagram α} {es : List (Nat × α)} {k : Nat}

theorem node?_relabelAll : (g.relabelAll es).node? k =
    (g.node? k).map fun n => ((es.reverse.lookup k).map n.relabel).getD n := by
  induction es generalizing g with
  | nil => simp [relabelAll]
  | cons e es ih =>
    rw [relabelAll_cons, ih, node?_relabel, List.reverse_cons, List.lookup_append,
      List.lookup_cons]
    by_cases hk : k = e.1
    · subst hk
      cases hn : g.node? e.1 with
      | none => simp
      | some n => cases es.reverse.lookup e.1 <;> simp [Node.relabel]
    · have hbeq : (k == e.1) = false := by simpa using hk
      simp [hk, hbeq]

/-- Of the labels listed for a node the last one counts. Labelling changes nothing if that is the
    label that the node has. -/
theorem relabelAll_eq_self_iff : g.relabelAll es = g ↔
    ∀ k label, es.reverse.lookup k = some label → g.contains k = true →
      g.label? k = some label := by
  constructor
  · intro heq k label hlookup hk
    obtain ⟨n, hn⟩ := contains_iff.1 hk
    have hnode : g.node? k = some (n.relabel label) := by
      rw [← heq, node?_relabelAll, hn, hlookup]
      rfl
    rw [label?, hnode]
    rfl
  · intro hlabels
    refine ext_of_node? (fun k => ?_) inputs_relabelAll outputs_relabelAll nextId_relabelAll
    rw [node?_relabelAll]
    cases hn : g.node? k with
    | none => rfl
    | some n =>
      cases hlookup : es.reverse.lookup k with
      | none => rfl
      | some label =>
        have hlabel := hlabels k label hlookup (contains_iff.2 ⟨n, hn⟩)
        rw [label?, hn, Option.map_some, Option.some.injEq] at hlabel
        subst hlabel
        rfl

end Diagram

/-! ## Labels for ids that may name no node -/

/-- Labels are given one by one up to the first id without a node, and those given before stay. -/
theorem Edit.runOn_forM_setLabel {α : Type} {g : Diagram α} (es : List (Nat × α)) :
    (es.forM fun e => setLabel e.1 e.2).runOn g =
      (match (es.map (·.1)).find? (!g.contains ·) with
        | none => .ok ⟨⟩
        | some id => .error (.unknownNode id),
      g.relabelAll (es.takeWhile fun e => g.contains e.1)) := by
  induction es generalizing g with
  | nil => rfl
  | cons e es ih =>
    have hcons : ((e :: es).forM fun e => setLabel e.1 e.2 : Edit α PUnit) =
        setLabel e.1 e.2 >>= fun _ => es.forM fun e => setLabel e.1 e.2 := List.forM_cons
    rw [hcons, List.map_cons, List.find?_cons, List.takeWhile_cons]
    cases hfirst : g.contains e.1 with
    | true =>
      rw [runOn_bind_ok (runOn_setLabel hfirst), ih]
      simp only [Diagram.contains_relabel]
      rfl
    | false =>
      have hmissing : g.find e.1 = .error (.unknownNode e.1) :=
        Diagram.find_eq_error_iff.2 ⟨Diagram.contains_eq_false_iff.1 hfirst, rfl⟩
      rw [runOn_bind, setLabel, runOn_ask_bind, hmissing]
      rfl

namespace Circuit

variable {g h : Circuit} {values : List Bool} {bits : String} {fault : Fault}

/-- **The labels that bits give**: to all inputs that come before the first one that is no node. -/
def given (g : Circuit) (values : List Bool) : List (Nat × Gate) :=
  (g.inputs.takeWhile g.contains).zip (values.map .const)

/-- **The bits spoil the circuit**: there are as many as inputs, one of the inputs is no node, and
    an input before it does not carry its bit yet. -/
def SpoiltBy (g : Circuit) (bits : String) : Prop :=
  ∃ values, values.length = g.inputs.length ∧ bits = bitString values ∧
    (∃ i ∈ g.inputs, g.contains i = false) ∧
    ∃ k label, (given g values).reverse.lookup k = some label ∧ g.label? k ≠ some label

theorem takeWhile_zip {α β : Type} (p : α → Bool) (l : List α) (l' : List β) :
    ((l.zip l').takeWhile fun e => p e.1) = (l.takeWhile p).zip l' := by
  induction l generalizing l' with
  | nil => rfl
  | cons a l ih =>
    cases l' with
    | nil => rw [List.zip_nil_right, List.zip_nil_right, List.takeWhile_nil]
    | cons b l' =>
      rw [List.zip_cons_cons, List.takeWhile_cons, List.takeWhile_cons, ih]
      split <;> rfl

/-- As many bits as there are inputs, given to any circuit whatever. -/
theorem runOn_setInputBits_bitString (hlength : values.length = g.inputs.length) :
    (setInputBits (bitString values)).runOn g =
      (match g.inputs.find? (!g.contains ·) with
        | none => .ok ()
        | some i => .error (.unknownNode i),
      g.relabelAll (given g values)) := by
  have hread : readInputBits g (bitString values) = .ok values :=
    readInputBits_eq_ok_iff.2 ⟨hlength, rfl⟩
  have hkeys : (g.inputs.zip (values.map Gate.const)).map (·.1) = g.inputs :=
    List.map_fst_zip (by rw [List.length_map, hlength])
  have hloop : ((g.inputs.zip values).forM fun e => Edit.setLabel e.1 (.const e.2)) =
      (g.inputs.zip (values.map Gate.const)).forM fun e => Edit.setLabel e.1 e.2 := by
    rw [List.zip_map_right, List.forM_eq_forM, List.forM_eq_forM, List.forM_map]
    rfl
  rw [setInputBits, Edit.runOn_ask_bind, hread]
  show Edit.runOn (get >>= fun g => _) g = _
  rw [runOn_get_bind, hloop, Edit.runOn_forM_setLabel, hkeys, takeWhile_zip]
  rfl

theorem runOn_setInputBits_of_error (h : readInputBits g bits = .error fault) :
    (setInputBits bits).runOn g = (.error fault, g) := by
  rw [setInputBits, Edit.runOn_ask_bind, h]

theorem given_changes_nothing_iff : g.relabelAll (given g values) = g ↔
    ∀ k label, (given g values).reverse.lookup k = some label → g.label? k = some label := by
  rw [Diagram.relabelAll_eq_self_iff]
  refine forall₃_congr fun k label hlookup => ⟨fun h => h ?_, fun h _ => h⟩
  have hmem : (k, label) ∈ given g values := by
    obtain ⟨before, after, heq, -⟩ := List.lookup_eq_some_iff.1 hlookup
    rw [← List.mem_reverse, heq]
    exact List.mem_append_right _ List.mem_cons_self
  exact List.all_eq_true.1 List.all_takeWhile k (List.of_mem_zip hmem).1

/-- If the bits are refused then nothing has changed, unless the bits spoil the circuit. -/
theorem refused_bits_iff (hrun : (setInputBits bits).runOn g = (.error fault, h)) :
    h = g ↔ ¬SpoiltBy g bits := by
  cases hread : readInputBits g bits with
  | error fault' =>
    rw [runOn_setInputBits_of_error hread, Prod.mk.injEq] at hrun
    refine ⟨fun _ => ?_, fun _ => hrun.2.symm⟩
    rintro ⟨values, hlength, rfl, -⟩
    rw [readInputBits_eq_ok_iff.2 ⟨hlength, rfl⟩] at hread
    cases hread
  | ok values =>
    obtain ⟨hlength, rfl⟩ := readInputBits_eq_ok_iff.1 hread
    rw [runOn_setInputBits_bitString hlength, Prod.mk.injEq] at hrun
    obtain ⟨hanswer, rfl⟩ := hrun
    have hmissing : ∃ i ∈ g.inputs, g.contains i = false := by
      cases hfind : g.inputs.find? (!g.contains ·) with
      | none => simp [hfind] at hanswer
      | some i => exact ⟨i, List.mem_of_find?_eq_some hfind, by simpa using List.find?_some hfind⟩
    rw [given_changes_nothing_iff]
    constructor
    · rintro hkept ⟨values', hlength', heq, -, k, label, hlookup, hlabel⟩
      rw [readInputBits_eq_ok_iff.2 ⟨hlength', heq⟩] at hread
      cases hread
      exact hlabel (hkept k label hlookup)
    · intro hspoilt k label hlookup
      by_contra hlabel
      exact hspoilt ⟨values, hlength, rfl, hmissing, k, label, hlookup, hlabel⟩

theorem not_spoiltBy (hg : ∀ i ∈ g.inputs, g.contains i = true) : ¬SpoiltBy g bits := by
  rintro ⟨values, -, -, ⟨i, hi, hmissing⟩, -⟩
  rw [hg i hi] at hmissing
  cases hmissing

/-- **Refused bits change nothing unless they spoil the circuit**, and they spoil none that comes
    about without listing inputs by hand. -/
theorem input_bits_all_or_nothing [Words] (hrun : (setInputBits bits).runOn g = (.error fault, h)) :
    (h = g ↔ ¬SpoiltBy g bits) ∧ (Diagram.Reached g → h = g) := by
  refine ⟨refused_bits_iff hrun, fun hg => (refused_bits_iff hrun).2 (not_spoiltBy ?_)⟩
  exact fun i hi => (hg.unlimited.2.1.input i hi).1

section Machine

open scoped Machine

/-- A wire whose inputs are listed with an id too many. Its input has got its bit when the second
    bit is refused. A string that holds something else than bits changes nothing. -/
theorem input_bits_all_or_nothing_stray :
    let g : Circuit := (Diagram.identity 1).setInputs [0, 5]
    let h : Circuit := g.relabel 0 (.const true)
    (setInputBits "10").runOn g = (.error (.unknownNode 5), h) ∧ SpoiltBy g "10" ∧ h ≠ g ∧
      (setInputBits "1x").runOn g = (.error (.badBit 'x'), g) ∧ ¬SpoiltBy g "1x" := by
  intro g h
  have hrun : (setInputBits "10").runOn g = (.error (.unknownNode 5), h) := by decide +kernel
  have hrun' : (setInputBits "1x").runOn g = (.error (.badBit 'x'), g) := by decide +kernel
  have hchanged : h ≠ g := by decide +kernel
  have hspoilt : SpoiltBy g "10" := by
    by_contra hkept
    exact hchanged ((input_bits_all_or_nothing hrun).1.2 hkept)
  exact ⟨hrun, hspoilt, hchanged, hrun', (input_bits_all_or_nothing hrun').1.1 rfl⟩

end Machine

end Circuit

end Wiring
