import Wiring.Circuit.Evaluation
import Wiring.Proofs.Circuit.RuleRuns

/-!
# What outputs show

Evaluation looks at the parent of each output when folding has come to its end. But whether an
output shows a bit can be asked of any circuit, and what the rest of it is like does not matter.

## Main definitions

- `Circuit.ShownBy`, `Circuit.Shows` — an output whose only parent is a constant

## Main statements

- `Circuit.outputBit_eq_ok_iff` — the bit of an output is the one that it shows
- `Circuit.outputBits_eq_of_shows` — what evaluation answers depends on what outputs show alone
-/

namespace Wiring

open scoped Unlimited

namespace Circuit

variable {g h : Circuit} {o p : Nat} {v : Bool} {bits : String}

/-- The only parent of the output `o` is the constant `p` of value `v`. -/
structure ShownBy (g : Circuit) (o p : Nat) (v : Bool) : Prop where
  output : o ∈ g.outputs
  above : g.above o = [p]
  label : g.label? p = some (.const v)

/-- **The output `o` shows the bit `v`**: its only parent is a constant of that value. -/
def Shows (g : Circuit) (o : Nat) (v : Bool) : Prop := ∃ p, ShownBy g o p v

theorem ShownBy.mem_below (hs : ShownBy g o p v) (hg : g.Coherent) : o ∈ g.below p := by
  rw [← hg.mem_above_iff, hs.above]
  exact List.mem_singleton_self p

theorem outputBit_of_node? {n : Node Gate} (hn : g.node? o = some n) :
    outputBit g o = match n.parents.single?.bind fun p => (g.label? p).bind Gate.value? with
      | some v => .ok (bitChar v)
      | none => .error (.unresolved o) := by
  rw [outputBit, Diagram.find_eq_ok_iff.2 hn]
  rfl

theorem outputBit_of_contains (ho : g.contains o = true) :
    (∃ b, outputBit g o = .ok b) ∨ outputBit g o = .error (.unresolved o) := by
  obtain ⟨n, hn⟩ := Diagram.contains_iff.1 ho
  rw [outputBit_of_node? hn]
  cases n.parents.single?.bind fun p => (g.label? p).bind Gate.value? with
  | some v => exact .inl ⟨bitChar v, rfl⟩
  | none => exact .inr rfl

/-- **The bit of an output is the one that it shows.** -/
theorem outputBit_eq_ok_iff {ch : Char} (hpos : g.Positive) (ho : o ∈ g.outputs) :
    outputBit g o = .ok ch ↔ ∃ v, ch = bitChar v ∧ Shows g o v := by
  cases hn : g.node? o with
  | none =>
    -- there is no bit where there is no node, and no parent either
    have hfind : outputBit g o = .error (.unknownNode o) := by
      rw [outputBit, Diagram.find_eq_error_iff.2 ⟨hn, rfl⟩]
      rfl
    have habove : g.above o = [] := by rw [Diagram.above, hn]; rfl
    rw [hfind]
    constructor
    · intro h
      cases h
    · rintro ⟨v, -, p, hs⟩
      rw [hs.above] at habove
      cases habove
  | some n =>
    have hshows (v : Bool) : (n.parents.single?.bind fun p => (g.label? p).bind Gate.value?) =
        some v ↔ Shows g o v := by
      simp only [Option.bind_eq_some_iff, value?_eq_some_iff, exists_eq_right,
        (hpos o n hn).1.single?_eq_some_iff, ← Diagram.above_of_node? hn]
      exact exists_congr fun p => ⟨fun h => ⟨ho, h.1, h.2⟩, fun hs => ⟨hs.above, hs.label⟩⟩
    rw [outputBit_of_node? hn]
    constructor
    · intro hbit
      split at hbit
      · rename_i v hv
        exact ⟨v, (Except.ok.inj hbit).symm, (hshows v).1 hv⟩
      · cases hbit
    · rintro ⟨v, rfl, hs⟩
      rw [(hshows v).2 hs]

/-- **An answer depends on what outputs show alone**: another circuit with the same outputs has the
    same answer, if those that show a bit in the first show it there too. -/
theorem outputBits_eq_of_shows (hg : g.Positive) (hh : h.Positive) (hout : h.outputs = g.outputs)
    (hshows : ∀ o v, Shows g o v → Shows h o v) (hbits : outputBits g = .ok bits) :
    outputBits h = .ok bits := by
  have hanswered : ∀ o ∈ g.outputs, ∃ ch, outputBit g o = .ok ch := by
    rw [outputBits, bind_eq_ok_iff] at hbits
    obtain ⟨chs, hchs, -⟩ := hbits
    exact fun o ho => exists_ok_of_mapM_eq_ok hchs ho
  have hsame : ∀ o ∈ g.outputs, outputBit h o = outputBit g o := by
    intro o ho
    obtain ⟨ch, hch⟩ := hanswered o ho
    obtain ⟨v, rfl, hs⟩ := (outputBit_eq_ok_iff hg ho).1 hch
    rw [hch, (outputBit_eq_ok_iff hh (hout ▸ ho)).2 ⟨v, rfl, hshows o v hs⟩]
  rwa [outputBits, hout, mapM_congr hsame]

end Circuit

end Wiring
