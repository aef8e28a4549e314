import Wiring.Circuit.Formula
import Wiring.Proofs.Words.Footprint

/-!
# Formulas within words

Reading a formula makes a node for each operand, with an edge to the one that it is in, and merges
operands that end with the same variable. At the end each variable gets an input. There are no more
operands than opening parentheses, and one for each formula, so that the lengths of the formulas
limit the footprint of their circuit. Words that hold it read them as words without a limit do.

## Main definitions

- `Formula.room` — what words must hold to read the formulas

## Main statements

- `Formula.ofFormulas_eq` — the circuit of formulas that there is room for
- `Formula.hasLeft_ofFormulas` — its footprint
- `Formula.holds_room` — words of 64 bits have the room for all formulas that fit into a memory
-/

namespace Wiring.Formula

open Edit (Costs)

variable {g h : Circuit} {names names' : Names} {current depth offset i capacity : Nat}
  {token name formula : String} {formulas : List String} {cs : List Char}

/-! ## Names -/

theorem length_le_of_close [Words]
    (hrun : (close names current token).runOn g = (.ok names', h)) :
    names'.length ≤ names.length + 1 := by
  unfold close at hrun
  split at hrun
  · split at hrun
    · obtain ⟨_, _, -, hrun⟩ := Edit.runOn_bind_eq_ok_iff.1 hrun
      cases hrun
      exact Nat.le_succ _
    · cases hrun
      exact Nat.le_refl _
  · obtain ⟨_, _, -, hrun⟩ := Edit.runOn_bind_eq_ok_iff.1 hrun
    cases hrun
    exact Nat.le_succ _

/-- There are no more new names than characters, and one for the end. -/
theorem length_le_of_scan [Words]
    (hrun : (scan names current token depth offset cs).runOn g = (.ok names', h)) :
    names'.length ≤ names.length + (cs.length + 1) := by
  induction cs generalizing names current token depth offset g with
  | nil =>
    rw [scan] at hrun
    split at hrun
    · exact length_le_of_close hrun
    · cases hrun
  | cons c cs ih =>
    rw [List.length_cons]
    rw [scan] at hrun
    split at hrun
    · obtain ⟨_, _, -, hrun⟩ := Edit.runOn_bind_eq_ok_iff.1 hrun
      obtain ⟨_, _, -, hrun⟩ := Edit.runOn_bind_eq_ok_iff.1 hrun
      exact (ih hrun).trans (by omega)
    · split at hrun
      · split at hrun
        · cases hrun
        · obtain ⟨n, _, -, hrun⟩ := Edit.runOn_bind_eq_ok_iff.1 hrun
          split at hrun
          · cases hrun
          · obtain ⟨_, _, hclose, hrun⟩ := Edit.runOn_bind_eq_ok_iff.1 hrun
            have := length_le_of_close hclose
            exact (ih hrun).trans (by omega)
      · split at hrun
        · exact (ih hrun).trans (by omega)
        · exact (ih hrun).trans (by omega)

theorem length_le_of_readAll [Words]
    (hrun : (readAll names formulas).runOn g = (.ok names', h)) :
    names'.length ≤ names.length + (formulas.map fun f => f.length + 1).sum := by
  induction formulas generalizing names g with
  | nil =>
    cases hrun
    exact Nat.le_refl _
  | cons f formulas ih =>
    obtain ⟨_, _, hread, hrun⟩ := Edit.runOn_bind_eq_ok_iff.1 hrun
    obtain ⟨_, _, -, hread⟩ := Edit.runOn_bind_eq_ok_iff.1 hread
    obtain ⟨_, _, -, hread⟩ := Edit.runOn_bind_eq_ok_iff.1 hread
    have := length_le_of_scan hread
    have := ih hrun
    rw [String.length_toList] at *
    rw [List.map_cons, List.sum_cons]
    omega

/-! ## Costs -/

theorem costs_labelPending (id : Nat) (token : String) :
    Costs (.upTo capacity) (labelPending id token) (labelPending id token) 0 := by
  unfold labelPending
  split
  · exact .pure _
  · exact Edit.costs_setLabel id _

section Costs

variable [Words] (hcapacity : Words.Holds capacity)
include hcapacity

/-- Ending an operand is free: all that it makes is a name. -/
theorem costs_close (names : Names) (current : Nat) (token : String) :
    Costs (.upTo capacity) (close names current token)
      (letI _ := Unlimited.words; close names current token) 0 := by
  unfold close
  split
  · cases names.lookup token with
    | some first => exact (Edit.costs_merge hcapacity first current).bind fun _ => .pure _
    | none => exact .pure _
  · exact (costs_labelPending current token).bind fun _ => .pure _

/-- **The scan** takes a node with an edge for each parenthesis that opens. -/
theorem costs_scan (names : Names) (current : Nat) (token : String) (depth offset : Nat)
    (cs : List Char) :
    Costs (.upTo capacity) (scan names current token depth offset cs)
      (letI _ := Unlimited.words; scan names current token depth offset cs) (3 * cs.length) := by
  induction cs generalizing names current token depth offset with
  | nil =>
    unfold scan
    split
    · exact costs_close hcapacity names current token
    · exact .throw _
  | cons c cs ih =>
    rw [List.length_cons, Nat.mul_succ, Nat.add_comm]
    unfold scan
    split
    · rw [← Nat.zero_add (3 + _)]
      exact (costs_labelPending current token).bind fun _ =>
        (Edit.costs_newNode hcapacity _ [] [current]).bind fun _ => ih _ _ _ _ _
    · split
      · split
        · exact (Costs.throw _).mono (Nat.zero_le _)
        · rw [← Nat.zero_add (3 + _)]
          refine (Costs.ask _).bind fun n => ?_
          cases n.children.single? with
          | none => exact (Costs.throw _).mono (Nat.zero_le _)
          | some below =>
            rw [← Nat.zero_add (3 + _)]
            exact (costs_close hcapacity names current token).bind fun _ =>
              (ih _ _ _ _ _).mono (Nat.le_add_left _ _)
      · split
        · exact (ih _ _ _ _ _).mono (Nat.le_add_left _ _)
        · exact (ih _ _ _ _ _).mono (Nat.le_add_left _ _)

/-- A formula takes a node, an output with an edge, and what the scan takes. -/
theorem costs_read (names : Names) (formula : String) :
    Costs (.upTo capacity) (read names formula) (letI _ := Unlimited.words; read names formula)
      (3 * formula.length + 4) := by
  unfold read
  refine Costs.mono (m := 1 + (3 + 3 * formula.toList.length)) ?_
    (by rw [String.length_toList]; omega)
  exact (Edit.costs_newNode hcapacity _ [] []).bind fun root =>
    (Edit.costs_newOutput hcapacity root).bind fun _ => costs_scan hcapacity _ _ _ _ _ _

theorem costs_readAll (names : Names) (formulas : List String) :
    Costs (.upTo capacity) (readAll names formulas)
      (letI _ := Unlimited.words; readAll names formulas)
      (formulas.map fun f => 3 * f.length + 4).sum := by
  induction formulas generalizing names with
  | nil => exact .pure _
  | cons f formulas ih => exact (costs_read hcapacity names f).bind fun names => ih names

theorem costs_openInput (name : String) (id : Nat) :
    Costs (.upTo capacity) (openInput name id) (letI _ := Unlimited.words; openInput name id)
      3 := by
  unfold openInput
  exact (Edit.costs_setLabel id _).bind fun _ =>
    (Edit.costs_newInput hcapacity id).bind fun terminal => Edit.costs_setLabel terminal _

end Costs

/-- **The room for formulas**: what words must hold to read them. -/
def room (formulas : List String) : Nat := (formulas.map fun f => 6 * f.length + 7).sum

theorem costs_build [Words] (hcapacity : Words.Holds capacity) (formulas : List String) :
    Costs (.upTo capacity) (build formulas) (letI _ := Unlimited.words; build formulas)
      (room formulas) := by
  unfold build
  have hroom : room formulas = (formulas.map fun f => 3 * f.length + 4).sum +
      3 * (formulas.map fun f => f.length + 1).sum := by
    rw [room, ← List.sum_map_mul_left, ← List.sum_map_add]
    refine congrArg List.sum (List.map_congr_left fun f _ => ?_)
    omega
  rw [hroom]
  refine (costs_readAll hcapacity [] formulas).bind_of_runs fun g names h hrun => ?_
  -- how many inputs are opened is known only after the formulas are read, so it is bounded
  have hnames := letI := Unlimited.words; length_le_of_readAll hrun
  have hopen : Costs (.upTo capacity) ((sorted names).forM fun e => openInput e.1 e.2)
      (letI _ := Unlimited.words; (sorted names).forM fun e => openInput e.1 e.2)
      ((sorted names).map fun _ => 3).sum :=
    Costs.forM fun e _ => costs_openInput hcapacity e.1 e.2
  refine hopen.mono ?_
  rw [List.length_nil, Nat.zero_add] at hnames
  rw [List.map_const', List.sum_replicate_nat, sorted, List.length_mergeSort, Nat.mul_comm]
  exact Nat.mul_le_mul_left 3 hnames

/-- **Formulas that words have room for** are read as without a limit. -/
theorem ofFormulas_eq [Words] (hroom : Words.Holds (room formulas)) :
    Circuit.ofFormulas formulas = letI := Unlimited.words; Circuit.ofFormulas formulas := by
  unfold Circuit.ofFormulas
  rw [(costs_build hroom formulas).runOn_eq (Diagram.hasLeft_empty _)]

/-- Their circuit keeps within the room. -/
theorem hasLeft_ofFormulas {c : Circuit}
    (h : (letI _ := Unlimited.words; Circuit.ofFormulas formulas) = .ok c) :
    Diagram.HasLeft (room formulas) c 0 := by
  let _ := Unlimited.words
  obtain ⟨-, hleft⟩ := costs_build (Words.holds_unlimited (room formulas)) formulas
    Diagram.empty 0 (Diagram.hasLeft_empty _)
  unfold Circuit.ofFormulas at h
  split at h
  · rename_i hrun
    cases h
    rwa [hrun] at hleft
  · cases h

section Machine

open scoped Machine

/-- **Words of 64 bits have room for all formulas that fit into a memory**, and for evaluating them:
    for those of up to `2 ^ 57` characters, two more counted for each formula. -/
theorem holds_room (hlength : (formulas.map fun f => f.length + 2).sum ≤ Nat.pow 2 57) :
    Words.Holds (17 * room formulas) := by
  have hroom : room formulas ≤ 6 * (formulas.map fun f => f.length + 2).sum := by
    rw [← List.sum_map_mul_left]
    exact List.sum_le_sum fun f _ => by omega
  have hlimit : Nat.pow 2 64 = 128 * Nat.pow 2 57 := by decide
  rintro largest hlargest
  obtain rfl := Option.some.inj hlargest
  omega

end Machine

end Wiring.Formula
