import Wiring.Proofs.Formula.Scanning
import Wiring.Proofs.Words.Formulas

/-!
# Inputs for the variables

When all formulas have been read, each variable gets an input of its name, which feeds the node that
stands for it. The inputs come in the order of the names.

## Main definitions

- `Formula.opened` — the circuit with an input for one more variable
- `Formula.openAll`, `Formula.finished` — inputs for all variables

## Main statements

- `Formula.ofFormulas_eq_ok_iff` — the circuit of formulas whose parentheses fit
- `Formula.formulas_refused_iff_unbalanced` — all others are refused for the first one without a
  partner
-/

namespace Wiring

open scoped Unlimited

namespace Formula

variable {g h : Circuit} {s : Reader} {names : Names} {i k o : Nat} {name : String}
  {formulas : List String}

/-- The circuit with a new input of that name which feeds `id`, a copy from then on. -/
def opened (g : Circuit) (name : String) (id : Nat) : Circuit :=
  (((g.relabel id .copy).attach .copy [] [id]).pushInput g.nextId).relabel g.nextId (.free name)

/-- Inputs for the listed variables. -/
def openAll (g : Circuit) (names : Names) : Circuit :=
  names.foldl (fun g e => opened g e.1 e.2) g

/-- The circuit when all has been read. -/
def finished (s : Reader) : Circuit := openAll s.circuit (sorted s.names)

/-! ## Lists in the opened circuit -/

theorem contains_opened : (opened g name i).contains k = (g.contains k || k == g.nextId) := by
  rw [opened, Diagram.contains_relabel]
  show ((g.relabel i .copy).attach .copy [] [i]).contains k = _
  rw [Diagram.contains_attach, Diagram.contains_relabel]
  rfl

theorem inputs_opened : (opened g name i).inputs = g.inputs ++ [g.nextId] := by
  show ((g.relabel i .copy).attach .copy [] [i]).inputs ++ [g.nextId] = _
  rw [Diagram.inputs_attach]
  rfl

theorem outputs_opened : (opened g name i).outputs = g.outputs := by
  show ((g.relabel i .copy).attach .copy [] [i]).outputs = _
  rw [Diagram.outputs_attach]
  rfl

theorem nextId_opened : (opened g name i).nextId = g.nextId + 1 := by
  show ((g.relabel i .copy).attach .copy [] [i]).nextId = _
  rw [Diagram.nextId_attach]
  rfl

theorem idsBelow_opened (hids : g.IdsBelow) : (opened g name i).IdsBelow := by
  intro k hk
  rw [contains_opened, Bool.or_eq_true, beq_iff_eq] at hk
  rw [nextId_opened]
  rcases hk with hk | hk
  · have := hids k hk
    omega
  · omega

section Opened

variable (hids : g.IdsBelow) (hi : g.contains i = true)
include hids hi

theorem coherent_opened (hg : g.Coherent) : (opened g name i).Coherent := by
  have hattach : ((g.relabel i .copy).attach .copy [] [i]).Coherent := by
    refine (hg.relabel i .copy).attach ((hids.relabel i .copy).not_contains (Nat.le_refl _))
      (by simp) fun c hc => ?_
    obtain rfl := List.mem_singleton.1 hc
    rwa [Diagram.contains_relabel]
  have hpush : (((g.relabel i .copy).attach .copy [] [i]).pushInput g.nextId).Coherent :=
    ⟨hattach.id_eq, hattach.positive, hattach.agree⟩
  exact hpush.relabel g.nextId (.free name)

/-- The variable gets the new input for a parent. -/
theorem above_opened (name : String) (hk : g.contains k = true) :
    ((opened g name i).above k).Perm (g.above k ++ if k = i then [g.nextId] else []) := by
  have hperm := Diagram.above_attach (g := g.relabel i .copy) (j := k) .copy [] [i]
    ((hids.relabel i .copy).not_mem fun c hc => by
      obtain rfl := List.mem_singleton.1 hc
      rwa [Diagram.contains_relabel]) (.inr (by rwa [Diagram.contains_relabel]))
  have hne : k ≠ (g.relabel i .copy).nextId := Nat.ne_of_lt (hids k hk)
  rw [if_neg hne, Diagram.above_relabel, List.count_singleton] at hperm
  rw [opened, Diagram.above_relabel]
  refine hperm.trans (.of_eq ?_)
  by_cases hki : k = i
  · rw [if_pos hki, if_pos (by simpa using hki.symm)]
    rfl
  · rw [if_neg hki, if_neg (by simpa using Ne.symm hki)]
    rfl

theorem above_opened_input : (opened g name i).above g.nextId = [] := by
  have hperm := Diagram.above_attach (g := g.relabel i .copy) .copy [] [i]
    ((hids.relabel i .copy).not_mem fun c hc => by
      obtain rfl := List.mem_singleton.1 hc
      rwa [Diagram.contains_relabel]) (.inl rfl)
  rw [if_pos rfl] at hperm
  rw [opened, Diagram.above_relabel]
  exact List.perm_nil.1 hperm

omit hi in
/-- All children stay. -/
theorem below_opened (name : String) (hk : g.contains k = true) :
    ((opened g name i).below k).Perm (g.below k) := by
  have hperm := Diagram.below_attach (g := g.relabel i .copy) (j := k) .copy [] [i]
    List.not_mem_nil (.inr (by rwa [Diagram.contains_relabel]))
  have hne : k ≠ (g.relabel i .copy).nextId := Nat.ne_of_lt (hids k hk)
  rw [if_neg hne, Diagram.below_relabel, List.count_nil, List.replicate_zero, List.append_nil]
    at hperm
  rw [opened, Diagram.below_relabel]
  exact hperm

end Opened

theorem below_opened_input : (opened g name i).below g.nextId = [i] := by
  have hperm := Diagram.below_attach (g := g.relabel i .copy) .copy [] [i]
    List.not_mem_nil (.inl rfl)
  rw [if_pos rfl] at hperm
  rw [opened, Diagram.below_relabel]
  exact List.perm_singleton.1 hperm

theorem label?_opened (hids : g.IdsBelow) (hk : g.contains k = true) :
    (opened g name i).label? k = if k = i then some .copy else g.label? k := by
  have hlt := hids k hk
  have hne : k ≠ (g.relabel i .copy).nextId := Nat.ne_of_lt hlt
  rw [opened, Diagram.label?_relabel, if_neg (Nat.ne_of_lt hlt)]
  show ((g.relabel i .copy).attach .copy [] [i]).label? k = _
  rw [Diagram.label?_attach, if_neg hne, Diagram.label?_relabel]
  obtain ⟨l, hl⟩ := Diagram.contains_iff_label?.1 hk
  by_cases hki : k = i
  · rw [if_pos hki, if_pos hki, ← hki, hl]
    rfl
  · rw [if_neg hki, if_neg hki]

theorem label?_opened_input : (opened g name i).label? g.nextId = some (.free name) := by
  rw [opened, Diagram.label?_relabel, if_pos rfl]
  show (((g.relabel i .copy).attach .copy [] [i]).label? (g.relabel i .copy).nextId).map _ = _
  rw [Diagram.label?_attach, if_pos rfl]
  rfl

/-! ## The edits -/

/-- The variables are there to get inputs. -/
structure Openable (names : Names) (g : Circuit) : Prop where
  idsBelow : g.IdsBelow
  named : ∀ k ∈ names.map (·.2), g.contains k = true ∧ k ∉ g.inputs ∧ k ∉ g.outputs

theorem Openable.opened (h : Openable names g) : Openable names (opened g name i) where
  idsBelow := idsBelow_opened h.idsBelow
  named k hk := by
    obtain ⟨hc, hin, hout⟩ := h.named k hk
    rw [contains_opened, hc, inputs_opened, outputs_opened, List.mem_append, List.mem_singleton,
      not_or]
    exact ⟨rfl, ⟨hin, Nat.ne_of_lt (h.idsBelow k hc)⟩, hout⟩

/-- What holds of the circuit and stays when an input is opened holds in the end. -/
theorem Openable.openAll {P : Circuit → Prop} (h : Openable names g) (hP : P g)
    (hstep : ∀ e ∈ names, ∀ g, Openable names g → P g → P (Formula.opened g e.1 e.2)) :
    P (openAll g names) :=
  (List.foldlRecOn (motive := fun g => Openable names g ∧ P g) names _ ⟨h, hP⟩
    fun g ih e he => ⟨ih.1.opened, hstep e he g ih.1 ih.2⟩).2

theorem runOn_openInput (h : Openable names g) (hi : i ∈ names.map (·.2)) :
    (openInput name i).runOn g = (.ok (), opened g name i) := by
  obtain ⟨hc, hin, hout⟩ := h.named i hi
  have hc' : (g.relabel i .copy).contains i = true := by rwa [Diagram.contains_relabel]
  have hhosts : (g.relabel i .copy).Hosts [] [i] := by
    refine ⟨by simp, fun c hmem => ?_⟩
    obtain rfl := List.mem_singleton.1 hmem
    exact ⟨hc', hin⟩
  have hcheck : (g.relabel i .copy).checkInputAt i = .ok () := by
    obtain ⟨n, hn⟩ := Diagram.contains_iff.1 hc'
    have hin' : (g.relabel i .copy).isInput i = false := by
      simpa [Diagram.isInput, Diagram.relabel, Diagram.updateNode] using hin
    have hout' : (g.relabel i .copy).isOutput i = false := by
      simpa [Diagram.isOutput, Diagram.relabel, Diagram.updateNode] using hout
    rw [Diagram.checkInputAt, Diagram.find_eq_ok_iff.2 hn]
    dsimp only [bind, Except.bind]
    rw [hin', hout']
    rfl
  have hadd : (Edit.addInputAt i).runOn (g.relabel i .copy) =
      (.ok g.nextId, ((g.relabel i .copy).attach .copy [] [i]).pushInput g.nextId) := by
    rw [Edit.addInputAt, Edit.runOn_ask_bind, hcheck]
    dsimp only
    rw [Edit.runOn_bind_ok (Edit.runOn_addNode hhosts)]
    rfl
  have hnew : (((g.relabel i .copy).attach .copy [] [i]).pushInput g.nextId).contains g.nextId =
      true := by
    show ((g.relabel i .copy).attach .copy [] [i]).contains g.nextId = true
    rw [Diagram.contains_attach, Bool.or_eq_true, beq_iff_eq]
    exact .inr rfl
  rw [openInput, Edit.runOn_bind_ok (Edit.runOn_setLabel hc), Edit.runOn_bind_ok hadd,
    Edit.runOn_setLabel hnew]
  rfl

theorem runOn_openAll (h : Openable names g) :
    (names.forM fun e => openInput e.1 e.2).runOn g = (.ok (), openAll g names) := by
  rw [Edit.runOn_forM (Openable names) (fun g e => opened g e.1 e.2) ?_ h]
  · rfl
  · intro e he g hg
    exact ⟨runOn_openInput hg (List.mem_map_of_mem he), hg.opened⟩

theorem sorted_perm (names : Names) : (sorted names).Perm names := List.mergeSort_perm _ _

theorem Reading.openable (hs : Reading s) : Openable (sorted s.names) s.circuit where
  idsBelow := hs.idsBelow
  named k hk := by
    obtain ⟨hc, hout, -⟩ := hs.named k (((sorted_perm s.names).map (·.2)).mem_iff.1 hk)
    rw [hs.inputs]
    exact ⟨hc, List.not_mem_nil, hout⟩

/-! ## Which formulas have a circuit -/

/-- Formulas whose parentheses fit have the circuit that the reader finishes with. -/
theorem ofFormulas_of_balanced (h : ∀ f ∈ formulas, balanced f = true) :
    Circuit.ofFormulas formulas = .ok (finished (Reader.start.readAll formulas)) := by
  obtain ⟨hs, -⟩ := Reading.start.readAll rfl h
  have hread : (readAll [] formulas).runOn Diagram.empty = _ :=
    (runOn_readAll .start rfl formulas).1 h
  have hbuild : (build formulas).runOn Diagram.empty =
      (.ok (), finished (Reader.start.readAll formulas)) := by
    rw [build, Edit.runOn_bind_ok hread]
    exact runOn_openAll hs.openable
  rw [Circuit.ofFormulas, hbuild]

/-- The first formula that is not balanced is the reason for which all are refused. -/
theorem ofFormulas_of_unbalancedAt {before after : List String} {f : String} {offset : Nat}
    (hbefore : ∀ b ∈ before, balanced b = true) (hf : UnbalancedAt f offset) :
    Circuit.ofFormulas (before ++ f :: after) = .error (.unbalanced offset) := by
  have hread : RefusedAt ((readAll [] (before ++ f :: after)).runOn Diagram.empty) offset :=
    (runOn_readAll .start rfl _).2 before f after offset rfl hbefore hf
  have hbuild : RefusedAt ((build (before ++ f :: after)).runOn Diagram.empty) offset :=
    hread.bind _
  unfold Circuit.ofFormulas
  cases hrun : (build (before ++ f :: after)).runOn Diagram.empty with
  | mk x left =>
    rw [hrun, RefusedAt] at hbuild
    subst hbuild
    rfl

/-- Either all formulas are balanced, or there is a first one that is not. -/
theorem balanced_or_first_unbalancedAt (formulas : List String) :
    (∀ f ∈ formulas, balanced f = true) ∨ ∃ before f after offset,
      formulas = before ++ f :: after ∧ (∀ b ∈ before, balanced b = true) ∧
        UnbalancedAt f offset := by
  cases hfind : formulas.find? (!balanced ·) with
  | none => exact .inl (by simpa using hfind)
  | some f =>
    obtain ⟨hf, before, after, hsplit, hbefore⟩ := List.find?_eq_some_iff_append.1 hfind
    have hnot : ¬Balanced f := by
      rw [← balanced_iff]
      simpa using hf
    obtain ⟨offset, hoffset⟩ := not_balanced_iff.1 hnot
    exact .inr ⟨before, f, after, offset, hsplit, by simpa using hbefore, hoffset⟩

/-- **Formulas have a circuit if all their parentheses fit**, and it is the one that the reader
    finishes with. -/
theorem ofFormulas_eq_ok_iff {c : Circuit} : Circuit.ofFormulas formulas = .ok c ↔
    (∀ f ∈ formulas, balanced f = true) ∧ c = finished (Reader.start.readAll formulas) := by
  constructor
  · intro h
    rcases balanced_or_first_unbalancedAt formulas with hall | ⟨before, f, after, offset, rfl, hf⟩
    · rw [ofFormulas_of_balanced hall] at h
      exact ⟨hall, (Except.ok.inj h).symm⟩
    · rw [ofFormulas_of_unbalancedAt hf.1 hf.2] at h
      cases h
  · rintro ⟨hall, rfl⟩
    exact ofFormulas_of_balanced hall

/-- **Formulas are refused for unbalanced parentheses and for nothing else.** If all are balanced,
    whatever stands between the parentheses, then they have a circuit. Otherwise the first that is
    not is the reason, and the place that is named is that of its first parenthesis without a
    partner, in bytes. This holds with words of any size that have room for the formulas, as those of
    64 bits have for all that fit into a memory. -/
theorem formulas_refused_iff_unbalanced [Words] (formulas : List String)
    (hroom : Words.Holds (room formulas)) :
    ((∃ c, Circuit.ofFormulas formulas = .ok c) ↔ ∀ f ∈ formulas, Balanced f) ∧
    ∀ fault, Circuit.ofFormulas formulas = .error fault ↔
      ∃ before f after offset, formulas = before ++ f :: after ∧ (∀ b ∈ before, Balanced b) ∧
        UnbalancedAt f offset ∧ fault = .unbalanced offset := by
  simp only [ofFormulas_eq hroom, ← balanced_iff]
  constructor
  · constructor
    · rintro ⟨c, hc⟩
      exact (ofFormulas_eq_ok_iff.1 hc).1
    · exact fun hall => ⟨_, ofFormulas_of_balanced hall⟩
  · intro fault
    constructor
    · intro h
      rcases balanced_or_first_unbalancedAt formulas with
        hall | ⟨before, f, after, offset, rfl, hbefore, hf⟩
      · rw [ofFormulas_of_balanced hall] at h
        cases h
      · rw [ofFormulas_of_unbalancedAt hbefore hf] at h
        exact ⟨before, f, after, offset, rfl, hbefore, hf, (Except.error.inj h).symm⟩
    · rintro ⟨before, f, after, offset, rfl, hbefore, hf, rfl⟩
      exact ofFormulas_of_unbalancedAt hbefore hf

section Machine

open scoped Machine

/-- The place is counted in bytes, of which the blank in the second formula has three. -/
theorem formulas_refused_iff_unbalanced_blank :
    Circuit.ofFormulas ["(x0)", "(x1)\u3000)", "("] = .error (.unbalanced 7) ∧
      ∃ f ∈ ["(x0)", "(x1)\u3000)", "("], UnbalancedAt f 7 := by
  have hrefused : Circuit.ofFormulas ["(x0)", "(x1)\u3000)", "("] = .error (.unbalanced 7) := by
    decide +kernel
  obtain ⟨before, f, after, offset, hsplit, -, hf, hoffset⟩ :=
    ((formulas_refused_iff_unbalanced _ (by decide +kernel)).2 _).1 hrefused
  obtain rfl := Fault.unbalanced.inj hoffset
  exact ⟨hrefused, f, hsplit ▸ List.mem_append_right before List.mem_cons_self, hf⟩

end Machine

end Formula

end Wiring
