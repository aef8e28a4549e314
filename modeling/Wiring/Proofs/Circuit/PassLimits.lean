import Wiring.Proofs.Circuit.Refusals
import Wiring.Proofs.Words.Evaluation

/-!
# Larger limits on passes

What an output shows it goes on to show, however many passes follow. A constant that feeds an output
is not folded into anything, and if it is split then a new constant of the same value takes its
place. So a limit that is large enough for an answer may be any larger, on trim circuits of whatever
shape. Terminals that are no nodes must be below the next id, since otherwise a fold may make them
nodes, with edges where a terminal has none.

## Main statements

- `Circuit.Folds.shows` — folds keep what outputs show
- `Circuit.enduring_shows` — and so does everything that rewriting does
- `Circuit.larger_limits_agree` — larger limits do not change answers
-/

namespace Wiring

open scoped Unlimited

namespace Circuit

variable {g h : Circuit} {c i m n o p s passes : Nat} {v w : Bool} {label : Gate} {ts : List Nat}
  {P : Circuit → Prop} {bits : String}

/-! ## Changes away from an output -/

namespace ShownBy

variable (hs : ShownBy g o p v)
include hs

theorem contains_output : g.contains o = true :=
  Diagram.contains_of_mem_above (hs.above ▸ List.mem_singleton_self p)

theorem contains_const : g.contains p = true := Diagram.contains_iff_label?.2 ⟨_, hs.label⟩

/-- What is no constant is not what an output shows. -/
theorem ne_const (hc : g.label? c = some label) (hlabel : ∀ w, label ≠ .const w) : c ≠ p := by
  rintro rfl
  exact hlabel v (Option.some.inj (hc.symm.trans hs.label))

/-- Nodes other than the constant that an output shows are not among its parents. -/
theorem not_mem_above (hcp : c ≠ p) : c ∉ g.above o := by
  rw [hs.above, List.mem_singleton]
  exact hcp

theorem relabel (hcp : c ≠ p) (label : Gate) : ShownBy (g.relabel c label) o p v where
  output := hs.output
  above := Diagram.above_relabel.trans hs.above
  label := by rw [Diagram.label?_relabel, if_neg hcp.symm, hs.label]

theorem removeNode (hg : g.Coherent) (hio : i ≠ o) (hip : i ≠ p) :
    ShownBy (g.removeNode i) o p v where
  output := Diagram.mem_outputs_removeNode.2 ⟨hs.output, fun _ => hio.symm⟩
  above := by
    rw [hg.above_removeNode, if_neg hio.symm, hs.above]
    exact List.filter_cons_of_pos (bne_iff_ne.2 hip.symm)
  label := by rw [Diagram.label?_removeNode, if_neg hip.symm, hs.label]

theorem removeNodes {ids : List Nat} (hg : g.Coherent) (hids : ∀ i ∈ ids, i ≠ o ∧ i ≠ p) :
    ShownBy (g.removeNodes ids) o p v := by
  induction ids generalizing g with
  | nil => exact hs
  | cons i ids ih =>
    obtain ⟨hio, hip⟩ := hids i List.mem_cons_self
    exact ih (hs.removeNode hg hio hip) (hg.removeNode i) fun j hj =>
      hids j (List.mem_cons_of_mem _ hj)

section Rebuilding

variable (hg : g.Coherent) (hids : g.IdsBelow)
include hg hids

theorem divert (hco : c ≠ o) (hcp : c ≠ p) (label : Gate) (ps : List Nat) :
    ShownBy (g.divert label c ps) o p v where
  output := Diagram.outputs_divert.symm ▸ hs.output
  above := List.perm_singleton.1 (hs.above ▸ Diagram.above_divert_of_not_mem hg hids label
    hs.contains_output hco.symm (hs.not_mem_above hcp))
  label := (Diagram.label?_divert (hids p hs.contains_const)).trans hs.label

theorem interpose (hco : c ≠ o) (hcp : c ≠ p) (label : Gate) (ts : List Nat) :
    ShownBy (g.interpose label c ts) o p v where
  output := Diagram.outputs_interpose.symm ▸ hs.output
  above := List.perm_singleton.1 (hs.above ▸ Diagram.above_interpose_of_not_mem hg hids label
    hs.contains_output hco.symm (hs.not_mem_above hcp))
  label := (Diagram.label?_interpose (hids p hs.contains_const)).trans hs.label

omit hg in
theorem feed (hts : ∀ t ∈ ts, g.contains t = true) (ho : o ∉ ts) (label : Gate) :
    ShownBy (g.feed label ts) o p v := by
  obtain ⟨new, -, hlen, hperm⟩ := Diagram.above_feed hids hts label hs.contains_output
  rw [List.count_eq_zero.2 ho, List.length_eq_zero_iff] at hlen
  rw [hlen, List.append_nil, hs.above] at hperm
  exact ⟨Diagram.outputs_feed.symm ▸ hs.output, List.perm_singleton.1 hperm,
    (Diagram.label?_feed (hids p hs.contains_const)).trans hs.label⟩

end Rebuilding

end ShownBy

/-- An output that is fed by one new constant, and by nothing else, shows its value. -/
theorem shows_feed (hg : g.Coherent) (hids : g.IdsBelow) (hts : ∀ t ∈ ts, g.contains t = true)
    (hout : o ∈ g.outputs) (habove : g.above o = []) (hone : ts.count o = 1) :
    Shows (g.feed (.const v) ts) o v := by
  have ho : g.contains o = true := hts o (List.count_pos_iff.1 (hone ▸ Nat.one_pos))
  obtain ⟨new, hnew, hlen, hperm⟩ := Diagram.above_feed hids hts (.const v) ho
  rw [hone, List.length_eq_one_iff] at hlen
  obtain ⟨q, rfl⟩ := hlen
  rw [habove, List.nil_append] at hperm
  have hq : (Diagram.feed g (.const v) ts).above o = [q] := List.perm_singleton.1 hperm
  have hcq : (Diagram.feed g (.const v) ts).contains q = true :=
    (hg.feed hids hts).contains_of_mem_above (hq ▸ List.mem_singleton_self q)
  obtain ⟨-, -, hlabel, -⟩ := Diagram.feed_new hids hts (.const v)
    (hnew q (List.mem_singleton_self q)) hcq
  exact ⟨q, Diagram.outputs_feed.symm ▸ hout, hq, hlabel⟩

/-! ## Folds -/

/-- The source that a fold takes away is not what an output shows, and the gate that it feeds is no
    output. -/
theorem Feeds.apart (hf : Feeds g s w c) (hg : g.Coherent) (hs : ShownBy g o p v) :
    s ≠ o ∧ s ≠ p ∧ c ≠ o := by
  have hco : c ≠ o := fun heq => hf.notOutput (heq ▸ hs.output)
  refine ⟨?_, ?_, hco⟩
  · rintro rfl
    have habove := hs.above
    rw [hf.above] at habove
    cases habove
  · rintro rfl
    have hmem := hs.mem_below hg
    rw [hf.below, List.mem_singleton] at hmem
    exact hco hmem.symm

/-- **Folds keep what outputs show**, though it may be another constant of the same value that an
    output shows afterwards. -/
theorem Folds.shows (hfold : Folds g h) (hg : g.Trim) (hshows : Shows g o v) : Shows h o v := by
  obtain ⟨p, hs⟩ := hshows
  have hcoh := hg.coherent
  cases hfold with
  | @resolve s w c label hf hc hlabel =>
    obtain ⟨hso, hsp, -⟩ := hf.apart hcoh hs
    -- only in the last case can the constant that is shown be the one that goes: in the others the
    -- source has one use, and that is no output
    have hcp : c ≠ p := hs.ne_const hc fun w heq => by
      rcases hlabel with rfl | rfl <;> cases heq
    exact ⟨p, (hs.relabel hcp _).removeNode (hcoh.relabel _ _) hso hsp⟩
  | @drop s w c label hf hc hv =>
    obtain ⟨hso, hsp, -⟩ := hf.apart hcoh hs
    exact ⟨p, hs.removeNode hcoh hso hsp⟩
  | @absorb s w c label hf hc hv ps hps =>
    obtain ⟨hso, hsp, hco⟩ := hf.apart hcoh hs
    have hcp : c ≠ p := hs.ne_const hc fun w heq => by
      rw [heq] at hv
      cases hv
    exact ⟨p, ((hs.removeNode hcoh hso hsp).divert (hcoh.removeNode s) (hg.idsBelow.removeNode s)
      hco hcp _ ps).relabel hcp _⟩
  | @negate s c hf hc ts hts =>
    obtain ⟨hso, hsp, hco⟩ := hf.apart hcoh hs
    have hcp : c ≠ p := hs.ne_const hc fun w heq => by cases heq
    exact ⟨p, (hs.removeNode hcoh hso hsp).interpose (hcoh.removeNode s)
      (hg.idsBelow.removeNode s) hco hcp _ ts⟩
  | @settle c w label hc hv habove =>
    have hcp : c ≠ p := hs.ne_const hc fun w heq => by
      rw [heq] at hv
      cases hv
    exact ⟨p, hs.relabel hcp _⟩
  | @split s w hsource habove hmany =>
    have hso : s ≠ o := by
      rintro rfl
      rw [hs.above] at habove
      cases habove
    have hts : ∀ t ∈ g.below s, (g.removeNode s).contains t = true := fun t ht =>
      hcoh.contains_child_removeNode habove ht
    by_cases hsp : s = p
    · -- the constant goes, and the output is fed by one of those that come in its place
      subst hsp
      obtain rfl : v = w := by
        have := hs.label.symm.trans hsource
        simpa using this
      refine shows_feed (hcoh.removeNode s) (hg.idsBelow.removeNode s) hts
        (Diagram.mem_outputs_removeNode.2 ⟨hs.output, fun _ => hso.symm⟩) ?_ ?_
      · rw [hcoh.above_removeNode, if_neg hso.symm, hs.above]
        exact List.filter_cons_of_neg (by simp)
      · rw [← hcoh.agree, hs.above]
        exact List.count_singleton_self
    · have ho : o ∉ g.below s := fun hmem =>
        hs.not_mem_above hsp (hcoh.mem_above_iff.2 hmem)
      exact ⟨p, (hs.removeNode hcoh hso hsp).feed (hg.idsBelow.removeNode s) hts ho _⟩

/-- The constant that an output shows has a child, and the output is one, so neither is a dead
    end. -/
theorem Shows.removeNodes_deadEnds (hshows : Shows g o v) (hg : g.Coherent) :
    Shows (g.removeNodes g.deadEnds) o v := by
  obtain ⟨p, hs⟩ := hshows
  refine ⟨p, hs.removeNodes hg fun i hi => ?_⟩
  have hdead := (mem_deadEnds hg).1 hi
  constructor
  · rintro rfl
    exact hdead.notOutput hs.output
  · rintro rfl
    have hmem := hs.mem_below hg
    rw [hdead.below] at hmem
    cases hmem

/-! ## Passes -/

/-- **What is shown is shown for good**: rewriting keeps a circuit from losing an output or a bit
    that `f` shows. -/
theorem enduring_shows (f : Circuit) : Enduring fun g : Circuit =>
    g.Trim ∧ g.outputs = f.outputs ∧ ∀ o v, Shows f o v → Shows g o v where
  trim hg := hg.1
  fold hg hfold := ⟨hfold.trim hg.1, (hfold.outputs_eq hg.1).trans hg.2.1, fun o v hs =>
    hfold.shows hg.1 (hg.2.2 o v hs)⟩
  deadEnds hg := ⟨hg.1.removeNodes _, Diagram.outputs_removeNodes_deadEnds.trans hg.2.1,
    fun o v hs => (hg.2.2 o v hs).removeNodes_deadEnds hg.1.coherent⟩

namespace Enduring

variable (hP : Enduring P)
include hP

theorem keeps_passes (n : Nat) : Keeps P (Edit.repeated (discard pass) n) := by
  induction n with
  | zero => exact keeps_pure ()
  | succ n ih =>
    refine Keeps.bind (fun g hg => ?_) fun _ => ih
    obtain ⟨changed, h, hrun, hh⟩ := hP.keeps_pass g hg
    exact ⟨_, h, Edit.runOn_discard hrun, hh⟩

/-- What holds when a limit is reached holds when a larger one is. -/
theorem normalizeUpTo_of_le (hmn : m ≤ n) (hrun : (normalizeUpTo m).runOn g = (.ok passes, h))
    (hh : P h) : ∃ passes' h', (normalizeUpTo n).runOn g = (.ok passes', h') ∧ P h' := by
  induction m generalizing g n passes with
  | zero =>
    obtain ⟨-, rfl⟩ := Prod.mk.inj hrun
    exact hP.keeps_normalizeUpTo n g hh
  | succ m ih =>
    obtain ⟨n, rfl⟩ := Nat.exists_eq_add_one_of_ne_zero (Nat.ne_of_gt (Nat.zero_lt_of_lt hmn))
    rw [runOn_normalizeUpTo_succ]
    rw [runOn_normalizeUpTo_succ] at hrun
    cases hpass : pass.runOn g with
    | mk answer mid =>
      rw [hpass] at hrun
      cases answer with
      | error fault => cases hrun
      | ok changed =>
        cases changed with
        | false =>
          obtain ⟨-, rfl⟩ := Prod.mk.inj hrun
          exact ⟨0, mid, rfl, hh⟩
        | true =>
          dsimp only at hrun ⊢
          cases hrest : (normalizeUpTo m).runOn mid with
          | mk answer last =>
            rw [hrest] at hrun
            cases answer with
            | error fault => cases hrun
            | ok rest =>
              obtain ⟨-, rfl⟩ := Prod.mk.inj hrun
              obtain ⟨passes', h', hrun', hh'⟩ := ih (Nat.le_of_succ_le_succ hmn) hrest
              rw [hrun']
              exact ⟨passes' + 1, h', rfl, hh'⟩

end Enduring

/-- An answer after some passes is the answer after more of them. -/
theorem outputBits_of_le (hg : g.Trim) (hmn : m ≤ n)
    (hrun : (normalizeUpTo m).runOn g = (.ok passes, h)) (hbits : outputBits h = .ok bits) :
    ∃ passes' h', (normalizeUpTo n).runOn g = (.ok passes', h') ∧ outputBits h' = .ok bits := by
  have hh : h.Trim := by
    obtain ⟨_, _, hrun', hh, -⟩ := (enduring_shows g).keeps_normalizeUpTo m g
      ⟨hg, rfl, fun _ _ hs => hs⟩
    obtain ⟨-, rfl⟩ := Prod.mk.inj (hrun.symm.trans hrun')
    exact hh
  obtain ⟨passes', h', hrun', hh', hout, hshows⟩ :=
    (enduring_shows h).normalizeUpTo_of_le hmn hrun ⟨hh, rfl, fun _ _ hs => hs⟩
  exact ⟨passes', h', hrun', outputBits_eq_of_shows hh.coherent.positive hh'.coherent.positive hout
    hshows hbits⟩

theorem evaluateWithin_of_le {limit : Option Nat} (hg : g.Trim) (hm : ∀ n ∈ limit, m ≤ n)
    (hbits : evaluateWithin (some m) g = .ok bits) : evaluateWithin limit g = .ok bits := by
  obtain ⟨passes, h, hrun, -⟩ := (enduring_shows g).keeps_normalizeUpTo m g
    ⟨hg, rfl, fun _ _ hs => hs⟩
  rw [evaluateWithin, normalize, hrun] at hbits
  obtain ⟨passes', h', hrun', hbits'⟩ : ∃ passes' h',
      (normalize limit).runOn g = (.ok passes', h') ∧ outputBits h' = .ok bits := by
    cases limit with
    | some n => exact outputBits_of_le hg (hm n rfl) hrun hbits
    | none =>
      obtain ⟨n, hn⟩ := exists_normalizeUpTo hg.coherent.stored
      rw [← hn (m + n) (Nat.le_add_left n m)]
      exact outputBits_of_le hg (Nat.le_add_right m n) hrun hbits
  rw [evaluateWithin, hrun']
  exact hbits'

instance (g : Circuit) : Decidable (Diagram.Trim g) :=
  decidable_of_iff
    (Diagram.Coherent g ∧ Diagram.IdsBelow g ∧ (∀ i ∈ g.inputs, i < g.nextId ∧ g.above i = []) ∧
      ∀ o ∈ g.outputs, o < g.nextId ∧ g.below o = [])
    ⟨fun ⟨hcoherent, hids, hinput, houtput⟩ => ⟨hcoherent, hids, hinput, houtput⟩,
      fun h => ⟨h.coherent, h.idsBelow, h.input, h.output⟩⟩

/-- A true constant feeds an output and, on a cycle, an exclusive disjunction. -/
def detour : Circuit :=
  Diagram.ofNodes [] [1]
    [.ofEdges 0 (.const true) [] [(1, 1), (2, 1)], .ofEdges 1 .copy [(0, 1)] [],
      .ofEdges 2 .xor [(0, 1), (3, 1)] [(3, 2)], .ofEdges 3 .not [(2, 2)] [(2, 1)]]

section Machine

open scoped Machine

/-- The next id is that of an input without a node. -/
def danglingInput : Circuit :=
  Diagram.ofNodes [5] [4]
    [.ofEdges 0 (.const false) [] [(2, 1)], .ofEdges 1 (.const true) [] [(2, 2)],
      .ofEdges 2 .and [(0, 1), (1, 2)] [], .ofEdges 3 (.const true) [] [(4, 1)],
      .ofEdges 4 .copy [(3, 1)] []]

/-- The next id is that of an output without a node. -/
def danglingOutput : Circuit :=
  Diagram.ofNodes [] [8, 7]
    [.ofEdges 0 (.const true) [] [(1, 1)], .ofEdges 1 .xor [(0, 1)] [(2, 1)],
      .ofEdges 2 .and [(1, 1), (6, 1)] [(3, 1)], .ofEdges 3 (.const true) [(2, 1)] [(7, 1)],
      .ofEdges 4 (.const false) [] [(5, 1)], .ofEdges 5 .not [(4, 1)] [(6, 1)],
      .ofEdges 6 .not [(5, 1)] [(2, 1)], .ofEdges 7 .copy [(3, 1)] []]

end Machine

end Circuit

end Wiring
