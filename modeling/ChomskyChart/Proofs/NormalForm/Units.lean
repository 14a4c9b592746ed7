import ChomskyChart.Grammar.NormalShape
import ChomskyChart.NormalForm.Units
import ChomskyChart.Proofs.Grammar.Search
import ChomskyChart.Proofs.NormalForm.Epsilon

/-!
# Words without unit rules

A nonterminal that takes over a body had its words before, by the unit rules on the way to the body.
Conversely a unit rule is not missed: what its target derives now, it derives by a body from the
target's own closure, and that closure is part of the closure of the head.

## Main definitions

* `Grammar.DropsUnits`: a grammar and what the step makes of it
* `Grammar.takenOver`: the bodies that a nonterminal takes over

## Main results

* `exists_withoutUnits_eq`, `exists_withoutUnits`: the step succeeds
* `DropsUnits.derives_iff`: the words afterwards
* `DropsUnits.wellFormed`, `DropsUnits.startUnused`, `DropsUnits.inNormalForm`: the form of the
  grammar afterwards
* `withoutUnits_keeps_words`: what the step does to a grammar that passes the check
-/

namespace ChomskyChart

open Relation

theorem isUnitBody_iff {body : Body} :
    isUnitBody body = true ↔ ∃ index, body = [.nonterminal index] := by
  rw [isUnitBody, Option.isSome_iff_exists]
  simp only [Grammar.unitTarget?_eq_some_iff]

namespace Grammar

variable {g r : Grammar}

/-! ### The step -/

/-- The rules of `r` are the rules of `g` with longer bodies or terminals, for every nonterminal
that reaches their heads through unit rules. -/
structure DropsUnits (r g : Grammar) : Prop where
  nonterminals_eq : r.nonterminals = g.nonterminals
  terminals_eq : r.terminals = g.terminals
  start_eq : r.start = g.start
  length_rows_eq : r.rows.length = g.rows.length
  acceptsEmpty_eq : r.acceptsEmpty = g.acceptsEmpty
  hasRule_iff : ∀ head body, r.HasRule head body ↔
    isUnitBody body = false ∧ ∃ member, ReflTransGen g.UnitStep head member ∧ g.HasRule member body
  nodup_of_mem_rows : ∀ row ∈ r.rows, row.Nodup

/-- Where a nonterminal leads by unit rules there is a row, if there is one where it starts. -/
theorem WellFormed.lt_of_unitSteps (h : g.WellFormed) {a b : Nat} (ha : a < g.rows.length)
    (hsteps : ReflTransGen g.UnitStep a b) : b < g.rows.length := by
  rcases hsteps.cases_tail with rfl | ⟨_, -, hstep⟩
  · exact ha
  · exact h.lt_of_uses hstep.uses

/-- The bodies that the step gives to a nonterminal with the unit closure `closure`. -/
def takenOver (g : Grammar) (closure : List Nat) : Row :=
  ((closure.flatMap fun member => g.rows[member]?.getD []).filter
    fun body => !isUnitBody body).eraseDups

theorem mem_takenOver_iff {closure : List Nat} {body : Body} :
    body ∈ g.takenOver closure ↔
      isUnitBody body = false ∧ ∃ member ∈ closure, g.HasRule member body := by
  rw [takenOver, List.mem_eraseDups, List.mem_filter, Bool.not_eq_true', and_comm, List.mem_flatMap]
  simp only [mem_getD_rows_iff]

theorem mapM_takenOver {closure : List Nat} (hlt : ∀ member ∈ closure, member < g.rows.length) :
    (do
      let members ← closure.mapM (lookUp g.rows)
      return (members.flatten.filter fun body => !isUnitBody body).eraseDups) =
        (.ok (g.takenOver closure) : Except Failure Row) := by
  have hlook : ∀ member ∈ closure, lookUp g.rows member = .ok (g.rows[member]?.getD []) := by
    intro member hmem
    rw [lookUp_of_lt (hlt member hmem), List.getElem?_eq_getElem (hlt member hmem)]
    rfl
  rw [mapM_eq_ok hlook]
  rfl

/-- **On a well-formed grammar the step succeeds:** every nonterminal takes over the bodies of its
unit closure. -/
theorem exists_withoutUnits_eq (h : g.WellFormed) :
    ∃ closure : Nat → List Nat,
      g.unitClosures = .ok ((List.range g.rows.length).map closure) ∧
      g.withoutUnits =
        .ok { g with rows := (List.range g.rows.length).map fun a => g.takenOver (closure a) } ∧
      ∀ a < g.rows.length, (closure a).Nodup ∧ (closure a).head? = some a ∧
        ∀ b, b ∈ closure a ↔ ReflTransGen g.UnitStep a b := by
  obtain ⟨closure, hclosure, hmem⟩ := exists_unitClosures h
  refine ⟨closure, hclosure, ?_, hmem⟩
  have hrow : ∀ a ∈ List.range g.rows.length, (do
      let members ← (closure a).mapM (lookUp g.rows)
      return (members.flatten.filter fun body => !isUnitBody body).eraseDups) =
        (.ok (g.takenOver (closure a)) : Except Failure Row) := by
    intro a ha
    have ha := List.mem_range.1 ha
    exact mapM_takenOver fun b hb => h.lt_of_unitSteps ha (((hmem a ha).2.2 b).1 hb)
  have hrows := mapM_eq_ok hrow
  simp only [withoutUnits, hclosure, bind, Except.bind, List.mapM_map, Function.comp_def] at hrows ⊢
  rw [hrows]
  rfl

theorem exists_withoutUnits (h : g.WellFormed) : ∃ r, g.withoutUnits = .ok r ∧ r.DropsUnits g := by
  obtain ⟨closure, -, heq, hmem⟩ := exists_withoutUnits_eq h
  refine ⟨_, heq, rfl, rfl, rfl, by simp, rfl, fun head body => ?_, fun row hrow => ?_⟩
  · rcases Nat.lt_or_ge head g.rows.length with hlt | hge
    · have hat : ((List.range g.rows.length).map fun a => g.takenOver (closure a))[head]? =
          some (g.takenOver (closure head)) := by
        rw [List.getElem?_map, List.getElem?_range hlt, Option.map_some]
      simp only [HasRule, hat, Option.some.injEq, exists_eq_left']
      rw [mem_takenOver_iff]
      refine and_congr_right fun _ => exists_congr fun member => ?_
      rw [(hmem head hlt).2.2]
      exact Iff.rfl
    · constructor
      · intro hrule
        have := hrule.lt_length_rows
        rw [List.length_map, List.length_range] at this
        omega
      · rintro ⟨-, member, hsteps, hrule⟩
        rcases hsteps.cases_head with rfl | ⟨_, hstep, -⟩
        · exact absurd hrule.lt_length_rows (by omega)
        · exact absurd hstep.lt_length_rows (by omega)
  · obtain ⟨a, -, rfl⟩ := List.mem_map.1 hrow
    exact nodup_eraseDups _

/-! ### Words -/

/-- Unit rules carry words back. -/
theorem derives_of_unitSteps {a b : Nat} (hsteps : ReflTransGen g.UnitStep a b)
    {word : List String} (hword : g.Derives b word) : g.Derives a word := by
  induction hsteps using ReflTransGen.head_induction_on with
  | refl => exact hword
  | head hstep _ ih => exact g.closed_derives hstep (reads_nonterminal_iff.2 ih)

/-- **Every nonterminal keeps its words.** -/
theorem DropsUnits.derives_iff (h : r.DropsUnits g) {index : Nat} {word : List String} :
    r.Derives index word ↔ g.Derives index word := by
  constructor
  · intro hword
    refine hword.of_closed fun head body word hrule hbody => ?_
    rw [h.terminals_eq] at hbody
    obtain ⟨-, member, hsteps, hmember⟩ := (h.hasRule_iff head body).1 hrule
    exact derives_of_unitSteps hsteps (g.closed_derives hmember hbody)
  · intro hword
    refine hword.of_closed fun head body word hrule hbody => ?_
    cases hunit : isUnitBody body with
    | false =>
      exact r.closed_derives ((h.hasRule_iff head body).2 ⟨hunit, head, .refl, hrule⟩)
        (h.terminals_eq ▸ hbody)
    | true =>
      -- the target derives the word by a body that the head has taken over too
      obtain ⟨target, rfl⟩ := isUnitBody_iff.1 hunit
      obtain ⟨body, hbody', hword'⟩ := derives_iff_reads.1 (reads_nonterminal_iff.1 hbody)
      obtain ⟨hnot, member, hsteps, hmember⟩ := (h.hasRule_iff target body).1 hbody'
      exact r.closed_derives
        ((h.hasRule_iff head body).2 ⟨hnot, member, hsteps.head hrule, hmember⟩) hword'

/-! ### Form -/

theorem DropsUnits.wellFormed (h : r.DropsUnits g) (hg : g.WellFormed) : r.WellFormed := by
  refine hg.of_symbols h.nonterminals_eq h.terminals_eq h.start_eq h.length_rows_eq ?_
  intro head body hrule s hs
  obtain ⟨-, member, -, hmember⟩ := (h.hasRule_iff head body).1 hrule
  exact ⟨member, body, hmember, hs⟩

theorem DropsUnits.startUnused (h : r.DropsUnits g) (hunused : g.StartUnused) : r.StartUnused := by
  intro head body hrule hmem
  obtain ⟨-, member, -, hmember⟩ := (h.hasRule_iff head body).1 hrule
  rw [h.start_eq] at hmem
  exact hunused member body hmember hmem

/-- The shapes that are left: of the short bodies only single terminals and pairs of
nonterminals. -/
theorem hasNormalShape_of_hasBinaryShape {body : Body} (hbinary : HasBinaryShape body)
    (hne : body ≠ []) (hunit : isUnitBody body = false) : hasNormalShape body = true := by
  obtain ⟨hlength, htwo⟩ := hbinary
  match body with
  | [] => exact absurd rfl hne
  | [.terminal t] => rfl
  | [.nonterminal index] => exact nomatch hunit
  | [.terminal t, _] => exact absurd List.mem_cons_self (htwo rfl t)
  | [.nonterminal index, .terminal t] =>
    exact absurd (List.mem_cons_of_mem _ List.mem_cons_self) (htwo rfl t)
  | [.nonterminal _, .nonterminal _] => rfl
  | _ :: _ :: _ :: _ =>
    simp only [List.length_cons] at hlength
    omega

/-- **Without unit rules the grammar is in normal form,** if its bodies were short and not empty. -/
theorem DropsUnits.inNormalForm (h : r.DropsUnits g) (hbinary : g.BodiesBinary)
    (hne : ∀ head body, g.HasRule head body → body ≠ []) : r.InNormalForm := by
  refine forall_mem_rows_iff.2 fun head body hrule => ?_
  obtain ⟨hunit, member, -, hmember⟩ := (h.hasRule_iff head body).1 hrule
  exact hasNormalShape_of_hasBinaryShape (hbinary member body hmember) (hne member body hmember)
    hunit

/-! ### Grammars that pass the check -/

/-- **The step removes the unit rules and keeps the words of all nonterminals.** A row has the other
bodies of the unit closure of its nonterminal, those of earlier members first and those of one
member as they stand in its row, and of equal bodies the first one. -/
theorem withoutUnits_keeps_words (h : g.validate = .ok ()) :
    ∃ (r : Grammar) (closures : List (List Nat)),
      g.withoutUnits = .ok r ∧ g.unitClosures = .ok closures ∧
      r.nonterminals = g.nonterminals ∧ r.terminals = g.terminals ∧ r.start = g.start ∧
      r.acceptsEmpty = g.acceptsEmpty ∧ r.rows.length = g.rows.length ∧
      (∀ row ∈ r.rows, row.Nodup ∧ ∀ target, [.nonterminal target] ∉ row) ∧
      (∀ index word, r.Derives index word ↔ g.Derives index word) ∧
      ∀ index < g.rows.length, ∃ closure row,
        closures[index]? = some closure ∧ r.rows[index]? = some row ∧
        closure.Nodup ∧ closure.head? = some index ∧
        (∀ member, member ∈ closure ↔ ReflTransGen g.UnitStep index member) ∧
        FirstOccurrences row ((closure.flatMap fun member => g.rows[member]?.getD []).filter
          fun body => !isUnitBody body) := by
  have hg := validate_eq_ok_iff.1 h
  obtain ⟨closure, hclosure, heq, hmem⟩ := exists_withoutUnits_eq hg
  obtain ⟨r, hr, hdrops⟩ := exists_withoutUnits hg
  have hnot : ∀ row ∈ r.rows, ∀ body ∈ row, isUnitBody body = false :=
    forall_mem_rows_iff.2 fun head body hrule => ((hdrops.hasRule_iff head body).1 hrule).1
  refine ⟨r, _, hr, hclosure, hdrops.nonterminals_eq, hdrops.terminals_eq, hdrops.start_eq,
    hdrops.acceptsEmpty_eq, hdrops.length_rows_eq,
    fun row hrow => ⟨hdrops.nodup_of_mem_rows row hrow, fun target htarget => ?_⟩,
    fun _ _ => hdrops.derives_iff, fun index hlt => ?_⟩
  · exact nomatch hnot row hrow _ htarget
  · obtain ⟨hnodup, hhead, hreached⟩ := hmem index hlt
    obtain rfl := Except.ok.inj (heq.symm.trans hr)
    refine ⟨closure index, g.takenOver (closure index), ?_, ?_, hnodup, hhead, hreached,
      firstOccurrences_eraseDups _⟩ <;>
    rw [List.getElem?_map, List.getElem?_range hlt, Option.map_some]

/-- Three nonterminals in a circle of unit rules, one of them with a rule to itself. -/
def unitCircle : Grammar where
  nonterminals := ["S", "A", "B"]
  terminals := ["a", "b"]
  start := 0
  rows := [[[.nonterminal 1], [.terminal 0], [.nonterminal 0]],
    [[.nonterminal 2], [.terminal 1], [.terminal 0]],
    [[.nonterminal 1], [.nonterminal 0], [.nonterminal 0, .terminal 1]]]

theorem withoutUnits_keeps_words_unitCircle :
    unitCircle.validate = .ok () ∧
    ∃ (r : Grammar) (closures : List (List Nat)),
      unitCircle.withoutUnits = .ok r ∧ unitCircle.unitClosures = .ok closures ∧
      (∀ row ∈ r.rows, row.Nodup ∧ ∀ target, [.nonterminal target] ∉ row) ∧
      (∀ index word, r.Derives index word ↔ unitCircle.Derives index word) ∧
      ∀ index < 3, ∃ closure row,
        closures[index]? = some closure ∧ r.rows[index]? = some row ∧
        closure.head? = some index ∧
        (∀ member, member ∈ closure ↔ ReflTransGen unitCircle.UnitStep index member) ∧
        FirstOccurrences row
          ((closure.flatMap fun member => unitCircle.rows[member]?.getD []).filter fun body =>
            !isUnitBody body) := by
  obtain ⟨r, closures, hr, hclosures, -, -, -, -, -, hrows, hwords, hlisted⟩ :=
    withoutUnits_keeps_words (g := unitCircle) (by decide)
  refine ⟨by decide, r, closures, hr, hclosures, hrows, hwords, fun index hlt => ?_⟩
  obtain ⟨closure, row, hclosure, hrow, -, hhead, hmem, hfirst⟩ := hlisted index hlt
  exact ⟨closure, row, hclosure, hrow, hhead, hmem, hfirst⟩

example : unitCircle.withoutUnits = .ok { unitCircle with
    rows := [[[.terminal 0], [.terminal 1], [.nonterminal 0, .terminal 1]],
      [[.terminal 1], [.terminal 0], [.nonterminal 0, .terminal 1]],
      [[.nonterminal 0, .terminal 1], [.terminal 1], [.terminal 0]]] } := by decide

end Grammar

end ChomskyChart
