import ChomskyChart.Proofs.Forest.Count
import ChomskyChart.Proofs.Forest.FirstTree
import ChomskyChart.Proofs.Kept.Unchecked

/-!
# What is checked is safe

Everything that reads a grammar by position relies on the parts of the grammar to fit together.
Normalizing, recognizing and parsing check that first, so on a grammar put together from any parts
they end with a result or with a refusal. Whoever has checked a grammar may use the steps to a
normal form and the questions about it one by one.

What a step relies on is always the same, well-formedness, and every step leaves a well-formed
grammar. In a forest positions come from a chart, and there they are right because of how a chart is
filled: a split lies within its span, and both sides of it have derivations.

## Main definitions

* `Faultless`: an operation ends with a result or with a refusal
* `Grammar.Operates`: the steps and the questions, each by itself
* `Forest.Unfolds`: what is read from a forest

## Main results

* `WellFormed.operates`: what can be done with a well-formed grammar
* `validate_suffices`: what can be done with any grammar
-/

namespace ChomskyChart

/-! ### Outcomes -/

/-- There is a result, or a refusal, and so no fault. -/
def Faultless {α : Type} (outcome : Except Failure α) : Prop :=
  (∃ a, outcome = .ok a) ∨ ∃ cause, outcome = .error (.refused cause)

namespace Grammar

variable {g : Grammar}

theorem WellFormed.faultless_checkNormalForm (h : g.WellFormed) : Faultless g.checkNormalForm := by
  obtain ⟨-, hcheck⟩ | ⟨-, hcheck⟩ := h.namesOddRule.checkNormalForm_cases
  · exact .inl ⟨(), hcheck⟩
  · exact .inr hcheck

/-- **Normalizing ends without a fault** on any grammar. -/
theorem faultless_normalize (g : Grammar) (config : NormalFormNames) :
    Faultless (g.normalize config) := by
  by_cases h : g.WellFormed
  · obtain ⟨s, hs⟩ := exists_stages h config
    exact .inl ⟨s.normal, hs⟩
  · obtain ⟨cause, hcause⟩ := exists_validate_eq_refused h
    exact .inr ⟨cause, normalize_of_validate hcause config⟩

theorem faultless_chartRules (g : Grammar) : Faultless g.chartRules := by
  by_cases h : g.WellFormed
  · obtain ⟨hnormal, -⟩ | ⟨-, cause, hcheck⟩ := h.namesOddRule.checkNormalForm_cases
    · exact .inl ⟨_, chartRules_eq_ok_iff.2 ⟨h, hnormal, rfl⟩⟩
    · refine .inr ⟨cause, ?_⟩
      rw [chartRules, validate_eq_ok_iff.2 h, hcheck]
      rfl
  · obtain ⟨cause, hcause⟩ := exists_validate_eq_refused h
    exact .inr ⟨cause, chartRules_of_validate hcause⟩

/-! ### Step by step -/

/-- Each step to a normal form, with an allocator for the grammar, leads to a grammar that passes
the check, and each question about the grammar has an answer. -/
structure Operates (g : Grammar) (config : NormalFormNames) : Prop where
  newStart : (g.withNewStart (.ofGrammar g) config).1.validate = .ok ()
  isolatedTerminals : ∃ r names, g.withIsolatedTerminals (.ofGrammar g) config = .ok (r, names) ∧
    r.validate = .ok ()
  binaryBodies : ∃ r names, g.withBinaryBodies (.ofGrammar g) config = .ok (r, names) ∧
    r.validate = .ok ()
  epsilon : ∃ r, g.withoutEpsilon = .ok r ∧ r.validate = .ok ()
  units : ∃ r, g.withoutUnits = .ok r ∧ r.validate = .ok ()
  useless : ∃ r, g.withoutUseless = .ok r ∧ r.validate = .ok ()
  generating : ∃ flags, g.generating = .ok flags
  nullable : ∃ flags, g.nullable = .ok flags
  reachable : ∃ flags, g.reachable = .ok flags
  unitClosures : ∃ closures, g.unitClosures = .ok closures
  checkNormalForm : Faultless g.checkNormalForm
  productions : ∃ productions, g.productions = .ok productions
  text : ∃ text, g.text = .ok text

/-- **A well-formed grammar can be used step by step.** -/
theorem WellFormed.operates (h : g.WellFormed) (config : NormalFormNames) : g.Operates config := by
  have hcovers := FreshNames.covers_ofGrammar g
  obtain ⟨standIns, names, hstandIns, hisolated, -⟩ := exists_withStandIns h hcovers config
  obtain ⟨ends, names', hends, hbinary, -⟩ := exists_withSharedEnds h hcovers config
  obtain ⟨epsilonFree, hepsilonFree, hdropsEpsilon⟩ := exists_withoutEpsilon h
  obtain ⟨unitFree, hunitFree, hdropsUnits⟩ := exists_withoutUnits h
  obtain ⟨useful, huseful⟩ := exists_usefulFlags h
  obtain ⟨generating, hgenerating, -⟩ := exists_generating h
  obtain ⟨nullable, hnullable, -⟩ := exists_nullable h
  obtain ⟨reachable, hreachable, -⟩ := exists_reachable h
  obtain ⟨closure, hclosures, -⟩ := exists_unitClosures h
  exact {
    newStart := validate_eq_ok_iff.2 (wellFormed_withNewStart h hcovers)
    isolatedTerminals := ⟨_, names, hstandIns, validate_eq_ok_iff.2 hisolated⟩
    binaryBodies := ⟨_, names', hends, validate_eq_ok_iff.2 hbinary⟩
    epsilon := ⟨_, hepsilonFree, validate_eq_ok_iff.2 (hdropsEpsilon.wellFormed h)⟩
    units := ⟨_, hunitFree, validate_eq_ok_iff.2 (hdropsUnits.wellFormed h)⟩
    useless := ⟨_, huseful, validate_eq_ok_iff.2 (useful.dropsUseless_result h).wellFormed⟩
    generating := ⟨_, hgenerating⟩
    nullable := ⟨_, hnullable⟩
    reachable := ⟨_, hreachable⟩
    unitClosures := ⟨_, hclosures⟩
    checkNormalForm := h.faultless_checkNormalForm
    productions := h.exists_productions
    text := h.exists_text }

theorem eq_forestOf_of_forest? {tokens : List String} {c : Chart} {f : Forest}
    (h : g.forest? tokens c = .ok (some f)) :
    g.acceptsChart c = .ok true ∧ f = g.forestOf tokens c := by
  obtain ⟨accepted, haccepted, h⟩ := bind_eq_ok_iff.1 h
  cases accepted with
  | true => exact ⟨haccepted, (Option.some.inj (Except.ok.inj h)).symm⟩
  | false => exact nomatch h

end Grammar

/-- The first tree of the forest can be built, all of them can be listed, and they can be counted.
No split lies outside its span. -/
structure Forest.Unfolds (f : Forest) : Prop where
  trees : ∃ tree rest, f.tree = .ok tree ∧ f.trees = .ok (tree :: rest) ∧
    f.count = min (rest.length + 1) Forest.countLimit
  split : ∀ i j v split rule left right,
    .binary split rule left right ∈ f.chart.derivations i j v → i ≤ split ∧ split < j

namespace KeptGrammar

variable {k : KeptGrammar} {tokens : List String}

/-! ### Charts -/

/-- **What is read from charts is safe** if it is safe to read it from a filled one. -/
theorem faultless_onChart {α : Type} {read : Grammar → Chart → Except Failure α}
    (hcurrent : k.TerminalsCurrent)
    (hread : ∀ c, k.grammar.WellFormed → k.grammar.InNormalForm →
      k.usedIndex.Locates k.grammar.terminals → k.grammar.sortedRules.Fills k.usedIndex tokens c →
      Faultless (read k.grammar c)) : Faultless (onChart tokens read k).1 := by
  obtain ⟨rules, hrules⟩ | ⟨cause, hcause⟩ := k.grammar.faultless_chartRules
  · obtain ⟨hvalid, hnormal, -⟩ := Grammar.chartRules_eq_ok_iff.1 hrules
    obtain ⟨c, hfills, hchart⟩ := exists_onChart hrules hcurrent tokens
    rw [hchart]
    exact hread c hvalid hnormal (hcurrent.locates hvalid.nodup_terminals) hfills
  · exact .inr ⟨cause, fst_onChart_of_chartRules hcause tokens read⟩

theorem faultless_recognize (hcurrent : k.TerminalsCurrent) :
    Faultless (recognize tokens k).1 := by
  refine faultless_onChart hcurrent fun c hvalid hnormal hlocates hfills => ?_
  obtain ⟨flag, hflag, -⟩ := Grammar.exists_acceptsChart hvalid hnormal hlocates hfills
  exact .inl ⟨flag, hflag⟩

theorem faultless_parse (hcurrent : k.TerminalsCurrent) : Faultless (parse tokens k).1 := by
  refine faultless_onChart hcurrent fun c hvalid hnormal hlocates hfills => ?_
  obtain ⟨forest, hforest, -⟩ := Grammar.exists_forest? hvalid hnormal hlocates hfills
  exact .inl ⟨forest, hforest⟩

/-- **What is read from a forest is safe.** -/
theorem unfolds_of_parse (hcurrent : k.TerminalsCurrent) {f : Forest}
    (h : (parse tokens k).1 = .ok (some f)) : f.Unfolds := by
  obtain ⟨rules, hrules⟩ | ⟨cause, hcause⟩ := k.grammar.faultless_chartRules
  · obtain ⟨hvalid, hnormal, -⟩ := Grammar.chartRules_eq_ok_iff.1 hrules
    have hlocates := hcurrent.locates hvalid.nodup_terminals
    obtain ⟨c, hfills, hchart⟩ := exists_onChart hrules hcurrent tokens
    rw [parse, hchart] at h
    obtain ⟨haccepted, rfl⟩ := Grammar.eq_forestOf_of_forest? h
    obtain ⟨tree, rest, htree, htrees⟩ :=
      Grammar.exists_tree hvalid hnormal hlocates hfills haccepted
    exact {
      trees := ⟨tree, rest, htree, htrees, Forest.count_eq htrees⟩
      split := fun _ _ _ _ _ _ _ hmem => Grammar.split_of_mem_derivations hlocates hfills hmem }
  · rw [parse, fst_onChart_of_chartRules hcause] at h
    cases h

/-! ### Any grammar -/

/-- **The check is enough for safety.** A grammar put together from any parts, which keeps nothing,
is normalized, asked for sentences and parsed without a fault, whatever the names and the tokens,
and a forest that comes of it unfolds. The places at which charts are read and written exist. If the
grammar passes the check, then every step and every question succeeds by itself. -/
theorem validate_suffices (g : Grammar) :
    (∀ config, Faultless (g.normalize config)) ∧
    (∀ tokens, Faultless (recognize tokens { grammar := g }).1 ∧
      Faultless (parse tokens { grammar := g }).1 ∧
      ∀ f, (parse tokens { grammar := g }).1 = .ok (some f) → f.Unfolds) ∧
    (∀ (c : Chart) i j v slot, c.slot? i j v = some slot → slot < c.cells.size) ∧
    (g.validate = .ok () → ∀ config, g.Operates config) := by
  have hcurrent : TerminalsCurrent { grammar := g } := fun _ hindex => nomatch hindex
  refine ⟨g.faultless_normalize, fun tokens => ⟨?_, ?_, ?_⟩, fun _ _ _ _ _ => Chart.slot?_lt_size,
    fun hvalid config => ?_⟩
  · exact faultless_recognize hcurrent
  · exact faultless_parse hcurrent
  · exact fun f hf => unfolds_of_parse hcurrent hf
  · exact (Grammar.validate_eq_ok_iff.1 hvalid).operates config

theorem validate_suffices_sequences :
    sequences.validate = .ok () ∧ sequences.Operates { start := "S", binaryStem := "T" } ∧
    ∃ f, (parse ["a", "a", "a"] { grammar := sequences }).1 = .ok (some f) ∧ f.Unfolds := by
  have hvalid : sequences.validate = .ok () := by decide
  obtain ⟨-, htokens, -, hoperates⟩ := validate_suffices sequences
  have hsome : (parse ["a", "a", "a"] { grammar := sequences }).1.toOption.join.isSome = true := by
    decide +kernel
  cases hparse : (parse ["a", "a", "a"] { grammar := sequences }).1 with
  | error e =>
    rw [hparse] at hsome
    exact nomatch hsome
  | ok forest =>
    rw [hparse] at hsome
    obtain ⟨f, rfl⟩ := Option.isSome_iff_exists.1 hsome
    exact ⟨hvalid, hoperates hvalid _, f, rfl, (htokens _).2.2 f hparse⟩

end KeptGrammar

end ChomskyChart
