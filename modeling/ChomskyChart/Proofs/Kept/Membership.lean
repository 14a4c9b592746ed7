import ChomskyChart.Kept.Recognition
import ChomskyChart.Proofs.Chart.Correctness
import ChomskyChart.Proofs.NormalForm.Normalize

/-!
# Membership is decided

A kept grammar reads sentences in the positions that it keeps for its terminals. As long as these
are the positions that the terminals have, its charts are right, and so are the answers that are
read from them. For a grammar that is not in normal form the normal form answers; that is
well-formed and in normal form itself, so it is not refused.

## Main definitions

* `KeptGrammar.TerminalsCurrent`: the positions that are kept are up to date

## Main results

* `exists_onChart`: the chart from which a kept grammar answers
* `chart_correct`: charts, recognition and parsing for grammars in normal form
* `accepts_correct`: membership for all well-formed grammars
-/

namespace ChomskyChart

namespace KeptGrammar

variable {k : KeptGrammar} {tokens : List String}

/-- No positions of terminals are kept, or they are those of the grammar as it is. -/
def TerminalsCurrent (k : KeptGrammar) : Prop :=
  ∀ index, k.terminalIndex = some index →
    ∀ name, index.find? name = (NameIndex.ofNames k.grammar.terminals).find? name

/-- The positions from which charts are filled. -/
def usedIndex (k : KeptGrammar) : NameIndex :=
  k.terminalIndex.getD (.ofNames k.grammar.terminals)

theorem TerminalsCurrent.find?_usedIndex (h : k.TerminalsCurrent) (name : String) :
    k.usedIndex.find? name = (NameIndex.ofNames k.grammar.terminals).find? name := by
  rw [usedIndex]
  cases hindex : k.terminalIndex with
  | none => rfl
  | some index => exact h index hindex name

theorem TerminalsCurrent.locates (h : k.TerminalsCurrent) (hnodup : k.grammar.terminals.Nodup) :
    k.usedIndex.Locates k.grammar.terminals := by
  intro name i
  rw [h.find?_usedIndex, NameIndex.locates_ofNames hnodup name i]

/-! ### Charts of kept grammars -/

theorem fst_onChart {α : Type} {read : Grammar → Chart → Except Failure α} {rules : ChartRules}
    (hrules : k.grammar.chartRules = .ok rules) :
    (onChart tokens read k).1 = (do read k.grammar (← rules.chart k.usedIndex tokens)) := by
  rw [onChart, Query.bind_apply, Query.ofGrammar_apply, hrules]
  simp only [Query.bind_apply]
  cases hindex : k.terminalIndex with
  | none =>
    rw [terminalPositions_of_unknown hindex, usedIndex, hindex]
    rfl
  | some index =>
    rw [terminalPositions_of_known hindex, usedIndex, hindex]
    rfl

/-- A kept grammar that is in normal form answers from a chart that is filled. -/
theorem exists_onChart {rules : ChartRules} (hrules : k.grammar.chartRules = .ok rules)
    (hcurrent : k.TerminalsCurrent) (tokens : List String) :
    ∃ c, k.grammar.sortedRules.Fills k.usedIndex tokens c ∧
      ∀ {α : Type} (read : Grammar → Chart → Except Failure α),
        (onChart tokens read k).1 = read k.grammar c := by
  obtain ⟨hvalid, -, rfl⟩ := Grammar.chartRules_eq_ok_iff.1 hrules
  obtain ⟨c, hc, hfills⟩ :=
    Grammar.exists_filledChart (hcurrent.locates hvalid.nodup_terminals) tokens
  refine ⟨c, hfills, fun read => ?_⟩
  rw [fst_onChart hrules, hc]
  rfl

theorem exists_recognize {rules : ChartRules} (hrules : k.grammar.chartRules = .ok rules)
    (hcurrent : k.TerminalsCurrent) (tokens : List String) :
    ∃ flag, (recognize tokens k).1 = .ok flag ∧ (flag = true ↔ k.grammar.InLanguage tokens) := by
  obtain ⟨hvalid, hnormal, -⟩ := Grammar.chartRules_eq_ok_iff.1 hrules
  obtain ⟨c, hfills, hread⟩ := exists_onChart hrules hcurrent tokens
  rw [recognize, hread]
  exact Grammar.exists_acceptsChart hvalid hnormal (hcurrent.locates hvalid.nodup_terminals) hfills

/-- **Charts are correct.** For a grammar that is well-formed and in normal form, with positions
that are up to date, the chart of any sentence contains exactly the nonterminals that derive the
tokens of a span, and recognition and parsing answer for the language of the grammar. -/
theorem chart_correct {rules : ChartRules} (hrules : k.grammar.chartRules = .ok rules)
    (hcurrent : k.TerminalsCurrent) (tokens : List String) :
    (∃ c, (onChart tokens (fun _ c => .ok c) k).1 = .ok c ∧
      ∀ i j v, i ≤ j → j < tokens.length →
        (c.contains i j v = true ↔ k.grammar.Derives v ((tokens.drop i).take (j + 1 - i)))) ∧
    (∃ flag, (recognize tokens k).1 = .ok flag ∧
      (flag = true ↔ k.grammar.InLanguage tokens)) ∧
    ∃ forest, (parse tokens k).1 = .ok forest ∧
      (forest.isSome = true ↔ k.grammar.InLanguage tokens) := by
  obtain ⟨hvalid, hnormal, -⟩ := Grammar.chartRules_eq_ok_iff.1 hrules
  have hlocates := hcurrent.locates hvalid.nodup_terminals
  obtain ⟨c, hfills, hread⟩ := exists_onChart hrules hcurrent tokens
  refine ⟨⟨c, hread _, fun i j v hij hj => ?_⟩, exists_recognize hrules hcurrent tokens, ?_⟩
  · exact Grammar.contains_iff_derives hvalid hnormal hlocates hfills hij hj
  · rw [parse, hread]
    exact Grammar.exists_forest? hvalid hnormal hlocates hfills

theorem terminalsCurrent_declared (g : Grammar) : (declared g).TerminalsCurrent := by
  intro index hindex name
  obtain rfl := Option.some.inj hindex
  rfl

/-- Nonempty sequences, with the start symbol in a body and a nonterminal that is of no use. -/
def sequences : Grammar where
  nonterminals := ["S", "T"]
  terminals := ["a", "b"]
  start := 0
  rows := [[[.nonterminal 0, .nonterminal 0], [.terminal 0]], [[.terminal 1]]]
  acceptsEmpty := true

theorem chart_correct_sequences :
    sequences.chartRules = .ok sequences.sortedRules ∧
    (declared sequences).TerminalsCurrent ∧
    (∃ c, (onChart ["a", "b", "x"] (fun _ c => .ok c) (declared sequences)).1 = .ok c ∧
      ∀ i j v, i ≤ j → j < 3 →
        (c.contains i j v = true ↔
          sequences.Derives v ((["a", "b", "x"].drop i).take (j + 1 - i)))) ∧
    (∃ flag, (recognize ["a", "b", "x"] (declared sequences)).1 = .ok flag ∧
      (flag = true ↔ sequences.InLanguage ["a", "b", "x"])) ∧
    ∃ forest, (parse ["a", "b", "x"] (declared sequences)).1 = .ok forest ∧
      (forest.isSome = true ↔ sequences.InLanguage ["a", "b", "x"]) := by
  have hrules : sequences.chartRules = .ok sequences.sortedRules := by decide
  have hcurrent := terminalsCurrent_declared sequences
  exact ⟨hrules, hcurrent, chart_correct (k := declared sequences) hrules hcurrent ["a", "b", "x"]⟩

/-! ### Membership -/

/-- The normal form of a well-formed grammar is not refused, and it answers for the grammar. -/
theorem exists_recognizeNormalized {g : Grammar} (h : g.WellFormed) (tokens : List String) :
    (∃ n rules, g.normalize {} = .ok n ∧ n.chartRules = .ok rules) ∧
    ∃ flag, g.recognizeNormalized tokens = .ok flag ∧ (flag = true ↔ g.InLanguage tokens) := by
  obtain ⟨s, hs⟩ := Grammar.exists_stages h {}
  have hrules := Grammar.chartRules_eq_ok_iff.2 ⟨s.wellFormed_normal, s.inNormalForm_normal, rfl⟩
  refine ⟨⟨s.normal, _, hs, hrules⟩, ?_⟩
  have hlocates := NameIndex.locates_ofNames s.wellFormed_normal.nodup_terminals
  obtain ⟨c, hc, hfills⟩ := Grammar.exists_filledChart hlocates tokens
  rw [Grammar.recognizeNormalized, hs]
  show ∃ flag, s.normal.recognize tokens = .ok flag ∧ _
  rw [Grammar.recognize, Grammar.chart, hrules]
  simp only [bind, Except.bind, hc, ← s.inLanguage_normal_iff]
  exact Grammar.exists_acceptsChart s.wellFormed_normal s.inNormalForm_normal hlocates hfills

/-- **Membership is decided.** Every well-formed grammar whose positions are up to date answers for
its language, by its own chart or by its normal form, and on neither way is there a refusal that the
answer would hide. -/
theorem accepts_correct (h : k.grammar.validate = .ok ()) (hcurrent : k.TerminalsCurrent)
    (tokens : List String) :
    (∃ flag, (accepts tokens k).1 = .ok flag ∧ (flag = true ↔ k.grammar.InLanguage tokens)) ∧
    (k.grammar.isNormalForm = .ok true →
      ∃ flag, (recognize tokens k).1 = .ok flag ∧ (flag = true ↔ k.grammar.InLanguage tokens)) ∧
    (∃ n rules, k.grammar.normalize {} = .ok n ∧ n.chartRules = .ok rules) ∧
    ∃ flag, k.grammar.recognizeNormalized tokens = .ok flag ∧
      (flag = true ↔ k.grammar.InLanguage tokens) := by
  have hvalid := Grammar.validate_eq_ok_iff.1 h
  obtain ⟨normal, hcheck, hnormal⟩ := hvalid.isNormalForm_eq_ok
  obtain ⟨hnormalize, flag', hnormalized, hlanguage'⟩ := exists_recognizeNormalized hvalid tokens
  have hdirect : normal = true → ∃ flag, (recognize tokens k).1 = .ok flag ∧
      (flag = true ↔ k.grammar.InLanguage tokens) := fun hflag =>
    exists_recognize (Grammar.chartRules_eq_ok_iff.2 ⟨hvalid, hnormal.1 hflag, rfl⟩) hcurrent tokens
  refine ⟨?_, fun hflag => hdirect (Except.ok.inj (hcheck.symm.trans hflag)), hnormalize,
    flag', hnormalized, hlanguage'⟩
  rw [accepts, Query.bind_apply, Query.ofGrammar_apply, hcheck]
  cases normal with
  | true =>
    obtain ⟨flag, hrecognize, hlanguage⟩ := hdirect rfl
    refine ⟨flag, ?_, hlanguage⟩
    show falseIfRefused (recognize tokens k).1 = .ok flag
    rw [hrecognize]
    rfl
  | false =>
    refine ⟨flag', ?_, hlanguage'⟩
    show falseIfRefused (k.grammar.recognizeNormalized tokens) = .ok flag'
    rw [hnormalized]
    rfl

theorem accepts_correct_nestedBrackets :
    Grammar.nestedBrackets.validate = .ok () ∧
    (declared Grammar.nestedBrackets).TerminalsCurrent ∧
    ∃ flag, (accepts ["(", ")"] (declared Grammar.nestedBrackets)).1 = .ok flag ∧
      (flag = true ↔ Grammar.nestedBrackets.InLanguage ["(", ")"]) :=
  ⟨by decide, terminalsCurrent_declared _,
    (accepts_correct (k := declared Grammar.nestedBrackets) (by decide)
      (terminalsCurrent_declared _) ["(", ")"]).1⟩

end KeptGrammar

end ChomskyChart
