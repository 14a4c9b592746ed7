import ChomskyChart.Proofs.Forest.Count
import ChomskyChart.Proofs.Forest.FirstTree
import ChomskyChart.Proofs.Forest.Number
import ChomskyChart.Proofs.Kept.Membership
import ChomskyChart.Proofs.NormalForm.Ambiguity

/-!
# Forests are the derivation trees

The forest of a sentence is read from the chart that answers whether the sentence is accepted. So as
long as the kept positions are up to date there is a forest exactly for the accepted sentences, and
its trees are the derivation trees of the sentence. Counting them agrees with listing them, for the
empty sentence and for tables that repeat a body, too.

For a grammar without empty bodies and without units, that is also how many derivation trees the
sentence had before the grammar was normalized.

## Main results

* `exists_parse`: the forest of a sentence, its trees and their number
* `parse_correct`: the trees of an accepted sentence
* `count_eq_length_trees`: how many there are
* `normalize_preserves_ambiguity`: the number of trees in the normal form
-/

namespace ChomskyChart

namespace KeptGrammar

variable {k : KeptGrammar} {tokens : List String} {rules : ChartRules}

/-- **Parsing finds the derivation trees,** and there is no forest if there are none. -/
theorem exists_parse (hrules : k.grammar.chartRules = .ok rules) (hcurrent : k.TerminalsCurrent)
    (htokens : tokens ≠ []) :
    ∃ accepted f trees, (recognize tokens k).1 = .ok accepted ∧
      (parse tokens k).1 = .ok (if accepted then some f else none) ∧
      (accepted = true ↔ ∃ t, k.grammar.IsParseOf tokens t) ∧
      f.trees = .ok trees ∧ k.grammar.Lists (k.grammar.IsParseOf tokens) trees ∧
      f.count = min trees.length Forest.countLimit := by
  obtain ⟨hvalid, hnormal, -⟩ := Grammar.chartRules_eq_ok_iff.1 hrules
  have hlocates := hcurrent.locates hvalid.nodup_terminals
  obtain ⟨c, hfills, hread⟩ := exists_onChart hrules hcurrent tokens
  obtain ⟨accepted, haccepted, hlanguage⟩ :=
    Grammar.exists_acceptsChart hvalid hnormal hlocates hfills
  obtain ⟨trees, htrees, hlists⟩ :=
    Grammar.exists_trees hvalid hnormal hlocates hfills htokens
  refine ⟨accepted, _, trees, (hread _).trans haccepted, ?_, ?_, htrees, hlists,
    Forest.count_eq htrees⟩
  · rw [parse, hread, Grammar.forest?, haccepted]
    cases accepted <;> rfl
  · rw [hlanguage, Grammar.exists_isParseOf_iff hvalid hnormal htokens]

/-- **The parse forest is the set of derivation trees.** For a grammar in normal form that has no
body twice in a row, the trees of an accepted sentence are its derivation trees from the start
symbol, none is listed twice, and the leaves of each make up the sentence. -/
theorem parse_correct (hrules : k.grammar.chartRules = .ok rules) (hcurrent : k.TerminalsCurrent)
    (hrows : ∀ row ∈ k.grammar.rows, row.Nodup) (htokens : tokens ≠ [])
    (haccepted : (recognize tokens k).1 = .ok true) :
    ∃ f trees, (parse tokens k).1 = .ok (some f) ∧ f.trees = .ok trees ∧ trees.Nodup ∧
      (∀ t, t ∈ trees ↔ k.grammar.IsParseOf tokens t) ∧ ∀ t ∈ trees, t.leaves = tokens := by
  obtain ⟨accepted, f, trees, hflag, hparse, -, htrees, hlists, -⟩ :=
    exists_parse hrules hcurrent htokens
  obtain rfl : accepted = true := Except.ok.inj (hflag.symm.trans haccepted)
  exact ⟨f, trees, hparse, htrees, hlists.nodup hrows, hlists.mem_iff,
    fun t ht => ((hlists.mem_iff t).1 ht).leaves_eq⟩

theorem parse_correct_sequences :
    sequences.chartRules = .ok sequences.sortedRules ∧
    (declared sequences).TerminalsCurrent ∧
    (∀ row ∈ sequences.rows, row.Nodup) ∧
    (recognize ["a", "a", "a"] (declared sequences)).1 = .ok true ∧
    ∃ f trees, (parse ["a", "a", "a"] (declared sequences)).1 = .ok (some f) ∧
      f.trees = .ok trees ∧ trees.Nodup ∧
      (∀ t, t ∈ trees ↔ sequences.IsParseOf ["a", "a", "a"] t) ∧
      ∀ t ∈ trees, t.leaves = ["a", "a", "a"] := by
  have hrules : sequences.chartRules = .ok sequences.sortedRules := by decide
  have hrows : ∀ row ∈ sequences.rows, row.Nodup := by decide
  have haccepted : (recognize ["a", "a", "a"] (declared sequences)).1 = .ok true := by
    decide +kernel
  have hcurrent := terminalsCurrent_declared sequences
  exact ⟨hrules, hcurrent, hrows, haccepted, parse_correct (k := declared sequences) hrules hcurrent
    hrows (List.cons_ne_nil _ _) haccepted⟩

/-! ### Counting -/

/-- **The trees of an accepted sentence are counted without being listed.** The count is the number
of trees in the list, or the largest count if there are more, and there is at least one. A body that
is repeated in a row counts as often as it is listed, and the empty sentence has one tree. -/
theorem count_eq_length_trees (hrules : k.grammar.chartRules = .ok rules)
    (hcurrent : k.TerminalsCurrent) (haccepted : (recognize tokens k).1 = .ok true) :
    ∃ f trees, (parse tokens k).1 = .ok (some f) ∧ f.trees = .ok trees ∧
      f.count = min trees.length (2 ^ 128 - 1) ∧ 1 ≤ f.count := by
  obtain ⟨hvalid, hnormal, -⟩ := Grammar.chartRules_eq_ok_iff.1 hrules
  have hlocates := hcurrent.locates hvalid.nodup_terminals
  obtain ⟨c, hfills, hread⟩ := exists_onChart hrules hcurrent tokens
  rw [recognize, hread] at haccepted
  obtain ⟨t, rest, -, htrees⟩ := Grammar.exists_tree hvalid hnormal hlocates hfills haccepted
  have hcount := Forest.count_eq htrees
  refine ⟨k.grammar.forestOf tokens c, t :: rest, ?_, htrees, hcount, ?_⟩
  · rw [parse, hread, Grammar.forest?, haccepted]
    rfl
  · rw [hcount]
    exact Nat.le_min.2 ⟨Nat.succ_le_succ (Nat.zero_le rest.length), Forest.countLimit_pos⟩

/-- Sequences of a letter, the empty one included, with the rule to the letter given twice. -/
def doubled : Grammar where
  nonterminals := ["S"]
  terminals := ["a"]
  start := 0
  rows := [[[.terminal 0], [.nonterminal 0, .nonterminal 0], [.terminal 0]]]
  acceptsEmpty := true

theorem count_eq_length_trees_doubled :
    doubled.chartRules = .ok doubled.sortedRules ∧ (declared doubled).TerminalsCurrent ∧
    (recognize [] (declared doubled)).1 = .ok true ∧
    (recognize ["a", "a", "a"] (declared doubled)).1 = .ok true ∧
    (∃ f trees, (parse [] (declared doubled)).1 = .ok (some f) ∧ f.trees = .ok trees ∧
      f.count = min trees.length (2 ^ 128 - 1) ∧ 1 ≤ f.count) ∧
    ∃ f trees, (parse ["a", "a", "a"] (declared doubled)).1 = .ok (some f) ∧ f.trees = .ok trees ∧
      f.count = min trees.length (2 ^ 128 - 1) ∧ 1 ≤ f.count := by
  have hrules : doubled.chartRules = .ok doubled.sortedRules := by decide
  have hcurrent := terminalsCurrent_declared doubled
  have hempty : (recognize [] (declared doubled)).1 = .ok true := by decide +kernel
  have hletters : (recognize ["a", "a", "a"] (declared doubled)).1 = .ok true := by decide +kernel
  exact ⟨hrules, hcurrent, hempty, hletters,
    count_eq_length_trees (k := declared doubled) hrules hcurrent hempty,
    count_eq_length_trees (k := declared doubled) hrules hcurrent hletters⟩

/-! ### Forests of the normal form -/

/-- A list without repetitions has as many entries as the set of them. -/
theorem encard_setOf_mem {α : Type} [DecidableEq α] {xs : List α} (h : xs.Nodup) :
    { x | x ∈ xs }.encard = xs.length := by
  rw [← List.toFinset_card_of_nodup h, ← Set.encard_coe_eq_coe_finsetCard, List.coe_toFinset]

/-- **Normalizing preserves ambiguity.** If no body is empty and none is a single nonterminal, then
the normal form gives a word as many parse trees as the word had derivation trees, and no forest if
it had none. Bodies that are repeated in a row make no difference. -/
theorem normalize_preserves_ambiguity {g : Grammar} (h : g.validate = .ok ()) (hproper : g.Proper)
    (config : NormalFormNames) :
    ∃ n, g.normalize config = .ok n ∧ ∀ word, word ≠ [] → ∃ k : ℕ,
      (g.derivationTrees g.start word).encard = k ∧
      ∃ forest, (parse word { grammar := n }).1 = .ok forest ∧ (k = 0 → forest = none) ∧
        (k ≠ 0 → ∃ f trees, forest = some f ∧ f.trees = .ok trees ∧ trees.length = k ∧
          f.count = min k (2 ^ 128 - 1)) := by
  obtain ⟨s, hs⟩ := Grammar.exists_stages (Grammar.validate_eq_ok_iff.1 h) config
  refine ⟨s.normal, hs, fun word hword => ?_⟩
  have hrules := Grammar.chartRules_eq_ok_iff.2 ⟨s.wellFormed_normal, s.inNormalForm_normal, rfl⟩
  obtain ⟨accepted, f, trees, -, hparse, haccepted, htrees, hlists, hcount⟩ :=
    exists_parse (k := { grammar := s.normal }) hrules (fun _ hindex => nomatch hindex) hword
  have hnumber : (g.derivationTrees g.start word).encard = trees.length := by
    have hset : { t | t ∈ trees } = { t | s.normal.IsParseOf word t } :=
      Set.ext hlists.mem_iff
    rw [← encard_setOf_mem (hlists.nodup s.nodup_of_mem_rows_normal), hset,
      Grammar.encard_isParseOf s.wellFormed_normal s.inNormalForm_normal hword,
      s.treeCount_normal hproper]
    rfl
  have hsome : accepted = true ↔ trees.length ≠ 0 := by
    rw [haccepted, Ne, List.length_eq_zero_iff, List.eq_nil_iff_forall_not_mem, not_forall_not]
    exact exists_congr fun t => (hlists.mem_iff t).symm
  refine ⟨trees.length, hnumber, _, hparse, fun hzero => ?_, fun hne => ?_⟩
  · exact if_neg fun haccepted => hsome.1 haccepted hzero
  · exact ⟨f, trees, if_pos (hsome.2 hne), htrees, rfl, hcount⟩

/-- Sums of a letter, with no brackets to tell which is meant. -/
def sums : Grammar where
  nonterminals := ["S", "T"]
  terminals := ["a", "+"]
  start := 0
  rows := [[[.nonterminal 0, .terminal 1, .nonterminal 0], [.terminal 0]],
    [[.nonterminal 0, .nonterminal 1]]]

theorem normalize_preserves_ambiguity_sums :
    sums.validate = .ok () ∧ sums.Proper ∧
    ∃ n, sums.normalize {} = .ok n ∧ ∃ k : ℕ,
      (sums.derivationTrees 0 ["a", "+", "a", "+", "a"]).encard = k ∧
      ∃ forest, (parse ["a", "+", "a", "+", "a"] { grammar := n }).1 = .ok forest ∧
        (k = 0 → forest = none) ∧
        (k ≠ 0 → ∃ f trees, forest = some f ∧ f.trees = .ok trees ∧ trees.length = k ∧
          f.count = min k (2 ^ 128 - 1)) := by
  have hvalid : sums.validate = .ok () := by decide
  have hproper : sums.Proper := by decide
  obtain ⟨n, hn, hwords⟩ := normalize_preserves_ambiguity hvalid hproper {}
  exact ⟨hvalid, hproper, n, hn, hwords _ (List.cons_ne_nil _ _)⟩

end KeptGrammar

end ChomskyChart
