import ChomskyChart.Proofs.Kept.Membership

/-!
# Membership for unchecked grammars

A grammar that is put together from parts may not be well-formed. Asked for a sentence it is to
answer no, and the way to that answer is a refusal: filling charts and normalizing both begin with
the check for well-formedness.

But the question for the normal form comes before either. It is answered from the rules alone, and
if one of them has another shape, that one is written down first. So there is an answer as long as
this rule has names; if it has not, the question ends in a fault, where a check would have ended it
in a no.

## Main results

* `chartRules_of_validate`, `normalize_of_validate`: no chart and no normal form without the check
* `exists_accepts`: the answer to every sentence
* `accepts_unchecked`: with an answer or without
-/

namespace ChomskyChart

namespace Grammar

variable {g : Grammar} {cause : Failure}

theorem chartRules_of_validate (h : g.validate = .error cause) : g.chartRules = .error cause := by
  rw [chartRules, h]
  rfl

theorem normalize_of_validate (h : g.validate = .error cause) (config : NormalFormNames) :
    g.normalize config = .error cause := by
  rw [normalize, h]
  rfl

end Grammar

namespace KeptGrammar

variable {k : KeptGrammar} {cause : Failure}

/-- **Without rules there is no chart.** -/
theorem fst_onChart_of_chartRules (h : k.grammar.chartRules = .error cause) {α : Type}
    (tokens : List String) (read : Grammar → Chart → Except Failure α) :
    (onChart tokens read k).1 = .error cause := by
  rw [onChart, Query.bind_apply, Query.ofGrammar_apply, h]

/-- Which way a sentence goes, once it is known whether the grammar is in normal form. -/
theorem fst_accepts {normal : Bool} (h : k.grammar.isNormalForm = .ok normal)
    (tokens : List String) :
    (accepts tokens k).1 = falseIfRefused
      (if normal then (recognize tokens k).1 else k.grammar.recognizeNormalized tokens) := by
  rw [accepts, Query.bind_apply, Query.ofGrammar_apply, h]
  cases normal <;> rfl

/-- **A grammar answers** if the question for the normal form is answered and its positions are up
to date. It answers for its language if it is well-formed, and no to everything if it is not. -/
theorem exists_accepts (hnames : k.grammar.NamesOddRule) (hcurrent : k.TerminalsCurrent)
    (tokens : List String) :
    ∃ flag, (accepts tokens k).1 = .ok flag ∧
      (flag = true ↔ k.grammar.validate = .ok () ∧ k.grammar.InLanguage tokens) := by
  obtain ⟨normal, hcheck, hnormal⟩ := hnames.exists_isNormalForm
  rw [fst_accepts hcheck, Grammar.validate_eq_ok_iff]
  by_cases hvalid : k.grammar.WellFormed
  · rw [and_iff_right hvalid]
    cases normal with
    | true =>
      obtain ⟨flag, hrecognize, hlanguage⟩ := exists_recognize
        (Grammar.chartRules_eq_ok_iff.2 ⟨hvalid, hnormal.1 rfl, rfl⟩) hcurrent tokens
      exact ⟨flag, by rw [if_pos rfl, hrecognize]; rfl, hlanguage⟩
    | false =>
      obtain ⟨-, flag, hrecognize, hlanguage⟩ := exists_recognizeNormalized hvalid tokens
      exact ⟨flag, by rw [if_neg Bool.false_ne_true, hrecognize]; rfl, hlanguage⟩
  · obtain ⟨cause, hcause⟩ := Grammar.exists_validate_eq_refused hvalid
    refine ⟨false, ?_, iff_of_false Bool.false_ne_true fun h => hvalid h.1⟩
    cases normal with
    | true =>
      rw [if_pos rfl, recognize,
        fst_onChart_of_chartRules (Grammar.chartRules_of_validate hcause)]
      rfl
    | false =>
      rw [if_neg Bool.false_ne_true, Grammar.recognizeNormalized,
        Grammar.normalize_of_validate hcause]
      rfl

/-- **Whether a grammar put together from any parts answers** depends on its first rule of another
shape than a normal form has. If there is none, or if it has names, then every sentence is answered,
and with no if the grammar is not well-formed. If it lacks a name, then the grammar is not
well-formed, and every sentence ends in a fault. -/
theorem accepts_unchecked (g : Grammar) (tokens : List String) :
    (g.NamesOddRule → ∃ flag, (accepts tokens { grammar := g }).1 = .ok flag ∧
      (flag = true ↔ g.validate = .ok () ∧ g.InLanguage tokens)) ∧
    (¬g.NamesOddRule → g.validate ≠ .ok () ∧
      (accepts tokens { grammar := g }).1 = .error (.fault .outOfRange)) := by
  refine ⟨fun hnames => ?_, fun hnames => ⟨fun hvalid => ?_, ?_⟩⟩
  · exact exists_accepts (k := { grammar := g }) hnames (fun _ hindex => nomatch hindex) tokens
  · exact hnames (Grammar.validate_eq_ok_iff.1 hvalid).namesOddRule
  · rw [accepts, Query.bind_apply, Query.ofGrammar_apply, Grammar.isNormalForm_eq_fault hnames]

/-- A pair of terminals where there is only one terminal: `S → t₁ t₁`. -/
def strayPair : Grammar where
  nonterminals := ["S"]
  terminals := ["a"]
  start := 0
  rows := [[[.terminal 1, .terminal 1]]]

/-- Two nonterminals of one name, a row too few, and positions that do not exist in a pair and for
the start symbol. -/
def twofold : Grammar where
  nonterminals := ["S", "S"]
  terminals := ["a"]
  start := 5
  rows := [[[.terminal 0], [.nonterminal 7, .nonterminal 0], [.nonterminal 1]]]

theorem accepts_unchecked_twofold :
    (twofold.NamesOddRule ∧ ∃ flag, (accepts ["a"] { grammar := twofold }).1 = .ok flag ∧
      (flag = true ↔ twofold.validate = .ok () ∧ twofold.InLanguage ["a"])) ∧
    ¬strayPair.NamesOddRule ∧ strayPair.validate ≠ .ok () ∧
      (accepts ["a"] { grammar := strayPair }).1 = .error (.fault .outOfRange) := by
  have hnames : twofold.NamesOddRule := by decide
  have hstray : ¬strayPair.NamesOddRule := by decide
  exact ⟨⟨hnames, (accepts_unchecked twofold ["a"]).1 hnames⟩,
    hstray, (accepts_unchecked strayPair ["a"]).2 hstray⟩

/-- **Not every grammar answers.** -/
theorem not_forall_exists_accepts :
    ¬∀ (g : Grammar) (tokens : List String), ∃ flag,
      (accepts tokens { grammar := g }).1 = .ok flag ∧ (g.validate ≠ .ok () → flag = false) := by
  intro hall
  obtain ⟨flag, hflag, -⟩ := hall strayPair ["a"]
  have hfault : (accepts ["a"] { grammar := strayPair }).1 = .error (.fault .outOfRange) := by
    decide
  exact nomatch hflag.symm.trans hfault

end KeptGrammar

end ChomskyChart
