import ChomskyChart.Chart.Recognition
import ChomskyChart.Chart.Report
import ChomskyChart.Forest.Report
import ChomskyChart.Kept.Basic

/-!
# Membership for kept grammars

Charts are filled with the kept positions of the terminals. So a sentence is read in the names that
the terminals had when these positions were kept, while the rules are those of the grammar as it is.
An edit that adds, drops or renames a terminal may therefore go unnoticed; a position that no longer
exists is a fault.

The rules are prepared before any position is asked for, and a grammar that is refused then keeps
nothing new.

## Main definitions

* `KeptGrammar.onChart`, `KeptGrammar.onCharts`: questions that are answered from charts
* `KeptGrammar.recognize`, `KeptGrammar.parse`, `KeptGrammar.accepts`: membership and forests
* `KeptGrammar.parseReport`, `KeptGrammar.chartReport`: what there is to see of both
-/

namespace ChomskyChart

namespace KeptGrammar

/-- What `read` finds in the chart of a sentence. -/
def onChart {α : Type} (tokens : List String) (read : Grammar → Chart → Except Failure α) :
    Query α := do
  let rules ← .ofGrammar Grammar.chartRules
  let terminals ← terminalPositions
  .ofGrammar fun g => do read g (← rules.chart terminals tokens)

/-- What `read` finds in the charts of several sentences. The rules are prepared even if there is no
sentence. -/
def onCharts {α : Type} (sentences : List (List String))
    (read : List String → Grammar → Chart → Except Failure α) : Query (List α) := do
  let rules ← .ofGrammar Grammar.chartRules
  sentences.mapM fun tokens => do
    let terminals ← terminalPositions
    .ofGrammar fun g => do read tokens g (← rules.chart terminals tokens)

/-! ### Membership -/

/-- Whether the grammar, which has to be in normal form, derives the sentence. -/
def recognize (tokens : List String) : Query Bool :=
  onChart tokens Grammar.acceptsChart

/-- For each sentence, whether the grammar derives it. -/
def recognizeAll (sentences : List (List String)) : Query (List Bool) :=
  onCharts sentences fun _ => Grammar.acceptsChart

/-- Whether the grammar derives the sentence. A grammar that is in normal form answers from its own
chart. For any other its normal form answers, which keeps nothing. -/
def accepts (tokens : List String) : Query Bool := do
  if ← .ofGrammar Grammar.isNormalForm then (recognize tokens).mapOutcome falseIfRefused
  else .ofGrammar fun g => falseIfRefused (g.recognizeNormalized tokens)

/-- For each sentence, whether the grammar derives it. -/
def acceptsAll (sentences : List (List String)) : Query (List Bool) :=
  sentences.mapM accepts

/-! ### Forests -/

/-- The parse forest of a sentence, if the grammar derives it. -/
def parse (tokens : List String) : Query (Option Forest) :=
  onChart tokens fun g => g.forest? tokens

/-- The number of parse trees of a sentence, if the grammar derives it. -/
def count (tokens : List String) : Query (Option Nat) := do
  return (← parse tokens).map Forest.count

/-- For each sentence that the grammar derives, the number of its parse trees. -/
def countAll (sentences : List (List String)) : Query (List (Option Nat)) :=
  onCharts sentences fun tokens g chart =>
    return (← g.forest? tokens chart).map Forest.count

/-! ### Reports -/

/-- The report on the parse forest of a sentence, if the grammar derives it. -/
def parseReport (tokens : List String) (limit : Nat) : Query (Option ParseReport) :=
  onChart tokens fun g chart => do
    match ← g.forest? tokens chart with
    | some forest => return some (← forest.report limit)
    | none => return none

/-- The report on the chart of a sentence. The text of the chart has the given names, or those of
the grammar if none are given. -/
def chartReport (tokens : List String) (textNames : Option (List String))
    (probes : List ChartProbe) : Query ChartReport :=
  onChart tokens fun g chart =>
    chart.report g.nonterminals (textNames.getD g.nonterminals) probes

end KeptGrammar

end ChomskyChart
