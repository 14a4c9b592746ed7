import ChomskyChart.Forest.Basic
import ChomskyChart.NormalForm.Normalize

/-!
# Membership

A grammar in normal form recognizes a sentence by its chart. Any other grammar is brought to normal
form first. A question that is refused on the way is answered with no.

## Main definitions

* `Grammar.recognize`, `Grammar.parse`: membership and parse forest for a grammar in normal form
* `Grammar.accepts`: membership for any grammar
-/

namespace ChomskyChart

namespace Grammar

/-- The chart of a sentence. -/
def chart (g : Grammar) (tokens : List String) : Except Failure Chart := do
  (← g.chartRules).chart (.ofNames g.terminals) tokens

/-- Whether a grammar in normal form derives the sentence. -/
def recognize (g : Grammar) (tokens : List String) : Except Failure Bool := do
  g.acceptsChart (← g.chart tokens)

/-- The parse forest of a sentence, if a grammar in normal form derives it. -/
def parse (g : Grammar) (tokens : List String) : Except Failure (Option Forest) := do
  g.forest? tokens (← g.chart tokens)

/-- Whether the normal form of the grammar derives the sentence. -/
def recognizeNormalized (g : Grammar) (tokens : List String) : Except Failure Bool := do
  (← g.normalize {}).recognize tokens

/-- Whether the grammar derives the sentence. A grammar that is not well-formed derives none. -/
def accepts (g : Grammar) (tokens : List String) : Except Failure Bool := do
  if ← g.isNormalForm then falseIfRefused (g.recognize tokens)
  else falseIfRefused (g.recognizeNormalized tokens)

end Grammar

end ChomskyChart
