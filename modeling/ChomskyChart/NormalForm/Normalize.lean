import ChomskyChart.Grammar.Validate
import ChomskyChart.NormalForm.Terminals
import ChomskyChart.NormalForm.Binary
import ChomskyChart.NormalForm.Epsilon
import ChomskyChart.NormalForm.Units
import ChomskyChart.NormalForm.Useless

/-!
# Chomsky normal form

A well-formed grammar is brought to normal form in six steps: a new start symbol, stand-ins for the
terminals of long bodies, bodies of at most two symbols, no empty bodies, no unit rules, no useless
nonterminals. The empty bodies have to go before the unit rules, because leaving out nullable
symbols makes new unit rules, and bodies are cut to two symbols before that, so that a body has at
most four variants.

## Main definitions

* `Grammar.normalize`: the normal form, with given names for what is added
-/

namespace ChomskyChart

namespace Grammar

/-- The grammar in Chomsky normal form. A grammar whose parts do not fit together is refused. -/
def normalize (g : Grammar) (config : NormalFormNames) : Except Failure Grammar := do
  g.validate
  let (g, names) := g.withNewStart (FreshNames.ofGrammar g) config
  let (g, names) ← g.withIsolatedTerminals names config
  let (g, _) ← g.withBinaryBodies names config
  let g ← g.withoutEpsilon
  let g ← g.withoutUnits
  g.withoutUseless

end Grammar

end ChomskyChart
