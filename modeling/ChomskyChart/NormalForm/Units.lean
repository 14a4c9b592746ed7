import ChomskyChart.Grammar.Search

/-!
# No unit rules

In this step a nonterminal takes over the bodies of all nonterminals that it reaches through unit
rules, in the order in which it reaches them, and the unit rules go.

## Main definitions

* `Grammar.withoutUnits`: the step
-/

namespace ChomskyChart

namespace Grammar

/-- The grammar without bodies that are a single nonterminal. -/
def withoutUnits (g : Grammar) : Except Failure Grammar := do
  let closures ← g.unitClosures
  let rows ← closures.mapM fun closure => do
    let members ← closure.mapM (lookUp g.rows)
    return (members.flatten.filter fun body => !isUnitBody body).eraseDups
  return { g with rows }

end Grammar

end ChomskyChart
