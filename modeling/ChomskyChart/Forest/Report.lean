import ChomskyChart.Forest.Basic

/-!
# What a parse shows

A report on a forest has the first tree and the number of all trees. It lists the trees only if
there are not too many of them.

## Main definitions

* `ParseReport`, `Forest.report`: the report on a forest
-/

namespace ChomskyChart

/-- What there is to say about the parse trees of a sentence. -/
structure ParseReport where
  /-- The name of the start symbol. -/
  start : String
  tokens : List String
  /-- The number of tokens that the chart is for. -/
  chartSize : Nat
  /-- The number of trees, or `Forest.countLimit` if there are more. -/
  count : Nat
  /-- The first tree. -/
  tree : ParseTree
  /-- All trees, unless there are too many. -/
  trees : Option (List ParseTree)
deriving Repr

namespace Forest

/-- How many trees a report lists, unless it is asked for another number. -/
def defaultListing : Nat := 20

/-- The report on a forest, with all its trees if there are at most `limit`. -/
def report (f : Forest) (limit : Nat) : Except Failure ParseReport := do
  let count := f.count
  let trees ← if count ≤ limit then some <$> f.trees else pure none
  return {
    start := ← f.startName
    tokens := f.tokens
    chartSize := f.chart.size
    count
    tree := ← f.tree
    trees }

end Forest

end ChomskyChart
