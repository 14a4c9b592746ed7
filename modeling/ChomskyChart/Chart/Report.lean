import ChomskyChart.Chart.Basic

/-!
# What a chart shows

A report on a chart has its text, the names in each cell that is not empty, and all derivations.
Single entries can be asked for by probes, which may lie outside the chart.

## Main definitions

* `ChartReport`, `Chart.report`: the report on a chart
* `ChartProbe`, `ChartFinding`, `Chart.probe`: a single entry
-/

namespace ChomskyChart

/-- An entry of a chart to ask about: a span and a nonterminal. -/
structure ChartProbe where
  first : Nat
  last : Nat
  nonterminal : Nat
deriving DecidableEq, Repr, Inhabited

/-- What a chart has for a probe. -/
structure ChartFinding where
  /-- Whether the nonterminal was found for the span. -/
  found : Bool
  derivations : List Derivation
  /-- All nonterminals that were found for the span. -/
  cell : List Nat
deriving DecidableEq, Repr, Inhabited

/-- What there is to see in a chart. -/
structure ChartReport where
  /-- The number of tokens. -/
  size : Nat
  text : String
  /-- The names in the cells that are not empty, with the ends of their spans. -/
  cells : List (Nat × Nat × List String)
  /-- The derivations of the nonterminals in these cells. -/
  derivations : List (Nat × Nat × Nat × List Derivation)
  findings : List ChartFinding
deriving Repr

/-- All spans of a sentence of `size` tokens, by their first token and then by their last. -/
def allSpans (size : Nat) : List (Nat × Nat) :=
  (List.range size).flatMap fun i => (List.range (size - i)).map fun d => (i, i + d)

namespace Chart

/-- What the chart has for a probe. -/
def probe (c : Chart) (p : ChartProbe) : ChartFinding where
  found := c.contains p.first p.last p.nonterminal
  derivations := c.derivations p.first p.last p.nonterminal
  cell := c.cell p.first p.last

/-- The entries of the chart for which something was found, in order. -/
def entries (c : Chart) : List (Nat × Nat × Nat × List Derivation) :=
  (allSpans c.size).flatMap fun (i, j) =>
    (c.cell i j).map fun v => (i, j, v, c.derivations i j v)

/-- The cells in which something was found, in order, by name. -/
def namedCells (c : Chart) (nonterminals : List String) :
    Except Failure (List (Nat × Nat × List String)) :=
  let filled := (allSpans c.size).filter fun (i, j) => !(c.cell i j).isEmpty
  filled.mapM fun (i, j) => return (i, j, ← c.cellNames nonterminals i j)

/-- The report on a chart. The names in its text are taken from `textNames`, which may be those of
another grammar. -/
def report (c : Chart) (nonterminals textNames : List String) (probes : List ChartProbe) :
    Except Failure ChartReport := do
  return {
    size := c.size
    text := ← c.text textNames
    cells := ← c.namedCells nonterminals
    derivations := c.entries
    findings := probes.map c.probe }

end Chart

end ChomskyChart
