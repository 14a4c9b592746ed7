import ChomskyChart.Grammar.NameIndex
import ChomskyChart.Grammar.NormalShape
import ChomskyChart.Grammar.Saturation
import ChomskyChart.Grammar.Validate
import ChomskyChart.Chart.Basic

/-!
# Filling charts

A chart is filled from the rules of a grammar in normal form, which are sorted once: by terminal for
the single tokens, and in the order of the table for the longer spans. The number of a two-symbol
rule in that order is the number that its derivations carry.

Spans are filled by increasing length, so that a span is filled after the spans within it. For
one span the split runs from left to right, and for one split the rules are tried in order. This
fixes the order of the derivations in a cell.

## Main definitions

* `ChartRules`, `Grammar.chartRules`: the rules of a grammar, sorted
* `ChartRules.chart`: the chart of a sentence
* `Grammar.acceptsChart`: whether the start symbol derives the whole sentence
-/

namespace ChomskyChart

/-! ### Rules -/

/-- The rule `head → left right`. -/
structure BinaryRule where
  head : Nat
  left : Nat
  right : Nat
deriving DecidableEq, Repr, Inhabited

/-- The rules of a grammar in normal form. -/
structure ChartRules where
  /-- The number of nonterminals. -/
  width : Nat
  /-- For each terminal the heads of its rules, in ascending order. -/
  terminalHeads : List (List Nat)
  /-- The two-symbol rules in the order of the table, with their numbers. -/
  binaryRules : List (BinaryRule × Nat)
deriving DecidableEq, Repr, Inhabited

namespace Grammar

/-- The heads of the rules to a terminal. -/
def headsOf (g : Grammar) (terminal : Nat) : List Nat :=
  g.headedBodies.filterMap fun (head, body) =>
    if body = [.terminal terminal] then some head else none

/-- The two-symbol rules in the order of the table. -/
def binaryRules (g : Grammar) : List BinaryRule :=
  g.headedBodies.filterMap fun (head, body) =>
    match body with
    | [.nonterminal left, .nonterminal right] => some ⟨head, left, right⟩
    | _ => none

/-- The rules of the grammar. A grammar that is not well-formed or not in normal form is refused. -/
def chartRules (g : Grammar) : Except Failure ChartRules := do
  g.validate
  g.checkNormalForm
  return {
    width := g.nonterminals.length
    terminalHeads := (List.range g.terminals.length).map g.headsOf
    binaryRules := g.binaryRules.zipIdx }

end Grammar

/-! ### Filling a chart -/

/-- The spans of two or more of `n` tokens, by increasing length and then from left to right. -/
def longSpans (n : Nat) : List (Nat × Nat) :=
  (List.range (n - 1)).flatMap fun d =>
    (List.range (n - 1 - d)).map fun i => (i, i + d + 1)

namespace ChartRules

/-- What the chart so far yields for the span from `i` to `j`: for each split and each rule whose
symbols were found on both sides, the head and the derivation. -/
def findings (rules : ChartRules) (c : Chart) (i j : Nat) : List (Nat × Derivation) :=
  (List.range (j - i)).flatMap fun d =>
    rules.binaryRules.filterMap fun (rule, number) =>
      if c.contains i (i + d) rule.left && c.contains (i + d + 1) j rule.right then
        some (rule.head, .binary (i + d) number rule.left rule.right)
      else
        none

/-- Adds to the chart what it yields for a span. -/
def fillSpan (rules : ChartRules) (c : Chart) (span : Nat × Nat) : Chart :=
  (rules.findings c span.1 span.2).foldl
    (fun c finding => c.push span.1 span.2 finding.1 finding.2) c

/-- Adds the rules to the token at a position. A token that is no terminal has none. That its
position among the terminals is out of range is a fault. -/
def fillToken (rules : ChartRules) (terminals : NameIndex) (c : Chart) (entry : String × Nat) :
    Except Failure Chart :=
  match terminals.find? entry.1 with
  | none => .ok c
  | some terminal => do
    let heads ← lookUp rules.terminalHeads terminal
    return heads.foldl (fun c head => c.push entry.2 entry.2 head (.terminal terminal)) c

/-- The chart of a sentence. `terminals` tells the positions of the tokens. -/
def chart (rules : ChartRules) (terminals : NameIndex) (tokens : List String) :
    Except Failure Chart := do
  let c ← tokens.zipIdx.foldlM (rules.fillToken terminals) (Chart.empty tokens.length rules.width)
  return (longSpans tokens.length).foldl rules.fillSpan c

end ChartRules

/-! ### Acceptance -/

/-- Whether the start symbol derives the sentence of the chart. The empty sentence has no cell, so
it is the grammar that answers for it. -/
def Grammar.acceptsChart (g : Grammar) (c : Chart) : Except Failure Bool :=
  match c.size with
  | 0 => g.generatesEpsilon
  | last + 1 => .ok (c.contains 0 last g.start)

end ChomskyChart
