import Std.Data.HashMap
import ChomskyChart.Chart.Rules
import ChomskyChart.Forest.Tree

/-!
# Parse forests

The chart of an accepted sentence holds all its parse trees in packed form: a tree chooses one
derivation for the start symbol over the whole sentence, then one for each symbol of that
derivation, and so on down to the tokens. The order of derivations in the cells gives an order of
the trees, and the first tree chooses the first derivation everywhere.

There may be more trees than can be listed, so they are also counted without listing them. Counts
stop at `countLimit`.

A derivation whose split lies outside its span does not arise in a filled chart. It has no trees.

## Main definitions

* `Forest`, `Grammar.forest?`: a chart and what is needed to read it; the forest of a chart
* `Forest.trees`: all trees, in order
* `Forest.tree`: the first tree
* `Forest.count`: the number of trees
-/

namespace ChomskyChart

/-- The parse trees of a sentence, packed in its chart. -/
structure Forest where
  chart : Chart
  tokens : List String
  nonterminals : List String
  start : Nat

/-- The forest of a sentence with its chart, if the grammar accepts the sentence. -/
def Grammar.forest? (g : Grammar) (tokens : List String) (chart : Chart) :
    Except Failure (Option Forest) := do
  if ← g.acceptsChart chart then
    return some { chart, tokens, nonterminals := g.nonterminals, start := g.start }
  else
    return none

namespace Forest

/-- The name of the start symbol. -/
def startName (f : Forest) : Except Failure String :=
  lookUp f.nonterminals f.start

/-- The leaf that nonterminal `v` has for the token at a position. -/
def leaf (f : Forest) (position v : Nat) : Except Failure ParseTree := do
  return .leaf (← lookUp f.nonterminals v) (← lookUp f.tokens position) position

/-! ### All trees -/

/-- The trees of nonterminal `v` over the span from `i` to `j`. For one derivation the left
subtree varies slowest. -/
def treesAt (f : Forest) (i j v : Nat) : Except Failure (List ParseTree) := do
  let trees ← (f.chart.derivations i j v).mapM fun
    | .terminal _ => return [← f.leaf i v]
    | .binary split _ left right =>
      if h : i ≤ split ∧ split < j then do
        let name ← lookUp f.nonterminals v
        let lefts ← f.treesAt i split left
        let rights ← f.treesAt (split + 1) j right
        return lefts.flatMap fun l => rights.map fun r => .branch name i j l r
      else
        return []
  return trees.flatten
termination_by j - i

/-- All parse trees of the sentence. -/
def trees (f : Forest) : Except Failure (List ParseTree) := do
  match f.tokens.length with
  | 0 => return [.empty (← f.startName)]
  | last + 1 => f.treesAt 0 last f.start

/-! ### The first tree -/

/-- The first tree of nonterminal `v` over the span from `i` to `j`. That there is none is a
fault. -/
def treeAt (f : Forest) (i j v : Nat) : Except Failure ParseTree := do
  match ← lookUp (f.chart.derivations i j v) 0 with
  | .terminal _ => f.leaf i v
  | .binary split _ left right =>
    if h : i ≤ split ∧ split < j then do
      let name ← lookUp f.nonterminals v
      return .branch name i j (← f.treeAt i split left) (← f.treeAt (split + 1) j right)
    else
      outOfRange
termination_by j - i

/-- The first parse tree of the sentence: at every node the smallest split, and for it the first
rule. -/
def tree (f : Forest) : Except Failure ParseTree := do
  match f.tokens.length with
  | 0 => return .empty (← f.startName)
  | last + 1 => f.treeAt 0 last f.start

/-! ### Counting -/

/-- The largest count, `2 ^ 128 - 1`. -/
def countLimit : Nat :=
  0xFFFFFFFFFFFFFFFFFFFFFFFFFFFFFFFF

/-- The sum, or the limit if it is larger. -/
def addCounts (a b : Nat) : Nat :=
  min (a + b) countLimit

/-- The product, or the limit if it is larger. -/
def mulCounts (a b : Nat) : Nat :=
  min (a * b) countLimit

/-- The counts that are known, by the ends of the span and the nonterminal. -/
abbrev KnownCounts := Std.HashMap (Nat × Nat × Nat) Nat

/-- The number of trees of nonterminal `v` over the span from `i` to `j`. A count is worked out once
and then known. -/
def countAt (f : Forest) (i j v : Nat) (known : KnownCounts) : Nat × KnownCounts :=
  match known[(i, j, v)]? with
  | some count => (count, known)
  | none =>
    let (total, known) := (f.chart.derivations i j v).foldl (fun (total, known) d =>
      match d with
      | .terminal _ => (addCounts total 1, known)
      | .binary split _ left right =>
        if _h : i ≤ split ∧ split < j then
          let (lefts, known) := f.countAt i split left known
          let (rights, known) := f.countAt (split + 1) j right known
          (addCounts total (mulCounts lefts rights), known)
        else
          (total, known)) (0, known)
    (total, known.insert (i, j, v) total)
termination_by j - i

/-- The number of parse trees of the sentence, or the limit if there are more. -/
def count (f : Forest) : Nat :=
  match f.tokens.length with
  | 0 => 1
  | last + 1 => (f.countAt 0 last f.start ∅).1

end Forest

end ChomskyChart
