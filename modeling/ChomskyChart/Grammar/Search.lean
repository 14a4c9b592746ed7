import ChomskyChart.Grammar.Basic

/-!
# Searches through the nonterminals

Two questions about a grammar are searches in a graph whose nodes are the rows of the table: which
nonterminals the start symbol reaches through bodies, and which ones a nonterminal reaches through
unit rules alone. Both are breadth-first.

## The budget

The search expands one node after another and each node once, so it cannot expand more nodes than
the graph has. The recursion runs on that number. If it is used up while nodes are still pending,
every node of the graph has been expanded and the pending ones lie outside it: then the search
faults, which is what expanding one of them would do.

## Main definitions

* `explore`, `discover`: the nodes in the order in which the search finds them
* `Grammar.unitClosures`: for each nonterminal, what it reaches through unit rules
* `Grammar.reachable`: what the start symbol reaches
-/

namespace ChomskyChart

/-! ### Breadth-first search -/

/-- Goes on with a search that has found `seen` and has yet to expand `pending`, the last part of
`seen`. `edges` lists the neighbours of each node. -/
def explore (edges : List (List Nat)) :
    (budget : Nat) → (seen pending : List Nat) → Except Failure (List Nat)
  | _, seen, [] => .ok seen
  | 0, _, _ :: _ => outOfRange
  | budget + 1, seen, node :: pending => do
    let neighbours ← lookUp edges node
    let found := (neighbours.filter fun next => !seen.contains next).eraseDups
    explore edges budget (seen ++ found) (pending ++ found)

/-- The nodes that `node` reaches, itself first, in the order of their discovery. -/
def discover (edges : List (List Nat)) (node : Nat) : Except Failure (List Nat) :=
  explore edges edges.length [node] [node]

/-! ### Unit rules -/

/-- The nonterminal that is the whole body. -/
def unitTarget? : Body → Option Nat
  | [.nonterminal index] => some index
  | _ => none

/-- Whether the body is a single nonterminal. -/
def isUnitBody (body : Body) : Bool :=
  (unitTarget? body).isSome

namespace Grammar

/-- The targets of the unit rules of each nonterminal. -/
def unitEdges (g : Grammar) : List (List Nat) :=
  g.rows.map fun row => row.filterMap unitTarget?

/-- For each nonterminal the nonterminals that it reaches through unit rules, itself first, in the
order of their discovery. -/
def unitClosures (g : Grammar) : Except Failure (List (List Nat)) :=
  (List.range g.rows.length).mapM (discover g.unitEdges)

/-! ### Reachability -/

/-- The nonterminals in the bodies of each nonterminal. -/
def useEdges (g : Grammar) : List (List Nat) :=
  g.rows.map fun row => row.flatten.filterMap SymbolId.nonterminal?

/-- For each row of the table, whether the start symbol reaches its nonterminal. -/
def reachable (g : Grammar) : Except Failure (List Bool) := do
  let seen ← discover g.useEdges g.start
  return (List.range g.rows.length).map seen.contains

@[simp] theorem length_unitEdges (g : Grammar) : g.unitEdges.length = g.rows.length := by
  simp [unitEdges]

@[simp] theorem length_useEdges (g : Grammar) : g.useEdges.length = g.rows.length := by
  simp [useEdges]

end Grammar

end ChomskyChart
