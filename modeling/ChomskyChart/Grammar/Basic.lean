import ChomskyChart.Failure

/-!
# Grammars by index

A grammar keeps the names of its symbols in two lists and writes its bodies in positions of these
lists. Row `i` of the table holds the bodies of nonterminal `i`, in the order in which they were
given.

## Total, permissive parts

Nothing in the type forces the parts to fit together: the table may have more or fewer rows than
there are nonterminals, and a body may name positions that do not exist. That is deliberate. The
parts can be assembled and edited freely, and `Grammar.validate` says whether they fit. Operations
read them by `lookUp`, so a position that does not exist shows as a fault.

## Main definitions

* `SymbolId`, `Body`, `Row`: symbols by position, and sequences of them
* `Grammar`: the parts of a grammar
* `Grammar.headedBodies`: all bodies of the table, each with the position of its head
* `Grammar.production`: one body of the table, by name
-/

namespace ChomskyChart

/-! ### Symbols by position -/

/-- A symbol, by its position among the terminals or among the nonterminals. -/
inductive SymbolId where
  | terminal (index : Nat)
  | nonterminal (index : Nat)
deriving DecidableEq, Repr, Inhabited

namespace SymbolId

/-- The position of a nonterminal. -/
def nonterminal? : SymbolId → Option Nat
  | terminal _ => none
  | nonterminal index => some index

/-- The position of a terminal. -/
def terminal? : SymbolId → Option Nat
  | terminal index => some index
  | nonterminal _ => none

/-- Terminals come before nonterminals, and symbols of one kind are in order of their position. -/
def le : SymbolId → SymbolId → Bool
  | terminal i, terminal j => i ≤ j
  | terminal _, nonterminal _ => true
  | nonterminal _, terminal _ => false
  | nonterminal i, nonterminal j => i ≤ j

end SymbolId

/-- The right-hand side of a rule. The empty body derives the empty word. -/
abbrev Body := List SymbolId

/-- The bodies of one nonterminal. -/
abbrev Row := List Body

/-- The symbols of a body in ascending order, each once. -/
def sortSymbols (body : Body) : Body :=
  (body.mergeSort SymbolId.le).eraseDups

/-! ### Grammars -/

/-- A context-free grammar. -/
structure Grammar where
  /-- The names of the nonterminals. -/
  nonterminals : List String
  /-- The names of the terminals. -/
  terminals : List String
  /-- The position of the start symbol. -/
  start : Nat
  /-- The bodies of each nonterminal. -/
  rows : List Row
  /-- Whether the language has the empty word beside what the table derives. -/
  acceptsEmpty : Bool := false
deriving DecidableEq, Repr, Inhabited

namespace Grammar

/-- All bodies of the table with the positions of their heads, in the order of the table. -/
def headedBodies (g : Grammar) : List (Nat × Body) :=
  g.rows.zipIdx.flatMap fun (row, head) => row.map fun body => (head, body)

theorem mem_headedBodies {g : Grammar} {head : Nat} {body : Body} :
    (head, body) ∈ g.headedBodies ↔ ∃ row, g.rows[head]? = some row ∧ body ∈ row := by
  simp only [headedBodies, List.mem_flatMap, List.mem_map, Prod.exists, Prod.mk.injEq,
    List.mem_zipIdx_iff_getElem?]
  constructor
  · rintro ⟨row, i, hrow, b, hb, rfl, rfl⟩
    exact ⟨row, hrow, hb⟩
  · rintro ⟨row, hrow, hb⟩
    exact ⟨row, head, hrow, body, hb, rfl, rfl⟩

/-- How many bodies the table has. -/
def size (g : Grammar) : Nat :=
  g.rows.flatten.length

/-! ### Reading positions as names -/

/-- The name of a nonterminal. -/
def nonterminalName (g : Grammar) (index : Nat) : Except Failure String :=
  lookUp g.nonterminals index

/-- The name of the start symbol. -/
def startName (g : Grammar) : Except Failure String :=
  g.nonterminalName g.start

/-- The symbol at a position. -/
def symbol (g : Grammar) : SymbolId → Except Failure Symbol
  | .terminal index => return .terminal (← lookUp g.terminals index)
  | .nonterminal index => return .nonterminal (← lookUp g.nonterminals index)

/-- The rule that rewrites nonterminal `head` to `body`, by name. -/
def production (g : Grammar) (head : Nat) (body : Body) : Except Failure Production := do
  let name ← g.nonterminalName head
  return ⟨name, ← body.mapM g.symbol⟩

/-- All rules of the table, by name. -/
def productions (g : Grammar) : Except Failure (List Production) :=
  g.headedBodies.mapM fun (head, body) => g.production head body

end Grammar

end ChomskyChart
