import ChomskyChart.NormalForm.StartSymbol

/-!
# Terminals on their own

In this step every terminal of a body with two or more symbols gives way to a *stand-in*, a fresh
nonterminal whose only rule goes to that terminal. There is one stand-in per terminal, however often
the terminal occurs.

The table is gone through once. A stand-in is made where its terminal comes up for the first time,
and is found again wherever the terminal comes up later. So stand-ins are numbered, and named, in
the order in which their terminals first occur. Their rows come after all others, so they are kept
apart until the table has been gone through.

## Main definitions

* `StandIns`: the stand-ins that have been made
* `Grammar.standInFor`: the stand-in of a terminal, which is made if there is none yet
* `Grammar.withIsolatedTerminals`: the step
-/

namespace ChomskyChart

/-- Whether a body has two or more symbols. -/
def isLong (body : Body) : Bool :=
  2 ≤ body.length

/-- What the step has made so far. -/
structure StandIns where
  /-- The nonterminals, with the stand-ins behind the others. -/
  nonterminals : List String
  /-- For each terminal the position of its stand-in, if it has one. -/
  positions : List (Option Nat)
  /-- The rows of the stand-ins. -/
  rows : List Row
  names : FreshNames
deriving DecidableEq, Repr, Inhabited

/-- Makes the stand-in of a terminal, with a name from the given base. -/
def StandIns.add (s : StandIns) (index : Nat) (base : String) : StandIns :=
  let (name, names) := s.names.fresh base
  { nonterminals := s.nonterminals ++ [name]
    positions := s.positions.set index (some s.nonterminals.length)
    rows := s.rows ++ [[[.terminal index]]]
    names }

namespace Grammar

/-- The position of the stand-in of a terminal. If there is none yet, then it is made. -/
def standInFor (g : Grammar) (stem : String) (index : Nat) :
    StateT StandIns (Except Failure) Nat := do
  let s ← get
  match ← lookUp s.positions index with
  | some position => return position
  | none =>
    let terminal ← lookUp g.terminals index
    set (s.add index (stem ++ terminal))
    return s.nonterminals.length

/-- What stands for a symbol of a long body afterwards. -/
def replaceSymbol (g : Grammar) (stem : String) :
    SymbolId → StateT StandIns (Except Failure) SymbolId
  | .terminal index => return .nonterminal (← g.standInFor stem index)
  | .nonterminal index => return .nonterminal index

/-- What stands for a body afterwards. Short bodies are left alone. -/
def replaceTerminals (g : Grammar) (stem : String) (body : Body) :
    StateT StandIns (Except Failure) Body :=
  if isLong body then body.mapM (g.replaceSymbol stem) else return body

/-- The grammar in which terminals occur only as whole bodies. -/
def withIsolatedTerminals (g : Grammar) (names : FreshNames) (config : NormalFormNames) :
    Except Failure (Grammar × FreshNames) := do
  let replaceAll := g.rows.mapM fun row => row.mapM (g.replaceTerminals config.terminalStem)
  let (rows, s) ← replaceAll.run {
    nonterminals := g.nonterminals
    positions := .replicate g.terminals.length none
    rows := []
    names }
  return ({ g with nonterminals := s.nonterminals, rows := rows ++ s.rows }, s.names)

end Grammar

end ChomskyChart
