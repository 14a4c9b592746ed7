import ChomskyChart.Grammar.Table
import ChomskyChart.NormalForm.StartSymbol

/-!
# Bodies of at most two symbols

A body with more than two symbols keeps its first symbol, and a nonterminal takes the place of the
rest: `A → B C D` becomes `A → B X` and `X → C D`. Every proper end of such a body that has two or
more symbols gets a nonterminal of its own in this way. Equal ends share one, wherever they occur,
so there is one added nonterminal per distinct end.

A body is cut from the front. If an end comes up for the first time, then it gets the next number
and a row, and is cut in turn. If it came up before, then it has been cut before, and nothing is
left to do for this body. The added nonterminals are therefore numbered, and named, in the order in
which the ends first occur.

A rule that arises twice is written once. The added nonterminals have the positions after the named
ones. If the table has a row for each named nonterminal, these are also the rows after the given
ones; in a table with fewer rows the row of an end is missing where it is written to, which is a
fault.

## Main definitions

* `SharedEnds`: the ends that have come up, and the table that is written
* `SharedEnds.cut`: a body, cut as far as necessary
* `Grammar.withBinaryBodies`: the step
-/

namespace ChomskyChart

/-- What the step has written so far. -/
structure SharedEnds where
  /-- The nonterminals, with those of the ends behind the others. -/
  nonterminals : List String
  rows : List Row
  /-- The ends that have come up, and the positions of their nonterminals. -/
  positions : List (Body × Nat)
  names : FreshNames
deriving DecidableEq, Repr, Inhabited

namespace SharedEnds

/-- Writes a rule. -/
def addBody (s : SharedEnds) (head : Nat) (body : Body) : Except Failure SharedEnds := do
  return { s with rows := ← replaceAt s.rows head fun row => pushUnique row body }

/-- Adds a nonterminal for an end that comes up for the first time. -/
def addEnd (s : SharedEnds) (stem : String) (rest : Body) : SharedEnds :=
  let (name, names) := s.names.numbered stem
  { nonterminals := s.nonterminals ++ [name]
    rows := s.rows ++ [[]]
    positions := s.positions ++ [(rest, s.nonterminals.length)]
    names }

/-- Writes the rules for a body with the given head, and for those of its ends that are new. -/
def cut (stem : String) (s : SharedEnds) (head : Nat) : Body → Except Failure SharedEnds
  | [] => s.addBody head []
  | first :: rest =>
    if 2 ≤ rest.length then
      match s.positions.lookup rest with
      | some position => s.addBody head [first, .nonterminal position]
      | none => do
        let position := s.nonterminals.length
        let s ← (s.addEnd stem rest).addBody head [first, .nonterminal position]
        s.cut stem position rest
    else s.addBody head (first :: rest)

end SharedEnds

namespace Grammar

/-- The grammar in which no body has more than two symbols. -/
def withBinaryBodies (g : Grammar) (names : FreshNames) (config : NormalFormNames) :
    Except Failure (Grammar × FreshNames) := do
  let started : SharedEnds := {
    nonterminals := g.nonterminals
    rows := .replicate g.rows.length []
    positions := []
    names }
  let s ← g.headedBodies.foldlM (fun s (head, body) => s.cut config.binaryStem head body) started
  return ({ g with nonterminals := s.nonterminals, rows := s.rows }, s.names)

end Grammar

end ChomskyChart
