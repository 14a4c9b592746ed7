import ChomskyChart.Grammar.Basic

/-!
# Edits of a grammar

An edit changes one part of a grammar in place and nothing else. In particular it does not keep the
parts in step with each other: a nonterminal that is added has no row until a row is added too. So a
run of edits may pass through grammars that are not well-formed.

## Main definitions

* `Edit`, `Grammar.edit`: the edits, and what they do
-/

namespace ChomskyChart

/-- A change of one part of a grammar. -/
inductive Edit where
  | setStart (index : Nat)
  | setAcceptsEmpty (flag : Bool)
  | pushNonterminal (name : String)
  | pushTerminal (name : String)
  /-- Drops the last nonterminal, if there is one. -/
  | popNonterminal
  /-- Drops the last terminal, if there is one. -/
  | popTerminal
  | renameNonterminal (index : Nat) (name : String)
  | renameTerminal (index : Nat) (name : String)
  /-- Adds a row without bodies. -/
  | pushRow
  /-- Drops the last row, if there is one. -/
  | popRow
  /-- Adds a body to a row, whether the row has it or not. -/
  | pushBody (row : Nat) (body : Body)
  /-- Drops all bodies of a row. -/
  | clearRow (row : Nat)
deriving DecidableEq, Repr, Inhabited

/-- The grammar after an edit. -/
def Grammar.edit (g : Grammar) : Edit → Except Failure Grammar
  | .setStart index => return { g with start := index }
  | .setAcceptsEmpty flag => return { g with acceptsEmpty := flag }
  | .pushNonterminal name => return { g with nonterminals := g.nonterminals ++ [name] }
  | .pushTerminal name => return { g with terminals := g.terminals ++ [name] }
  | .popNonterminal => return { g with nonterminals := g.nonterminals.dropLast }
  | .popTerminal => return { g with terminals := g.terminals.dropLast }
  | .renameNonterminal index name => do
    return { g with nonterminals := ← replaceAt g.nonterminals index fun _ => name }
  | .renameTerminal index name => do
    return { g with terminals := ← replaceAt g.terminals index fun _ => name }
  | .pushRow => return { g with rows := g.rows ++ [[]] }
  | .popRow => return { g with rows := g.rows.dropLast }
  | .pushBody row body => do
    return { g with rows := ← replaceAt g.rows row fun bodies => bodies ++ [body] }
  | .clearRow row => do return { g with rows := ← replaceAt g.rows row fun _ => [] }

end ChomskyChart
