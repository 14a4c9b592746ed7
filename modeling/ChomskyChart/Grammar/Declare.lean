import ChomskyChart.Grammar.NameIndex
import ChomskyChart.Grammar.Table

/-!
# Declaring a grammar

A grammar is declared by a start symbol, the names of its nonterminals and terminals, and its
productions. Repeated declarations and repeated productions are dropped, and so are the spellings
of the empty word, in the list of terminals as well as in bodies. The declaration is refused if a
terminal has the name of a nonterminal, if the start or a head is not a declared nonterminal, or if
a body uses a symbol that is not declared with its own kind; of several such faults the first in
this order counts, and among productions the first in the order given.

## Main definitions

* `Grammar.declare`: the grammar with given alphabets
* `Grammar.ofProductions`: the grammar whose alphabets are read off its productions
-/

namespace ChomskyChart

namespace Grammar

/-- The terminals declared beside `nonterminals`: the names in `names` that do not stand for the
empty word, each once. -/
def declaredTerminals (nonterminals names : List String) : Except Failure (List String) :=
  let letters := names.filter fun name => !isEpsilonName name
  match letters.find? nonterminals.contains with
  | some name => refuse (.overlappingSymbol name)
  | none => .ok letters.eraseDups

/-- The position of a symbol that the body of a rule for `head` uses. -/
def resolveSymbol (nonterminals terminals : NameIndex) (head : String) (symbol : Symbol) :
    Except Failure SymbolId :=
  let found :=
    match symbol with
    | .terminal name => (terminals.find? name).map SymbolId.terminal
    | .nonterminal name => (nonterminals.find? name).map SymbolId.nonterminal
  match found with
  | some id => .ok id
  | none => refuse (.undeclaredSymbol head symbol.name)

/-- The table entry of a production. Spellings of the empty word leave no trace in the body. -/
def resolveProduction (nonterminals terminals : NameIndex) (p : Production) :
    Except Failure (Nat × Body) :=
  match nonterminals.find? p.head with
  | none => refuse (.undeclaredHead p.head)
  | some head => do
    let symbols := p.body.filter fun symbol => !symbol.isEpsilon
    return (head, ← symbols.mapM (resolveSymbol nonterminals terminals p.head))

/-- The grammar with the given start symbol, alphabets and productions. -/
def declare (start : String) (nonterminals terminals : List String)
    (productions : List Production) : Except Failure Grammar := do
  let nonterminals := nonterminals.eraseDups
  let terminals ← declaredTerminals nonterminals terminals
  let nonterminalIndex := NameIndex.ofNames nonterminals
  match nonterminalIndex.find? start with
  | none => refuse (.undeclaredStart start)
  | some start =>
    let entries ← productions.mapM
      (resolveProduction nonterminalIndex (NameIndex.ofNames terminals))
    return {
      nonterminals, terminals, start
      rows := tableOf nonterminals.length entries }

/-- The names that a production uses as nonterminals: its head, and those in its body. -/
def nonterminalsOf (p : Production) : List String :=
  p.head :: p.body.filterMap fun
    | .nonterminal name => some name
    | .terminal _ => none

/-- The names that a production uses as terminals. -/
def terminalsOf (p : Production) : List String :=
  p.body.filterMap fun
    | .terminal name => some name
    | .nonterminal _ => none

/-- The grammar with the given start symbol and productions, in which a symbol counts as declared
if a production uses it. -/
def ofProductions (start : String) (productions : List Production) : Except Failure Grammar :=
  declare start (productions.flatMap nonterminalsOf) (productions.flatMap terminalsOf) productions

end Grammar

end ChomskyChart
