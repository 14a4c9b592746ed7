import ChomskyChart.FreshNames

/-!
# A new start symbol

The first step towards a normal form gives the grammar a start symbol that no body uses: a fresh
nonterminal whose only rule is the unit rule to the old start symbol.

## Main definitions

* `NormalFormNames`: the names from which new nonterminals take theirs
* `Grammar.withNewStart`: the grammar with a new start symbol
-/

namespace ChomskyChart

/-- The names from which the nonterminals that a normal form adds take theirs. Each is only a
starting point for the allocator. -/
structure NormalFormNames where
  /-- The base of the new start symbol. -/
  start : String := "S0"
  /-- What stands before the name of a terminal in the name of its stand-in. -/
  terminalStem : String := "X_"
  /-- The stem of the nonterminals for the ends of long bodies. -/
  binaryStem : String := "B"
deriving DecidableEq, Repr, Inhabited

namespace Grammar

/-- The grammar with a fresh start symbol that goes to the old one. -/
def withNewStart (g : Grammar) (names : FreshNames) (config : NormalFormNames) :
    Grammar × FreshNames :=
  let (name, names) := names.fresh config.start
  ({ g with
      nonterminals := g.nonterminals ++ [name]
      rows := g.rows ++ [[[.nonterminal g.start]]]
      start := g.rows.length },
    names)

end Grammar

end ChomskyChart
