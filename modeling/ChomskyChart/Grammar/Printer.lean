import ChomskyChart.Grammar.Basic

/-!
# Grammars as text

The text of a grammar names the start symbol, then has one line per nonterminal with its
alternatives, then lists the terminals:

```
Start Symbol: S
S -> a S b | ε
Terminals: a b
```

The lines between the first and the last are rules in the syntax of `Grammar.ofText`.

## Main definitions

* `Grammar.ruleLine`: the rules of one nonterminal on a line
* `Grammar.text`: the whole text
-/

namespace ChomskyChart

namespace Grammar

/-- A body as it stands after the arrow or a bar: each symbol after one space. -/
def bodyText (g : Grammar) : Body → Except Failure String
  | [] => return " " ++ epsilonText
  | body => do
    let symbols ← body.mapM g.symbol
    return String.join (symbols.map fun s => " " ++ s.name)

/-- The rules of nonterminal `head` on one line, the alternatives parted by bars. -/
def ruleLine (g : Grammar) (head : Nat) (row : Row) : Except Failure String := do
  let name ← g.nonterminalName head
  let bodies ← row.mapM g.bodyText
  return name ++ " ->" ++ " |".intercalate bodies

/-- One line of rules per row of the table. -/
def ruleLines (g : Grammar) : Except Failure (List String) :=
  g.rows.zipIdx.mapM fun (row, head) => g.ruleLine head row

/-- The grammar as text. -/
def text (g : Grammar) : Except Failure String := do
  let start ← g.startName
  let rules ← g.ruleLines
  let terminals := "Terminals:" ++ String.join (g.terminals.map (" " ++ ·))
  return "\n".intercalate (("Start Symbol: " ++ start) :: rules ++ [terminals])

end Grammar

end ChomskyChart
