import ChomskyChart.Grammar.Saturation
import ChomskyChart.Grammar.Search

/-!
# No useless nonterminals

A nonterminal is useless if it derives no word or if the start symbol does not reach it. Those that
derive nothing go first, since their going may cut others off from the start symbol. The start
symbol itself always stays.

## Main definitions

* `Grammar.restrict`: the grammar with some of its nonterminals
* `Grammar.withoutUseless`: the step
-/

namespace ChomskyChart

/-! ### Dropping nonterminals -/

/-- The new positions of the nonterminals that are kept, from `next` on. -/
def renumber (next : Nat) : List Bool → List (Option Nat)
  | [] => []
  | true :: rest => some next :: renumber (next + 1) rest
  | false :: rest => none :: renumber next rest

/-- A body in new positions, or `none` if it has a nonterminal that is dropped. What comes after
such a nonterminal is not looked at. -/
def renumberBody (positions : List (Option Nat)) : Body → Except Failure (Option Body)
  | [] => return some []
  | .terminal index :: rest => do
    return (← renumberBody positions rest).map (.terminal index :: ·)
  | .nonterminal index :: rest => do
    match ← lookUp positions index with
    | none => return none
    | some position => return (← renumberBody positions rest).map (.nonterminal position :: ·)

/-- The entries whose flag is set. -/
def select {α : Type} (flags : List Bool) (xs : List α) : List α :=
  ((flags.zip xs).filter fun pair => pair.1).map fun pair => pair.2

namespace Grammar

/-- The grammar with the nonterminals that are flagged, renumbered, and with the bodies that use no
others. The terminals all stay. The start symbol is expected to be flagged. Every nonterminal and
every row needs a flag, and a nonterminal that is kept needs a row. -/
def restrict (g : Grammar) (keep : List Bool) : Except Failure Grammar := do
  let kept ← (List.range g.nonterminals.length).mapM (lookUp keep)
  let keptRows ← (List.range g.rows.length).mapM (lookUp keep)
  if (kept.drop g.rows.length).contains true then
    outOfRange
  else
    let numbers := renumber 0 kept
    let positions := (List.range g.rows.length).map fun i => numbers[i]?.join
    let rows ← (select keptRows g.rows).mapM fun row => do
      return (← row.mapM (renumberBody positions)).filterMap id
    let start ← lookUp positions g.start
    return { g with
      nonterminals := select kept g.nonterminals
      rows
      start := start.getD 0 }

/-! ### The step -/

/-- The grammar without nonterminals that derive no word and without those that the start symbol
does not reach. -/
def withoutUseless (g : Grammar) : Except Failure Grammar := do
  let generating ← g.generating
  if g.start < generating.length then
    let g ← g.restrict (generating.set g.start true)
    g.restrict (← g.reachable)
  else
    outOfRange

end Grammar

end ChomskyChart
