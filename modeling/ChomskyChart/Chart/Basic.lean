import ChomskyChart.Failure

/-!
# Charts

The chart of a sentence of `n` tokens has a cell for every span `(i, j)` with `i ≤ j < n`, ends
included. A cell holds, for each nonterminal, the ways in which it was found to derive the tokens
of the span.

## The packing

Only half of the square is used, so the rows of the upper triangle are stored back to back. Row `i`
has `n - i` cells, hence the rows above it have `i * (2 * n - i + 1) / 2`, and the division is
exact. Within a cell the nonterminals lie in order.

Reading outside the triangle finds nothing and writing there changes nothing, so no caller has to
ask for bounds first.

## Main definitions

* `Derivation`: one way to derive the tokens of a span
* `Chart`, `Chart.empty`, `Chart.slot?`: charts, and the place of a list of derivations
* `Chart.push`, `Chart.derivations`: writing and reading
-/

namespace ChomskyChart

/-- How a nonterminal derives the tokens of a span. -/
inductive Derivation where
  /-- By a rule to the terminal that is the only token of the span. -/
  | terminal (index : Nat)
  /-- By the two-symbol rule with the given number, whose symbols `left` and `right` derive the
  tokens up to and after `split`. -/
  | binary (split rule left right : Nat)
deriving DecidableEq, Repr, Inhabited

/-- How many cells a chart for `size` tokens has. -/
def cellCount (size : Nat) : Nat :=
  size * (size + 1) / 2

/-- The derivations found for the spans of a sentence. -/
structure Chart where
  /-- The number of tokens. -/
  size : Nat
  /-- The number of nonterminals. -/
  width : Nat
  /-- The derivations by cell and nonterminal. -/
  cells : Array (List Derivation)
  size_cells : cells.size = cellCount size * width

namespace Chart

/-- The chart in which nothing is found. -/
def empty (size width : Nat) : Chart where
  size := size
  width := width
  cells := Array.replicate (cellCount size * width) []
  size_cells := by simp

/-- The place of the derivations of nonterminal `v` for the span from `i` to `j`. -/
def slot? (c : Chart) (i j v : Nat) : Option Nat :=
  if i ≤ j ∧ j < c.size ∧ v < c.width then
    some ((i * (2 * c.size - i + 1) / 2 + (j - i)) * c.width + v)
  else
    none

/-- Adds a derivation after those of nonterminal `v` for the span from `i` to `j`. -/
def push (c : Chart) (i j v : Nat) (d : Derivation) : Chart :=
  match c.slot? i j v with
  | some slot =>
    { c with
      cells := c.cells.modify slot fun ds => ds ++ [d]
      size_cells := by simp [c.size_cells] }
  | none => c

/-- The derivations of nonterminal `v` for the span from `i` to `j`, in the order in which they were
added. -/
def derivations (c : Chart) (i j v : Nat) : List Derivation :=
  match c.slot? i j v with
  | some slot => c.cells[slot]?.getD []
  | none => []

/-- Whether nonterminal `v` was found for the span from `i` to `j`. -/
def contains (c : Chart) (i j v : Nat) : Bool :=
  !(c.derivations i j v).isEmpty

/-- The nonterminals found for the span from `i` to `j`, in ascending order. -/
def cell (c : Chart) (i j : Nat) : List Nat :=
  (List.range c.width).filter (c.contains i j)

/-! ### Charts as text -/

/-- The names of the nonterminals found for the span from `i` to `j`. -/
def cellNames (c : Chart) (nonterminals : List String) (i j : Nat) :
    Except Failure (List String) :=
  (c.cell i j).mapM (lookUp nonterminals)

/-- A cell as text: its names parted by bars, or a dash if it is empty. -/
def cellText (c : Chart) (nonterminals : List String) (i j : Nat) : Except Failure String := do
  match ← c.cellNames nonterminals i j with
  | [] => return "-"
  | names => return "|".intercalate names

/-- The chart as a square with one line per row and tabs between the cells. Cells below the
diagonal are empty. -/
def text (c : Chart) (nonterminals : List String) : Except Failure String := do
  let rows ← (List.range c.size).mapM fun i => do
    return "\t".intercalate (← (List.range c.size).mapM fun j => c.cellText nonterminals i j)
  return "\n".intercalate rows

/-! ### Sizes -/

@[simp] theorem size_empty (size width : Nat) : (empty size width).size = size := rfl

@[simp] theorem width_empty (size width : Nat) : (empty size width).width = width := rfl

@[simp] theorem size_push (c : Chart) (i j v : Nat) (d : Derivation) :
    (c.push i j v d).size = c.size := by
  rw [push]; split <;> rfl

@[simp] theorem width_push (c : Chart) (i j v : Nat) (d : Derivation) :
    (c.push i j v d).width = c.width := by
  rw [push]; split <;> rfl

theorem slot?_isSome_iff {c : Chart} {i j v : Nat} :
    (c.slot? i j v).isSome = true ↔ i ≤ j ∧ j < c.size ∧ v < c.width := by
  rw [slot?]; split <;> simp [*]

theorem derivations_empty (size width i j v : Nat) :
    (empty size width).derivations i j v = [] := by
  rw [derivations]
  split
  · rename_i slot _
    cases h : (empty size width).cells[slot]? with
    | none => rfl
    | some ds =>
      simp only [empty, Array.getElem?_replicate] at h
      split at h <;> simp_all
  · rfl

end Chart

end ChomskyChart
