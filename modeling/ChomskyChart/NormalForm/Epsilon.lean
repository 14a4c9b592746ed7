import ChomskyChart.Grammar.Saturation

/-!
# Bodies without the empty word

In this step a body gives way to all its variants in which some nullable nonterminals are left out,
except the empty one. No nonterminal derives the empty word afterwards, and all other words are
derived as before. If the start symbol was nullable, `Grammar.acceptsEmpty` keeps that.

The variants come in a fixed order: the choices are read from left to right, and leaving a symbol
out comes before keeping it. So the first variant leaves out every nullable symbol, and the last
is the body itself. A body is gone through from one nullable symbol to the next, and what stands
between two of them is put before the variants of the remainder as a whole.

## Main definitions

* `variants`: the variants of a body
* `Grammar.withoutEpsilon`: the step

## Main results

* `variants_cons`: the variants by the first symbol of the body
-/

namespace ChomskyChart

/-- Whether a symbol may be left out: it is a nullable nonterminal. -/
def isOptional (nullable : List Bool) : SymbolId → Except Failure Bool
  | .terminal _ => .ok false
  | .nonterminal index => lookUp nullable index

/-- The variants of a body of which `front` has been gone through since the last nullable symbol. -/
def variantsAfter (nullable : List Bool) (front : Body) : Body → Except Failure (List Body)
  | [] => return [front]
  | s :: rest => do
    if ← isOptional nullable s then
      let ends ← variantsAfter nullable [] rest
      return ends.map (front ++ ·) ++ ends.map (front ++ [s] ++ ·)
    else variantsAfter nullable (front ++ [s]) rest

/-- The variants of a body with some nullable nonterminals left out, the empty one included. -/
def variants (nullable : List Bool) (body : Body) : Except Failure (List Body) :=
  variantsAfter nullable [] body

section

variable {nullable : List Bool} {s : SymbolId} {rest : Body}

theorem variantsAfter_of_optional (hs : isOptional nullable s = .ok true) (front : Body) :
    variantsAfter nullable front (s :: rest) = do
      let ends ← variants nullable rest
      return ends.map (front ++ ·) ++ ends.map (front ++ [s] ++ ·) := by
  rw [variantsAfter, hs]
  rfl

theorem variantsAfter_of_not_optional (hs : isOptional nullable s = .ok false) (front : Body) :
    variantsAfter nullable front (s :: rest) = variantsAfter nullable (front ++ [s]) rest := by
  rw [variantsAfter, hs]
  rfl

/-- What has been gone through stands before every variant of the remainder. -/
theorem variantsAfter_eq (front body : Body) :
    variantsAfter nullable front body = do
      let bodies ← variants nullable body
      return bodies.map (front ++ ·) := by
  induction body generalizing front with
  | nil => simp [variants, variantsAfter]
  | cons s rest ih =>
    rw [variants]
    cases hs : isOptional nullable s with
    | error e =>
      rw [variantsAfter, variantsAfter, hs]
      rfl
    | ok optional =>
      cases optional with
      | false =>
        rw [variantsAfter_of_not_optional hs, variantsAfter_of_not_optional hs, ih, ih]
        simp [Function.comp_def]
      | true =>
        rw [variantsAfter_of_optional hs, variantsAfter_of_optional hs]
        simp [Function.comp_def]

/-- **The variants by the first symbol:** those without it come first, if it may be left out. -/
theorem variants_cons (nullable : List Bool) (s : SymbolId) (rest : Body) :
    variants nullable (s :: rest) = do
      let optional ← isOptional nullable s
      let ends ← variants nullable rest
      let kept := ends.map (s :: ·)
      return if optional then ends ++ kept else kept := by
  rw [variants]
  cases hs : isOptional nullable s with
  | error e =>
    rw [variantsAfter, hs]
    rfl
  | ok optional =>
    cases optional with
    | false =>
      rw [variantsAfter_of_not_optional hs, variantsAfter_eq]
      rfl
    | true =>
      rw [variantsAfter_of_optional hs]
      show _ = do
        let ends ← variants nullable rest
        return ends ++ ends.map (s :: ·)
      simp

end

namespace Grammar

/-- The grammar in which no nonterminal derives the empty word. That the start symbol has no row is
a fault, unless the language has the empty word anyway. -/
def withoutEpsilon (g : Grammar) : Except Failure Grammar := do
  let nullable ← g.nullable
  let rows ← g.rows.mapM fun row => do
    let bodies ← row.mapM (variants nullable)
    return (bodies.flatten.filter fun body => !body.isEmpty).eraseDups
  let acceptsEmpty ← if g.acceptsEmpty then pure true else lookUp nullable g.start
  return { g with rows, acceptsEmpty }

end Grammar

end ChomskyChart
