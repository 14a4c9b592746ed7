import ChomskyChart.Grammar.Basic

/-!
# Generating and nullable nonterminals

A nonterminal is generating if it derives some word of terminals, and nullable if it derives the
empty word. Both are least fixpoints of one kind: a nonterminal is found as soon as all
nonterminals of one of its bodies are. For nullability the bodies with a terminal are out of play.

## The counters

Each body in play waits for as many finds as it has nonterminals, repetitions included. A find is
credited to every body that uses the nonterminal, once per use, and a body that waits for nothing
more finds its head. So a counter never goes below zero, and that it does is not assumed: crediting
a body that waits for nothing, or one that is out of play, is a fault.

## Main definitions

* `Tally`, `Tally.credit`, `Tally.settle`: the state of the computation, one credit, and all of them
* `Grammar.generating`, `Grammar.nullable`: the two sets, as one flag per row
* `Grammar.generatesEpsilon`, `Grammar.isEmpty`: what they say of the language

## Main results

* `Tally.weight_credit_le`: a credit does not increase the number of steps that may be left, which
  is why the computation ends
-/

namespace ChomskyChart

/-! ### The state -/

/-- What is known while the computation runs. -/
structure Tally where
  /-- For each row, whether its nonterminal is found. -/
  found : List Bool
  /-- For each body, how many finds it waits for; `none` if it is out of play. -/
  waiting : List (List (Option Nat))
  /-- The nonterminals that are found and not yet credited. -/
  stack : List Nat
deriving DecidableEq, Repr, Inhabited

namespace Tally

/-- A bound for the finds that can still be credited: those on the stack, and twice the number of
nonterminals that are not found. -/
def weight (t : Tally) : Nat :=
  2 * t.found.count false + t.stack.length

/-- Credits one find to the body at place `use.2` of row `use.1`. -/
def credit (t : Tally) (use : Nat × Nat) : Except Failure Tally := do
  if ← lookUp t.found use.1 then
    return t
  else
    let row ← lookUp t.waiting use.1
    match ← lookUp row use.2 with
    | some (left + 1) =>
      let waiting := t.waiting.set use.1 (row.set use.2 (some left))
      if left = 0 then
        return { found := t.found.set use.1 true, waiting, stack := use.1 :: t.stack }
      else
        return { t with waiting }
    | _ => .error (.fault .underflow)

theorem weight_credit_le {t t' : Tally} {use : Nat × Nat} (h : t.credit use = .ok t') :
    t'.weight ≤ t.weight := by
  rw [credit] at h
  cases hfound : lookUp t.found use.1 with
  | error e => simp [hfound, bind, Except.bind] at h
  | ok found =>
    cases found with
    | true =>
      obtain rfl : t = t' := by simpa [hfound, bind, Except.bind, pure, Except.pure] using h
      exact Nat.le_refl _
    | false =>
      obtain ⟨hlt, hat⟩ := List.getElem?_eq_some_iff.1 (lookUp_eq_ok_iff.1 hfound)
      have hpos : 0 < t.found.count false := List.count_pos_iff.2 (hat ▸ List.getElem_mem hlt)
      simp only [hfound, bind, Except.bind, pure, Except.pure, Bool.false_eq_true, if_false] at h
      repeat' split at h
      all_goals first | contradiction | skip
      all_goals
        obtain rfl := Except.ok.inj h
        simp [weight, List.count_set hlt, hat]
        try omega

theorem weight_foldlM_credit_le {uses : List (Nat × Nat)} {t t' : Tally}
    (h : uses.foldlM credit t = .ok t') : t'.weight ≤ t.weight := by
  induction uses generalizing t with
  | nil =>
    obtain rfl : t = t' := by simpa [pure, Except.pure] using h
    exact Nat.le_refl _
  | cons use rest ih =>
    rw [List.foldlM_cons] at h
    cases hc : t.credit use with
    | error e => simp [hc, bind, Except.bind] at h
    | ok mid =>
      simp only [hc, bind, Except.bind] at h
      exact Nat.le_trans (ih h) (weight_credit_le hc)

/-- Credits all finds, the latest first, until none is left. `uses` lists for each nonterminal the
bodies that use it. The result has one flag per row. -/
def settle (uses : List (List (Nat × Nat))) (t : Tally) : Except Failure (List Bool) :=
  match _hstack : t.stack with
  | [] => .ok t.found
  | latest :: rest =>
    match lookUp uses latest with
    | .error e => .error e
    | .ok credits =>
      match _hfold : credits.foldlM credit { t with stack := rest } with
      | .error e => .error e
      | .ok t' => t'.settle uses
termination_by t.weight
decreasing_by
  have := weight_foldlM_credit_le _hfold
  simp only [weight, _hstack, List.length_cons] at this ⊢
  omega

end Tally

/-! ### The start of the computation -/

/-- The nonterminals of a body, repetitions included. -/
def nonterminalsIn (body : Body) : List Nat :=
  body.filterMap SymbolId.nonterminal?

/-- Whether a body has a terminal. -/
def hasTerminal (body : Body) : Bool :=
  body.any fun s => s.terminal?.isSome

namespace Grammar

/-- Each use of a nonterminal in a body in play: the nonterminal, and the row and the place of the
body. -/
def uses (g : Grammar) (outOfPlay : Body → Bool) : List (Nat × Nat × Nat) :=
  g.rows.zipIdx.flatMap fun (row, head) =>
    row.zipIdx.flatMap fun (body, place) =>
      if outOfPlay body then [] else (nonterminalsIn body).map fun index => (index, head, place)

/-- For each row the uses of its nonterminal. -/
def usesByRow (g : Grammar) (outOfPlay : Body → Bool) : List (List (Nat × Nat)) :=
  let uses := g.uses outOfPlay
  (List.range g.rows.length).map fun index =>
    uses.filterMap fun use => if use.1 = index then some use.2 else none

/-- Every body in play waits for its nonterminals, and the heads of bodies without any are found.
The stack has the last of these on top. -/
def initialTally (g : Grammar) (outOfPlay : Body → Bool) : Tally :=
  let waiting := g.rows.map fun row => row.map fun body =>
    if outOfPlay body then none else some (nonterminalsIn body).length
  let found := waiting.map fun counts => counts.contains (some 0)
  { found, waiting, stack := ((found.zipIdx.filter fun flag => flag.1).map (·.2)).reverse }

/-- The least set of nonterminals that holds every nonterminal with a body in play whose
nonterminals it holds. A body in play that names a nonterminal without a row is a fault. -/
def saturate (g : Grammar) (outOfPlay : Body → Bool) : Except Failure (List Bool) :=
  if (g.uses outOfPlay).any fun use => g.rows.length ≤ use.1 then outOfRange
  else (g.initialTally outOfPlay).settle (g.usesByRow outOfPlay)

/-! ### The two sets -/

/-- For each row, whether its nonterminal derives a word of terminals, possibly the empty one. -/
def generating (g : Grammar) : Except Failure (List Bool) :=
  g.saturate fun _ => false

/-- For each row, whether its nonterminal derives the empty word. -/
def nullable (g : Grammar) : Except Failure (List Bool) :=
  g.saturate hasTerminal

/-- Whether the language has the empty word. A start symbol without a row derives nothing. -/
def generatesEpsilon (g : Grammar) : Except Failure Bool :=
  if g.acceptsEmpty then .ok true
  else do
    let flags ← g.nullable
    return flags[g.start]?.getD false

/-- Whether the language has no word at all. -/
def isEmpty (g : Grammar) : Except Failure Bool := do
  let flags ← g.generating
  return !flags[g.start]?.getD false && !g.acceptsEmpty

end Grammar

end ChomskyChart
