import ChomskyChart.Grammar.Basic

/-!
# The shape of a Chomsky normal form

In Chomsky normal form a body is one terminal or two nonterminals. The empty word has no body of
its own there: `Grammar.acceptsEmpty` records it.

## Main definitions

* `hasNormalShape`: the two shapes of a body
* `Grammar.InNormalForm`, `Grammar.checkNormalForm`: all bodies have one of them, and the check
* `Grammar.isNormalForm`: the outcome of the check as an answer

## Main results

* `Grammar.checkNormalForm_eq_ok_iff`: exactly the grammars in normal form pass
-/

namespace ChomskyChart

/-- Whether a body is one terminal or two nonterminals. -/
def hasNormalShape : Body → Bool
  | [.terminal _] => true
  | [.nonterminal _, .nonterminal _] => true
  | _ => false

namespace Grammar

/-- Every body is one terminal or two nonterminals. -/
def InNormalForm (g : Grammar) : Prop :=
  ∀ row ∈ g.rows, ∀ body ∈ row, hasNormalShape body = true

/-- Refuses a grammar that is not in normal form and names its first production of another shape.
To name it the production is read by name, which faults if it uses a position without a name. -/
def checkNormalForm (g : Grammar) : Except Failure Unit :=
  match g.headedBodies.find? fun entry => !hasNormalShape entry.2 with
  | some (head, body) => do refuse (.notInNormalForm (← g.production head body))
  | none => .ok ()

/-- Whether the grammar is in normal form, by the same check. -/
def isNormalForm (g : Grammar) : Except Failure Bool :=
  falseIfRefused do
    g.checkNormalForm
    return true

theorem find?_headedBodies_eq_none_iff {g : Grammar} :
    (g.headedBodies.find? fun entry => !hasNormalShape entry.2) = none ↔ g.InNormalForm := by
  simp only [List.find?_eq_none, Prod.forall, mem_headedBodies, Bool.not_eq_eq_eq_not,
    Bool.not_true, Bool.not_eq_false, InNormalForm]
  constructor
  · intro h row hrow body hbody
    obtain ⟨i, hi⟩ := List.getElem?_of_mem hrow
    exact h i body ⟨row, hi, hbody⟩
  · rintro h i body ⟨row, hrow, hbody⟩
    exact h row (List.mem_of_getElem? hrow) body hbody

theorem checkNormalForm_eq_ok_iff {g : Grammar} :
    g.checkNormalForm = .ok () ↔ g.InNormalForm := by
  rw [← find?_headedBodies_eq_none_iff, checkNormalForm]
  cases g.headedBodies.find? fun entry => !hasNormalShape entry.2 with
  | none => simp
  | some entry =>
    cases hp : g.production entry.1 entry.2 <;> simp [hp, refuse, bind, Except.bind]

end Grammar

end ChomskyChart
