import ChomskyChart.Grammar.Basic

/-!
# Grammars whose parts fit together

## Main definitions

* `Grammar.WellFormed`: one row per nonterminal, every position in range, all names distinct
* `Grammar.validate`: the check, which names the first flaw that it finds

## Main results

* `Grammar.validate_eq_ok_iff`: exactly the well-formed grammars pass
-/

namespace ChomskyChart

namespace Grammar

/-! ### What fits together -/

/-- Whether a symbol has a name in the grammar. -/
def Declares (g : Grammar) : SymbolId → Prop
  | .terminal index => index < g.terminals.length
  | .nonterminal index => index < g.nonterminals.length

instance (g : Grammar) (s : SymbolId) : Decidable (g.Declares s) := by
  cases s <;> exact inferInstanceAs (Decidable (_ < _))

/-- The parts of the grammar fit together. -/
structure WellFormed (g : Grammar) : Prop where
  length_rows : g.rows.length = g.nonterminals.length
  start_lt : g.start < g.nonterminals.length
  nodup_nonterminals : g.nonterminals.Nodup
  nodup_terminals : g.terminals.Nodup
  disjoint : ∀ name ∈ g.terminals, name ∉ g.nonterminals
  declares : ∀ row ∈ g.rows, ∀ body ∈ row, ∀ s ∈ body, g.Declares s

/-! ### The check -/

/-- How a symbol without a name is written in a refusal. -/
def describe : SymbolId → String
  | .terminal index => "TerminalIndex(" ++ toString index ++ ")"
  | .nonterminal index => "VariableIndex(" ++ toString index ++ ")"

/-- The first symbol of the table without a name, with the head of its rule. -/
def strayUse? (g : Grammar) : Option (Nat × SymbolId) :=
  g.headedBodies.findSome? fun (head, body) =>
    (body.find? fun s => !decide (g.Declares s)).map fun s => (head, s)

/-- Refuses a grammar whose parts do not fit together. -/
def validate (g : Grammar) : Except Failure Unit :=
  if g.rows.length ≠ g.nonterminals.length then refuse (.inconsistent .rowCount)
  else if g.nonterminals.length ≤ g.start then refuse (.inconsistent .startOutOfRange)
  else if ¬g.nonterminals.Nodup then refuse (.inconsistent .duplicateNonterminal)
  else if ¬g.terminals.Nodup then refuse (.inconsistent .duplicateTerminal)
  else
    match g.terminals.find? g.nonterminals.contains with
    | some name => refuse (.overlappingSymbol name)
    | none =>
      match g.strayUse? with
      | some (head, s) => do refuse (.undeclaredSymbol (← g.nonterminalName head) (describe s))
      | none => .ok ()

theorem strayUse?_eq_none_iff {g : Grammar} :
    g.strayUse? = none ↔ ∀ row ∈ g.rows, ∀ body ∈ row, ∀ s ∈ body, g.Declares s := by
  simp only [strayUse?, List.findSome?_eq_none_iff, Option.map_eq_none_iff, List.find?_eq_none,
    Bool.not_eq_eq_eq_not, Bool.not_true, decide_eq_false_iff_not, Decidable.not_not, Prod.forall,
    mem_headedBodies]
  constructor
  · intro h row hrow body hbody s hs
    obtain ⟨i, hi⟩ := List.getElem?_of_mem hrow
    exact h i body ⟨row, hi, hbody⟩ s hs
  · rintro h i body ⟨row, hrow, hbody⟩ s hs
    exact h row (List.mem_of_getElem? hrow) body hbody s hs

theorem validate_eq_ok_iff {g : Grammar} : g.validate = .ok () ↔ g.WellFormed := by
  constructor
  · intro h
    rw [validate] at h
    split at h
    · exact nomatch h
    split at h
    · exact nomatch h
    split at h
    · exact nomatch h
    split at h
    · exact nomatch h
    rename_i hrows hstart hnon hter
    cases hdis : g.terminals.find? g.nonterminals.contains with
    | some name => simp only [hdis, refuse, reduceCtorEq] at h
    | none =>
      cases hstray : g.strayUse? with
      | some use =>
        simp only [hdis, hstray] at h
        cases hname : g.nonterminalName use.1 <;> simp [hname, refuse, bind, Except.bind] at h
      | none =>
        exact ⟨Decidable.not_not.1 hrows, Nat.lt_of_not_le hstart, Decidable.not_not.1 hnon,
          Decidable.not_not.1 hter, by simpa using hdis, strayUse?_eq_none_iff.1 hstray⟩
  · intro h
    have hdis : g.terminals.find? g.nonterminals.contains = none := by
      simpa using h.disjoint
    rw [validate, if_neg (Decidable.not_not.2 h.length_rows), if_neg (Nat.not_le.2 h.start_lt),
      if_neg (Decidable.not_not.2 h.nodup_nonterminals),
      if_neg (Decidable.not_not.2 h.nodup_terminals), hdis, strayUse?_eq_none_iff.2 h.declares]

end Grammar

end ChomskyChart
