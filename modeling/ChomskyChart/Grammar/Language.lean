import ChomskyChart.Grammar.Basic

/-!
# The language of a grammar

A body yields a word if the word is made by rewriting all nonterminals of the body, from left to
right, until only terminals are left. Words are lists of terminal names, as sentences are lists of
tokens. A position without a name or without a row yields nothing.

Yielding is one relation on sequences of symbols, so a rule of the grammar is used in one place
only, and a nonterminal is the sequence of length one.

## Main definitions

* `Grammar.Yields`: the words of a sequence of symbols
* `Grammar.Derives`, `Grammar.InLanguage`: the words of a nonterminal, and of the grammar

## Main results

* `Grammar.derives_iff`: a nonterminal derives what its bodies yield
* `Grammar.yields_terminal_cons_iff`, `Grammar.yields_nonterminal_cons_iff`: the words of a sequence
  by its first symbol
-/

namespace ChomskyChart

namespace Grammar

/-! ### Words -/

/-- The sequence of symbols can be rewritten to the word. -/
inductive Yields (g : Grammar) : Body → List String → Prop where
  | nil : Yields g [] []
  | terminal {index : Nat} {name : String} {rest : Body} {word : List String}
      (hname : g.terminals[index]? = some name) (hrest : Yields g rest word) :
      Yields g (.terminal index :: rest) (name :: word)
  | nonterminal {index : Nat} {row : Row} {body rest : Body} {word tail : List String}
      (hrow : g.rows[index]? = some row) (hmem : body ∈ row)
      (hbody : Yields g body word) (hrest : Yields g rest tail) :
      Yields g (.nonterminal index :: rest) (word ++ tail)

/-- The nonterminal can be rewritten to the word. -/
def Derives (g : Grammar) (index : Nat) (word : List String) : Prop :=
  g.Yields [.nonterminal index] word

/-- The word belongs to the language: the start symbol derives it, or it is the empty word and the
grammar has that one beside its table. -/
def InLanguage (g : Grammar) (word : List String) : Prop :=
  g.Derives g.start word ∨ word = [] ∧ g.acceptsEmpty = true

/-! ### Words of sequences -/

variable {g : Grammar}

@[simp] theorem yields_nil_iff {word : List String} : g.Yields [] word ↔ word = [] := by
  constructor
  · intro h; cases h; rfl
  · rintro rfl; exact .nil

theorem yields_terminal_cons_iff {index : Nat} {rest : Body} {word : List String} :
    g.Yields (.terminal index :: rest) word ↔
      ∃ name tail, word = name :: tail ∧ g.terminals[index]? = some name ∧ g.Yields rest tail := by
  constructor
  · intro h
    cases h with
    | terminal hname hrest => exact ⟨_, _, rfl, hname, hrest⟩
  · rintro ⟨name, tail, rfl, hname, hrest⟩
    exact .terminal hname hrest

theorem derives_iff {index : Nat} {word : List String} :
    g.Derives index word ↔ ∃ row, g.rows[index]? = some row ∧ ∃ body ∈ row, g.Yields body word := by
  constructor
  · intro h
    cases h with
    | nonterminal hrow hmem hbody hrest =>
      cases hrest
      exact ⟨_, hrow, _, hmem, by simpa using hbody⟩
  · rintro ⟨row, hrow, body, hmem, hbody⟩
    simpa [Derives] using Yields.nonterminal hrow hmem hbody .nil

theorem yields_nonterminal_cons_iff {index : Nat} {rest : Body} {word : List String} :
    g.Yields (.nonterminal index :: rest) word ↔
      ∃ first tail, word = first ++ tail ∧ g.Derives index first ∧ g.Yields rest tail := by
  constructor
  · intro h
    cases h with
    | nonterminal hrow hmem hbody hrest =>
      exact ⟨_, _, rfl, derives_iff.2 ⟨_, hrow, _, hmem, hbody⟩, hrest⟩
  · rintro ⟨first, tail, rfl, hfirst, hrest⟩
    obtain ⟨row, hrow, body, hmem, hbody⟩ := derives_iff.1 hfirst
    exact .nonterminal hrow hmem hbody hrest

end Grammar

end ChomskyChart
