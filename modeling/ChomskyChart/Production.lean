import ChomskyChart.Text.Fields

/-!
# Symbols and productions by name

The symbols of a grammar are named terminals and nonterminals, and a production rewrites the
nonterminal at its head to a sequence of symbols. Five spellings of a terminal stand for the empty
word instead of a letter; a nonterminal may bear such a name without any special meaning.

## Main definitions

* `isEpsilonName`: the spellings of the empty word
* `Symbol`, `Production`: symbols and rules, by name
* `Production.text`: a rule as it is printed
* `tokenize`: the words of a sentence
* `sortNames`: names in the order of their code points, each once
-/

namespace ChomskyChart

/-! ### Names -/

/-- The accepted spellings of the empty word. -/
def epsilonSpellings : List String := ["epsilon", "ε", "ϵ", "Є", "$"]

/-- Whether a terminal of this name stands for the empty word. -/
def isEpsilonName (name : String) : Bool :=
  epsilonSpellings.contains name

/-- The spelling under which the empty word is printed. -/
def epsilonText : String := "ε"

/-- The words of a sentence, which are the tokens that a grammar is asked about. -/
def tokenize (sentence : String) : List String :=
  (Text.words sentence.toList).map String.ofList

/-- The names in ascending order of their code points, each once. -/
def sortNames (names : List String) : List String :=
  (names.mergeSort fun a b => decide (a ≤ b)).eraseDups

/-! ### Symbols -/

/-- A symbol, by name. The two kinds never compare equal. -/
inductive Symbol where
  | terminal (name : String)
  | nonterminal (name : String)
deriving DecidableEq, Repr, Inhabited

namespace Symbol

/-- The name of a symbol of either kind. -/
def name : Symbol → String
  | terminal name => name
  | nonterminal name => name

/-- Whether the symbol is a terminal that stands for the empty word. -/
def isEpsilon : Symbol → Bool
  | terminal name => isEpsilonName name
  | nonterminal _ => false

end Symbol

/-! ### Productions -/

/-- The rule `head → body`. -/
structure Production where
  head : String
  body : List Symbol
deriving DecidableEq, Repr, Inhabited

namespace Production

/-- Whether the body derives only the empty word by its spelling: it has no symbol but epsilons. -/
def isEpsilon (p : Production) : Bool :=
  p.body.all Symbol.isEpsilon

/-- Whether the body is a single nonterminal. -/
def isUnit (p : Production) : Bool :=
  match p.body with
  | [.nonterminal _] => true
  | _ => false

/-- The symbols of the body that are printed: a lone epsilon if there are no others. -/
def shownNames (p : Production) : List String :=
  if p.isEpsilon then [epsilonText]
  else (p.body.filter fun s => !s.isEpsilon).map Symbol.name

/-- The rule as it is printed, each symbol of the body after one space. -/
def text (p : Production) : String :=
  p.shownNames.foldl (fun line name => line ++ " " ++ name) (p.head ++ " ->")

end Production

end ChomskyChart
