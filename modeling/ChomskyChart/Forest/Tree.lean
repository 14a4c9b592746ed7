import ChomskyChart.Production

/-!
# Parse trees

A parse tree of a grammar in normal form has a leaf per token and a branch with two subtrees per
two-symbol rule. The empty sentence has a tree of its own kind.

## Main definitions

* `ParseTree`: parse trees, and `ParseTree.text`, a tree in brackets
* `ParseTree.leaves`: the tokens, from left to right
* `ParseTree.nodes`: all nodes, a node before its subtrees and left before right
-/

namespace ChomskyChart

/-- A derivation of a sentence. Positions of tokens are counted from zero, and both ends of a span
belong to it. -/
inductive ParseTree where
  /-- The nonterminal derives the empty sentence. -/
  | empty (nonterminal : String)
  /-- The nonterminal goes to the token at a position. -/
  | leaf (nonterminal token : String) (position : Nat)
  /-- The nonterminal goes to two, which share its span. -/
  | branch (nonterminal : String) (first last : Nat) (left right : ParseTree)
deriving DecidableEq, Repr, Inhabited

/-- What a node says by itself: its nonterminal, its span, and whether it is a leaf. -/
structure TreeNode where
  nonterminal : String
  span : Option (Nat × Nat)
  isLeaf : Bool
deriving DecidableEq, Repr, Inhabited

namespace ParseTree

/-- The nonterminal at the root. -/
def nonterminal : ParseTree → String
  | empty name => name
  | leaf name _ _ => name
  | branch name _ _ _ _ => name

/-- The span of tokens, both ends included. The tree of the empty sentence has none. -/
def span : ParseTree → Option (Nat × Nat)
  | empty _ => none
  | leaf _ _ position => some (position, position)
  | branch _ first last _ _ => some (first, last)

/-- Whether the tree is a single leaf. -/
def isLeaf : ParseTree → Bool
  | leaf _ _ _ => true
  | _ => false

/-- The tokens at the leaves, from left to right. -/
def leaves : ParseTree → List String
  | empty _ => []
  | leaf _ token _ => [token]
  | branch _ _ _ left right => left.leaves ++ right.leaves

/-- All nodes, each before its subtrees, and those of the left subtree first. -/
def nodes : ParseTree → List TreeNode
  | empty name => [⟨name, none, false⟩]
  | leaf name _ position => [⟨name, some (position, position), true⟩]
  | branch name first last left right =>
    ⟨name, some (first, last), false⟩ :: (left.nodes ++ right.nodes)

/-- The tree in brackets: the name of the root, then its token or its subtrees. -/
def text : ParseTree → String
  | empty name => "(" ++ name ++ " " ++ epsilonText ++ ")"
  | leaf name token _ => "(" ++ name ++ " " ++ token ++ ")"
  | branch name _ _ left right => "(" ++ name ++ " " ++ left.text ++ " " ++ right.text ++ ")"

end ParseTree

end ChomskyChart
