import ChomskyChart.Text.Uppercase
import ChomskyChart.Grammar.Declare

/-!
# Reading rule text

Rules are written one to a line, as `head -> body | body`. A line that starts with a bar goes on
with the alternatives of the line before it, and blank lines count for nothing.

* A body is a sequence of words. A bare word is a nonterminal if it starts with a capital letter
  and a terminal otherwise; `"VAR:name"` and `"TER:name"` force the kind, quotes included.
* A word that spells the empty word leaves no trace, so a body of such words, like a body without
  words, derives the empty word.
* The head is a nonterminal whatever its first letter, bare or as `"VAR:name"`. It must not be empty
  or hold a blank.

What cannot be read is refused: the whole line if its head is at fault, else the word.

## Main definitions

* `readSymbol`, `readAlternatives`, `readLine`: the parts of a line
* `readRules`: the productions of a text
* `Grammar.ofText`: the grammar of a text
-/

namespace ChomskyChart

/-! ### Words -/

/-- The opening of a forced nonterminal. -/
def nonterminalQuote : List Char := ['"', 'V', 'A', 'R', ':']

/-- The opening of a forced terminal. -/
def terminalQuote : List Char := ['"', 'T', 'E', 'R', ':']

/-- Refuses a line or a word that cannot be read. -/
def refuseText {α : Type} (text : List Char) : Except Failure α :=
  refuse (.malformedRule (String.ofList text))

/-- The name before a closing quote. If there is none, `whole` is refused. -/
def unquote (whole quoted : List Char) : Except Failure (List Char) :=
  match ['"'].isSuffixOf? quoted with
  | some name => .ok name
  | none => refuseText whole

/-- The symbol that a word of a body stands for. -/
def readSymbol (word : List Char) : Except Failure Symbol :=
  match nonterminalQuote.isPrefixOf? word with
  | some quoted => return .nonterminal (String.ofList (← unquote word quoted))
  | none =>
    match terminalQuote.isPrefixOf? word with
    | some quoted => return .terminal (String.ofList (← unquote word quoted))
    | none =>
      if word.head?.any Text.isUppercase then return .nonterminal (String.ofList word)
      else return .terminal (String.ofList word)

/-! ### Lines -/

/-- The body that an alternative writes. -/
def readBody (alternative : List Char) : Except Failure (List Symbol) :=
  let letters := (Text.words alternative).filter fun word => !isEpsilonName (String.ofList word)
  letters.mapM readSymbol

/-- One production per alternative between bars. -/
def readAlternatives (head : String) (alternatives : List Char) :
    Except Failure (List Production) :=
  (Text.fields (· == '|') alternatives).mapM fun alternative =>
    return ⟨head, ← readBody alternative⟩

/-- The name that stands before the arrow of `line`. -/
def readHead (line before : List Char) : Except Failure (List Char) := do
  let before := Text.trim before
  let name ←
    match nonterminalQuote.isPrefixOf? before with
    | some quoted => unquote line quoted
    | none => .ok before
  if name.isEmpty || name.any Text.isBlank then refuseText line else return name

/-- The head of a line and the text of its alternatives. A line that starts with a bar has the head
of the line before it, `current`. -/
def splitLine (current : Option String) (line : List Char) :
    Except Failure (String × List Char) :=
  match line with
  | '|' :: alternatives =>
    match current with
    | some head => .ok (head, alternatives)
    | none => refuseText line
  | _ =>
    match Text.splitArrow line with
    | some (before, alternatives) => return (String.ofList (← readHead line before), alternatives)
    | none => refuseText line

/-- The head and the productions of a line. -/
def readLine (current : Option String) (line : List Char) :
    Except Failure (String × List Production) := do
  let (head, alternatives) ← splitLine current line
  return (head, ← readAlternatives head alternatives)

/-- The productions of a sequence of lines, `current` being the head of the line before them. -/
def readLines (current : Option String) : List (List Char) → Except Failure (List Production)
  | [] => return []
  | line :: rest => do
    let (head, productions) ← readLine current line
    return productions ++ (← readLines (some head) rest)

/-! ### Texts -/

/-- The lines of a text that are not blank, without the blanks around them. A carriage return is a
blank, so lines may end in either way. -/
def linesOf (text : List Char) : List (List Char) :=
  ((Text.fields (· == '\n') text).map Text.trim).filter fun line => !line.isEmpty

/-- The productions of a text of rules. -/
def readRules (text : String) : Except Failure (List Production) :=
  readLines none (linesOf text.toList)

/-- The grammar with the rules of a text and the given start symbol. -/
def Grammar.ofText (text start : String) : Except Failure Grammar := do
  Grammar.ofProductions start (← readRules text)

end ChomskyChart
