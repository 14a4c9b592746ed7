import ChomskyChart.Grammar.Edit
import ChomskyChart.Grammar.NormalShape
import ChomskyChart.Grammar.Reader

/-!
# Grammars that keep answers

Three questions about a grammar are asked again and again: where a name stands among the terminals,
where one stands among the nonterminals, and whether the grammar is in normal form. A kept grammar
remembers its answer to each of them.

## Answers that are out of date

A kept answer is given again however the grammar was edited since. So answers hold for the grammar
as it was when they were first asked for, or for the grammar as it was declared, if they were kept
from the start. Only these three questions are affected, and what is answered through them. All
else, also the check for normal form, reads the grammar as it is.

## Main definitions

* `KeptGrammar`: grammars with their answers
* `KeptGrammar.declare`, `KeptGrammar.ofProductions`, `KeptGrammar.ofText`: grammars as they are
  declared, with their indices
* `Query`: questions, after which more may be kept than before
* `KeptGrammar.terminalPositions`, `KeptGrammar.nonterminalPositions`, `KeptGrammar.isNormalForm`:
  the questions whose answers are kept
* `KeptGrammar.edit`: an edit, which leaves the answers alone
-/

namespace ChomskyChart

/-- A grammar and the answers that it keeps. -/
structure KeptGrammar where
  grammar : Grammar
  terminalIndex : Option NameIndex := none
  nonterminalIndex : Option NameIndex := none
  normalForm : Option Bool := none
deriving DecidableEq, Repr, Inhabited

/-! ### Questions -/

/-- A question to a kept grammar: its outcome, and the grammar with what it keeps afterwards. What a
question makes the grammar keep stays kept when the question fails later on. -/
def Query (α : Type) : Type :=
  KeptGrammar → Except Failure α × KeptGrammar

namespace Query

instance : Monad Query where
  pure a := fun k => (.ok a, k)
  bind query next := fun k =>
    match query k with
    | (.ok a, k) => next a k
    | (.error e, k) => (.error e, k)

/-- A question about the grammar as it is. -/
def ofGrammar {α : Type} (answer : Grammar → Except Failure α) : Query α :=
  fun k => (answer k.grammar, k)

/-- A question whose outcome is read in another way. -/
def mapOutcome {α β : Type} (read : Except Failure α → Except Failure β) (query : Query α) :
    Query β :=
  fun k => ((query k).map read id)

/-- A question whose answer is kept. Nothing is kept if there is no answer. -/
def remember {α : Type} (known : KeptGrammar → Option α) (store : KeptGrammar → α → KeptGrammar)
    (answer : Grammar → Except Failure α) : Query α := fun k =>
  match known k with
  | some a => (.ok a, k)
  | none =>
    match answer k.grammar with
    | .ok a => (.ok a, store k a)
    | .error e => (.error e, k)

theorem bind_apply {α β : Type} (query : Query α) (next : α → Query β) (k : KeptGrammar) :
    (query >>= next) k =
      match query k with
      | (.ok a, k) => next a k
      | (.error e, k) => (.error e, k) := rfl

@[simp] theorem ofGrammar_apply {α : Type} (answer : Grammar → Except Failure α)
    (k : KeptGrammar) : ofGrammar answer k = (answer k.grammar, k) := rfl

section

variable {α : Type} {known : KeptGrammar → Option α} {store : KeptGrammar → α → KeptGrammar}
  {answer : Grammar → Except Failure α} {k : KeptGrammar}

theorem remember_of_known {a : α} (h : known k = some a) :
    remember known store answer k = (.ok a, k) := by
  rw [remember, h]

theorem remember_of_unknown {a : α} (h : known k = none) (hanswer : answer k.grammar = .ok a) :
    remember known store answer k = (.ok a, store k a) := by
  simp only [remember, h, hanswer]

end

end Query

namespace KeptGrammar

/-- Where names stand among the terminals. -/
def terminalPositions : Query NameIndex :=
  .remember terminalIndex (fun k index => { k with terminalIndex := some index })
    fun g => .ok (.ofNames g.terminals)

/-- Where names stand among the nonterminals. -/
def nonterminalPositions : Query NameIndex :=
  .remember nonterminalIndex (fun k index => { k with nonterminalIndex := some index })
    fun g => .ok (.ofNames g.nonterminals)

/-- Whether the grammar is in normal form. -/
def isNormalForm : Query Bool :=
  .remember normalForm (fun k flag => { k with normalForm := some flag }) Grammar.isNormalForm

/-- The productions of a nonterminal, by its name. There are none if the name is unknown. -/
def productionsOf (name : String) : Query (List Production) := do
  match (← nonterminalPositions).find? name with
  | none => return []
  | some head =>
    .ofGrammar fun g => do
      let row ← lookUp g.rows head
      row.mapM (g.production head)

/-! ### Declarations -/

/-- The grammar with both of its indices kept, as a declaration leaves it. -/
def declared (g : Grammar) : KeptGrammar where
  grammar := g
  terminalIndex := some (.ofNames g.terminals)
  nonterminalIndex := some (.ofNames g.nonterminals)

@[simp] theorem declared_grammar (g : Grammar) : (declared g).grammar = g := rfl

/-- Declares a grammar. -/
def declare (start : String) (nonterminals terminals : List String)
    (productions : List Production) : Except Failure KeptGrammar := do
  return declared (← Grammar.declare start nonterminals terminals productions)

/-- Declares the grammar whose alphabets are read off its productions. -/
def ofProductions (start : String) (productions : List Production) :
    Except Failure KeptGrammar := do
  return declared (← Grammar.ofProductions start productions)

/-- Declares the grammar with the rules of a text. -/
def ofText (text start : String) : Except Failure KeptGrammar := do
  return declared (← Grammar.ofText text start)

/-! ### Edits -/

/-- Changes the grammar and none of the answers. -/
def edit (k : KeptGrammar) (e : Edit) : Except Failure KeptGrammar := do
  return { k with grammar := ← k.grammar.edit e }

/-! ### What is kept -/

/-- **A declared grammar keeps both of its indices,** and does not know yet whether it is in normal
form. -/
theorem declare_eq_ok_iff {start : String} {nonterminals terminals : List String}
    {productions : List Production} {k : KeptGrammar} :
    declare start nonterminals terminals productions = .ok k ↔
      Grammar.declare start nonterminals terminals productions = .ok k.grammar ∧
      k.terminalIndex = some (.ofNames k.grammar.terminals) ∧
      k.nonterminalIndex = some (.ofNames k.grammar.nonterminals) ∧ k.normalForm = none := by
  rw [declare, bind_eq_ok_iff]
  constructor
  · rintro ⟨g, hg, hk⟩
    obtain rfl := Except.ok.inj hk
    exact ⟨hg, rfl, rfl, rfl⟩
  · rintro ⟨hg, hter, hnon, hnormal⟩
    refine ⟨_, hg, congrArg Except.ok ?_⟩
    rw [declared, ← hter, ← hnon, ← hnormal]

section

variable {k : KeptGrammar} {index : NameIndex}

theorem terminalPositions_of_known (h : k.terminalIndex = some index) :
    terminalPositions k = (.ok index, k) :=
  Query.remember_of_known h

theorem terminalPositions_of_unknown (h : k.terminalIndex = none) :
    terminalPositions k =
      (.ok (.ofNames k.grammar.terminals),
        { k with terminalIndex := some (.ofNames k.grammar.terminals) }) :=
  Query.remember_of_unknown h rfl

theorem nonterminalPositions_of_known (h : k.nonterminalIndex = some index) :
    nonterminalPositions k = (.ok index, k) :=
  Query.remember_of_known h

theorem nonterminalPositions_of_unknown (h : k.nonterminalIndex = none) :
    nonterminalPositions k =
      (.ok (.ofNames k.grammar.nonterminals),
        { k with nonterminalIndex := some (.ofNames k.grammar.nonterminals) }) :=
  Query.remember_of_unknown h rfl

end

end KeptGrammar

end ChomskyChart
