import ChomskyChart.FreshNames
import ChomskyChart.Kept.Basic

/-!
# Workspaces

A workspace holds the grammars and the allocators of a session. Both are numbered in the order in
which they came and never go away. Whoever does not say which one is meant means the latest.

An action that fails adds nothing. It may leave behind an answer that a grammar has begun to keep,
and nothing else.

## Main definitions

* `Workspace`, `Workspace.Outcome`: a session, and what an action leads to
* `Workspace.add`, `Workspace.derive`, `Workspace.deriveNaming`, `Workspace.copy`: new grammars
* `Workspace.ask`, `Workspace.edit`: questions to a grammar, and edits of it
* `Workspace.addNames`, `Workspace.draw`: allocators and their names
-/

namespace ChomskyChart

/-- The grammars and the allocators of a session. -/
structure Workspace where
  grammars : List KeptGrammar := []
  allocators : List FreshNames := []
deriving DecidableEq, Repr, Inhabited

/-- Why an action has no result. -/
inductive Trouble where
  /-- The operation itself failed. -/
  | failed (cause : Failure)
  /-- There is no grammar of that number. -/
  | noSuchGrammar
  /-- There is no allocator of that number. -/
  | noSuchAllocator
deriving DecidableEq, Repr, Inhabited

/-- A grammar with the number that it was given. -/
structure NumberedGrammar where
  number : Nat
  grammar : Grammar
deriving DecidableEq, Repr, Inhabited

namespace Workspace

/-- The result of an action and the workspace afterwards. -/
abbrev Outcome (α : Type) : Type :=
  Except Trouble α × Workspace

/-! ### Numbers -/

/-- The entry with a number, or the last entry if no number is given, together with its number. -/
def choose {α : Type} (xs : List α) (number : Option Nat) : Option (Nat × α) :=
  let i := number.getD (xs.length - 1)
  xs[i]?.map fun x => (i, x)

/-- The grammar with a number, or the latest. -/
def grammarAt (w : Workspace) (number : Option Nat) : Except Trouble (Nat × KeptGrammar) :=
  match choose w.grammars number with
  | some found => .ok found
  | none => .error .noSuchGrammar

/-- The allocator with a number, or the latest. -/
def allocatorAt (w : Workspace) (number : Option Nat) : Except Trouble (Nat × FreshNames) :=
  match choose w.allocators number with
  | some found => .ok found
  | none => .error .noSuchAllocator

/-- An operation as an action. -/
def attempt {α : Type} (outcome : Except Failure α) : Except Trouble α :=
  outcome.mapError .failed

/-! ### New grammars -/

/-- Adds a grammar. -/
def add (w : Workspace) (made : Except Failure KeptGrammar) : Outcome NumberedGrammar :=
  match made with
  | .ok k => (.ok ⟨w.grammars.length, k.grammar⟩, { w with grammars := w.grammars ++ [k] })
  | .error e => (.error (.failed e), w)

/-- Adds what is made of a grammar. It keeps no answers at first. -/
def derive (w : Workspace) (number : Option Nat) (make : Grammar → Except Failure Grammar) :
    Outcome NumberedGrammar :=
  match w.grammarAt number with
  | .ok (_, k) => w.add (return { grammar := ← make k.grammar })
  | .error e => (.error e, w)

/-- Adds what is made of a grammar with fresh names. The allocator goes on from there. -/
def deriveNaming (w : Workspace) (number allocator : Option Nat)
    (make : Grammar → FreshNames → Except Failure (Grammar × FreshNames)) :
    Outcome NumberedGrammar :=
  let made : Except Trouble (Grammar × Nat × FreshNames) := do
    let (_, k) ← w.grammarAt number
    let (i, names) ← w.allocatorAt allocator
    let (g, names) ← attempt (make k.grammar names)
    return (g, i, names)
  match made with
  | .ok (g, i, names) =>
    { w with allocators := w.allocators.set i names }.add (.ok { grammar := g })
  | .error e => (.error e, w)

/-- Adds a copy of a grammar with the answers that it keeps. -/
def copy (w : Workspace) (number : Option Nat) : Outcome NumberedGrammar :=
  match w.grammarAt number with
  | .ok (_, k) => w.add (.ok k)
  | .error e => (.error e, w)

/-! ### Questions and edits -/

/-- Asks a grammar a question. -/
def ask {α : Type} (w : Workspace) (number : Option Nat) (query : Query α) : Outcome α :=
  match w.grammarAt number with
  | .ok (i, k) =>
    let (outcome, k) := query k
    (attempt outcome, { w with grammars := w.grammars.set i k })
  | .error e => (.error e, w)

/-- Edits a grammar. -/
def edit (w : Workspace) (number : Option Nat) (e : Edit) : Outcome Unit :=
  match w.grammarAt number with
  | .ok (i, k) =>
    match k.edit e with
    | .ok k => (.ok (), { w with grammars := w.grammars.set i k })
    | .error e => (.error (.failed e), w)
  | .error e => (.error e, w)

/-! ### Allocators -/

/-- Adds an allocator and tells its number. -/
def addNames (w : Workspace) (names : FreshNames) : Outcome Nat :=
  (.ok w.allocators.length, { w with allocators := w.allocators ++ [names] })

/-- Adds an allocator for a grammar. -/
def addNamesFor (w : Workspace) (number : Option Nat) : Outcome Nat :=
  match w.grammarAt number with
  | .ok (_, k) => w.addNames (.ofGrammar k.grammar)
  | .error e => (.error e, w)

/-- Adds a copy of an allocator. -/
def copyNames (w : Workspace) (allocator : Option Nat) : Outcome Nat :=
  match w.allocatorAt allocator with
  | .ok (_, names) => w.addNames names
  | .error e => (.error e, w)

/-- Takes something from an allocator. -/
def draw {α : Type} (w : Workspace) (allocator : Option Nat)
    (take : FreshNames → α × FreshNames) : Outcome α :=
  match w.allocatorAt allocator with
  | .ok (i, names) =>
    let (a, names) := take names
    (.ok a, { w with allocators := w.allocators.set i names })
  | .error e => (.error e, w)

end Workspace

end ChomskyChart
