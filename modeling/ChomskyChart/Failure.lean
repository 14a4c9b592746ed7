import ChomskyChart.Production

/-!
# Why an operation has no result

An operation on a grammar ends without a result for one of two reasons. A *refusal* is an answer:
the grammar or the text is not what the operation asks for, and the refusal says why. A *fault*
means that the operation reached for a list entry that does not exist, or counted below zero. It
arises only on grammars whose parts do not fit together.

## Main definitions

* `Refusal`, `Refusal.message`: the causes of a refusal and their wording
* `Fault`, `Failure`: faults, and failures of either kind
* `falseIfRefused`: a yes-or-no question to which a refusal is an answer
* `lookUp`, `replaceAt`: an entry of a list, read or replaced, where a missing entry is a fault

## Main results

* `lookUp_eq_ok_iff`, `lookUp_eq_error_iff`: when a look-up succeeds and when it faults
* `bind_eq_ok_iff`: operations in sequence succeed one by one
* `exists_mapM`: an operation that succeeds on every entry succeeds on the list
-/

namespace ChomskyChart

/-! ### Refusals -/

/-- In which way the parts of a grammar contradict each other. -/
inductive Inconsistency where
  | rowCount
  | startOutOfRange
  | duplicateNonterminal
  | duplicateTerminal
deriving DecidableEq, Repr, Inhabited

/-- The causes for which a grammar or a text is refused. -/
inductive Refusal where
  /-- The start symbol is not a declared nonterminal. -/
  | undeclaredStart (name : String)
  /-- A name is declared both as terminal and as nonterminal. -/
  | overlappingSymbol (name : String)
  /-- A body uses a symbol that is not declared. -/
  | undeclaredSymbol (head symbol : String)
  /-- A production rewrites a nonterminal that is not declared. -/
  | undeclaredHead (name : String)
  /-- A line or a symbol of rule text cannot be read. -/
  | malformedRule (text : String)
  /-- The parts of the grammar contradict each other. -/
  | inconsistent (cause : Inconsistency)
  /-- A production is neither `A → a` nor `A → B C`. -/
  | notInNormalForm (production : Production)
deriving DecidableEq, Repr, Inhabited

/-- The wording of an inconsistency. -/
def Inconsistency.message : Inconsistency → String
  | rowCount => "production table does not match variables"
  | startOutOfRange => "start symbol index out of range"
  | duplicateNonterminal => "duplicate non-terminal"
  | duplicateTerminal => "duplicate terminal"

/-- The wording of a refusal. -/
def Refusal.message : Refusal → String
  | undeclaredStart name =>
    "Invalid grammar: start symbol '" ++ name ++ "' is not a declared non-terminal"
  | overlappingSymbol name =>
    "Invalid grammar: '" ++ name ++ "' is declared both as terminal and non-terminal"
  | undeclaredSymbol head symbol =>
    "Invalid grammar: production of '" ++ head ++ "' uses undeclared symbol '" ++ symbol ++ "'"
  | undeclaredHead name =>
    "Invalid grammar: production head '" ++ name ++ "' is not a declared non-terminal"
  | malformedRule text => "Invalid grammar: malformed grammar rule: " ++ text
  | inconsistent cause => "Invalid grammar: inconsistent grammar: " ++ cause.message
  | notInNormalForm production => "Grammar is not in CNF: " ++ production.text

/-! ### Faults -/

/-- An access that has no meaning. -/
inductive Fault where
  /-- A list was read or written at a position that it does not have. -/
  | outOfRange
  /-- A count was to go below zero. -/
  | underflow
deriving DecidableEq, Repr, Inhabited

/-- Why an operation has no result. -/
inductive Failure where
  | refused (cause : Refusal)
  | fault (cause : Fault)
deriving DecidableEq, Repr, Inhabited

/-- Ends an operation with a refusal. -/
def refuse {α : Type} (cause : Refusal) : Except Failure α :=
  .error (.refused cause)

/-- Ends an operation with the fault of an access outside a list. -/
def outOfRange {α : Type} : Except Failure α :=
  .error (.fault .outOfRange)

/-- A refusal answers a yes-or-no question with no. A fault remains a fault. -/
def falseIfRefused : Except Failure Bool → Except Failure Bool
  | .error (.refused _) => .ok false
  | outcome => outcome

/-! ### Checked look-up -/

/-- The entry at a position. A missing entry is a fault, never a default. -/
def lookUp {α : Type} (xs : List α) (i : Nat) : Except Failure α :=
  match xs[i]? with
  | some x => .ok x
  | none => outOfRange

theorem lookUp_eq_ok_iff {α : Type} {xs : List α} {i : Nat} {x : α} :
    lookUp xs i = .ok x ↔ xs[i]? = some x := by
  rw [lookUp]
  cases xs[i]? <;> simp [outOfRange]

theorem lookUp_of_lt {α : Type} {xs : List α} {i : Nat} (h : i < xs.length) :
    lookUp xs i = .ok xs[i] :=
  lookUp_eq_ok_iff.2 (List.getElem?_eq_getElem h)

theorem lookUp_eq_error_iff {α : Type} {xs : List α} {i : Nat} {e : Failure} :
    lookUp xs i = .error e ↔ xs.length ≤ i ∧ e = .fault .outOfRange := by
  rw [lookUp]
  rcases Nat.lt_or_ge i xs.length with h | h
  · simp [List.getElem?_eq_getElem h, Nat.not_le.2 h]
  · simp [outOfRange, h, eq_comm]

/-- Replaces the entry at a position. A missing entry is a fault. -/
def replaceAt {α : Type} (xs : List α) (i : Nat) (change : α → α) : Except Failure (List α) := do
  let x ← lookUp xs i
  return xs.set i (change x)

/-! ### Operations in sequence -/

theorem bind_eq_ok_iff {α β : Type} {x : Except Failure α} {next : α → Except Failure β} {b : β} :
    x >>= next = .ok b ↔ ∃ a, x = .ok a ∧ next a = .ok b := by
  cases x <;> simp [bind, Except.bind]

/-! ### Operations on all entries -/

theorem mapM_eq_ok {α β : Type} {f : α → Except Failure β} {F : α → β} {xs : List α}
    (h : ∀ x ∈ xs, f x = .ok (F x)) : xs.mapM f = .ok (xs.map F) := by
  induction xs with
  | nil => rfl
  | cons x rest ih =>
    rw [List.mapM_cons, h x List.mem_cons_self,
      ih fun y hy => h y (List.mem_cons_of_mem _ hy)]
    rfl

/-- If an operation succeeds on every entry, then it succeeds on the list, and its results are those
of a function. -/
theorem exists_mapM {α β : Type} [Inhabited β] {f : α → Except Failure β} {P : α → β → Prop}
    {xs : List α} (h : ∀ x ∈ xs, ∃ y, f x = .ok y ∧ P x y) :
    ∃ F : α → β, xs.mapM f = .ok (xs.map F) ∧ ∀ x ∈ xs, P x (F x) := by
  have hresult : ∀ x ∈ xs, ∀ y, f x = .ok y → (f x).toOption.getD default = y := by
    intro x _ y hy
    rw [hy]
    rfl
  refine ⟨fun x => (f x).toOption.getD default, mapM_eq_ok fun x hx => ?_, fun x hx => ?_⟩
  · obtain ⟨y, hy, -⟩ := h x hx
    show f x = .ok ((f x).toOption.getD default)
    rw [hresult x hx y hy, hy]
  · obtain ⟨y, hy, hP⟩ := h x hx
    show P x ((f x).toOption.getD default)
    rwa [hresult x hx y hy]

theorem foldlM_eq_ok {α β : Type} {f : β → α → Except Failure β} {F : β → α → β} {xs : List α}
    {b : β} (h : ∀ b, ∀ x ∈ xs, f b x = .ok (F b x)) : xs.foldlM f b = .ok (xs.foldl F b) := by
  induction xs generalizing b with
  | nil => rfl
  | cons x rest ih =>
    rw [List.foldlM_cons, h b x List.mem_cons_self]
    exact ih fun b y hy => h b y (List.mem_cons_of_mem _ hy)

theorem mapM_lookUp_range {α : Type} (xs : List α) :
    (List.range xs.length).mapM (lookUp xs) = .ok xs := by
  cases xs with
  | nil => rfl
  | cons x rest =>
    have hget : ∀ i ∈ List.range (x :: rest).length,
        lookUp (x :: rest) i = .ok (((x :: rest)[i]?).getD x) := by
      intro i hi
      rw [lookUp_of_lt (List.mem_range.1 hi), List.getElem?_eq_getElem (List.mem_range.1 hi)]
      rfl
    rw [mapM_eq_ok hget]
    refine congrArg Except.ok (List.ext_getElem (by simp) fun i hi _ => ?_)
    have hlt : i < (x :: rest).length := by simpa using hi
    rw [List.getElem_map, List.getElem_range, List.getElem?_eq_getElem hlt, Option.getD_some]

end ChomskyChart
