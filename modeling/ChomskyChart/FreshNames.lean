import ChomskyChart.Grammar.Basic

/-!
# Fresh names

A normal form needs nonterminals that the grammar does not have, and their names must not clash
with any symbol, terminal or nonterminal. An allocator remembers the names that are taken, those it
gave out included, so one allocator serves one run of passes.

Names are made in two ways. `fresh` tries a base name and then numbers it, `base_1`, `base_2`, and
so on. `numbered` numbers a stem from zero and remembers for each stem how far it has come; since
names are never given back, it answers as if it started over each time.

## Main definitions

* `firstFree`: the first number whose spelling is not taken
* `FreshNames`, `FreshNames.ofGrammar`: allocators, and the one for a grammar
* `FreshNames.fresh`, `FreshNames.numbered`: a new name

## Main results

* `firstFree_not_mem`, `firstFree_minimal`: the number found is free, and no smaller one is
-/

namespace ChomskyChart

/-! ### The search for a free number -/

/-- The first number from `k` on whose spelling is not taken. Each number that is passed over uses
up one of the taken names, so the search ends. -/
def firstFree (taken : List String) (spell : Nat → String) (k : Nat) : Nat :=
  if spell k ∈ taken then firstFree (taken.erase (spell k)) spell (k + 1) else k
termination_by taken.length
decreasing_by
  rename_i h
  have := List.length_erase_of_mem h
  have := List.length_pos_of_mem h
  omega

theorem le_firstFree (taken : List String) (spell : Nat → String) (k : Nat) :
    k ≤ firstFree taken spell k := by
  fun_induction firstFree taken spell k with
  | case1 taken k h ih => omega
  | case2 => exact Nat.le_refl _

theorem firstFree_minimal {taken : List String} {spell : Nat → String} {k j : Nat} (hk : k ≤ j)
    (hj : j < firstFree taken spell k) : spell j ∈ taken := by
  fun_induction firstFree taken spell k with
  | case1 taken k h ih =>
    rcases Nat.eq_or_lt_of_le hk with rfl | hlt
    · exact h
    · exact List.mem_of_mem_erase (ih hlt hj)
  | case2 => omega

theorem firstFree_not_mem {taken : List String} {spell : Nat → String}
    (hspell : ∀ i j, spell i = spell j → i = j) (k : Nat) :
    spell (firstFree taken spell k) ∉ taken := by
  fun_induction firstFree taken spell k with
  | case1 taken k h ih =>
    have hlt := le_firstFree (taken.erase (spell k)) spell (k + 1)
    intro hmem
    refine ih ((List.mem_erase_of_ne fun heq => ?_).2 hmem)
    have := hspell _ _ heq
    omega
  | case2 _ _ h => exact h

/-! ### Allocators -/

/-- The names that are taken, and for each stem the number at which the next search starts. -/
structure FreshNames where
  taken : List String := []
  counters : List (String × Nat) := []
deriving DecidableEq, Repr, Inhabited

namespace FreshNames

/-- The allocator for which exactly the names of the grammar are taken. -/
def ofGrammar (g : Grammar) : FreshNames :=
  { taken := g.nonterminals ++ g.terminals }

/-- Whether a name is in use. -/
def isTaken (names : FreshNames) (name : String) : Bool :=
  names.taken.contains name

/-- Marks a name as in use. -/
def take (names : FreshNames) (name : String) : FreshNames :=
  { names with taken := name :: names.taken }

/-- The number at which the search for a stem starts. -/
def counter (names : FreshNames) (stem : String) : Nat :=
  (names.counters.lookup stem).getD 0

/-- Moves the start of the search for a stem. -/
def setCounter (names : FreshNames) (stem : String) (k : Nat) : FreshNames :=
  { names with counters := (stem, k) :: names.counters.filter fun entry => entry.1 != stem }

/-- The base with a number behind an underscore. -/
def suffixed (base : String) (k : Nat) : String :=
  base ++ "_" ++ toString k

/-- The stem with a number behind it. -/
def spelled (stem : String) (k : Nat) : String :=
  stem ++ toString k

/-- The base itself if it is free, else the first free name among `base_1`, `base_2`, and so on. -/
def fresh (names : FreshNames) (base : String) : String × FreshNames :=
  let name :=
    if base ∈ names.taken then suffixed base (firstFree names.taken (suffixed base) 1) else base
  (name, names.take name)

/-- The next free name among `stem0`, `stem1`, and so on. -/
def numbered (names : FreshNames) (stem : String) : String × FreshNames :=
  let k := firstFree names.taken (spelled stem) (names.counter stem)
  (spelled stem k, (names.take (spelled stem k)).setCounter stem (k + 1))

/-! ### What is taken afterwards -/

@[simp] theorem taken_setCounter (names : FreshNames) (stem : String) (k : Nat) :
    (names.setCounter stem k).taken = names.taken := rfl

@[simp] theorem taken_fresh (names : FreshNames) (base : String) :
    (names.fresh base).2.taken = (names.fresh base).1 :: names.taken := rfl

@[simp] theorem taken_numbered (names : FreshNames) (stem : String) :
    (names.numbered stem).2.taken = (names.numbered stem).1 :: names.taken := rfl

end FreshNames

end ChomskyChart
