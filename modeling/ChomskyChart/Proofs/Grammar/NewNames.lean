import Mathlib.Data.List.Nodup
import ChomskyChart.FreshNames
import ChomskyChart.Grammar.Validate

/-!
# New names keep a grammar well-formed

Nonterminals are added under names from an allocator. That no name is given twice, and none that the
grammar has, rests on one fact about each way of making names: numbers are spelled in different
ways, so the search for a free number ends at a name that is not taken.

What an allocator gives out is summed up by `FreshNames.Draws`, whichever operations were used. A
grammar whose names are all taken can then be extended by any draw.

## Main definitions

* `FreshNames.numberedMany`: several numbered names at once
* `FreshNames.Draws`: the names given out between two states of an allocator
* `FreshNames.Covers`: all names of a grammar are taken

## Main results

* `draws_fresh`, `draws_numberedMany`: what is drawn
* `Grammar.WellFormed.extend`: a grammar with nonterminals under drawn names
-/

namespace ChomskyChart

namespace FreshNames

/-! ### Spelled numbers -/

theorem toString_injective {i j : Nat} (h : toString i = toString j) : i = j := by
  rw [Nat.toString_eq_ofList_toDigits, Nat.toString_eq_ofList_toDigits, String.ofList_inj] at h
  rw [← Nat.ofDigitChars_toDigits (b := 10) (n := i) (by decide) (by decide), h,
    Nat.ofDigitChars_toDigits (by decide) (by decide)]

theorem spelled_injective (stem : String) {i j : Nat} (h : spelled stem i = spelled stem j) :
    i = j :=
  toString_injective ((String.append_right_inj stem).1 h)

theorem suffixed_injective (base : String) {i j : Nat} (h : suffixed base i = suffixed base j) :
    i = j :=
  toString_injective ((String.append_right_inj (base ++ "_")).1 h)

theorem fresh_not_mem (names : FreshNames) (base : String) :
    (names.fresh base).1 ∉ names.taken := by
  by_cases h : base ∈ names.taken
  · simpa [fresh, h] using firstFree_not_mem (fun i j => suffixed_injective base) 1
  · simp [fresh, h]

theorem numbered_not_mem (names : FreshNames) (stem : String) :
    (names.numbered stem).1 ∉ names.taken :=
  firstFree_not_mem (fun _ _ => spelled_injective stem) _

/-! ### Several names -/

/-- The next `count` numbered names of a stem. -/
def numberedMany (names : FreshNames) (stem : String) : (count : Nat) → List String × FreshNames
  | 0 => ([], names)
  | count + 1 =>
    let (name, names) := names.numbered stem
    let (more, names) := names.numberedMany stem count
    (name :: more, names)

@[simp] theorem length_numberedMany (names : FreshNames) (stem : String) (count : Nat) :
    (names.numberedMany stem count).1.length = count := by
  induction count generalizing names with
  | zero => rfl
  | succ count ih => simp [numberedMany, ih]

/-- The last of several names comes from the allocator that the others leave behind. -/
theorem numberedMany_succ (names : FreshNames) (stem : String) (count : Nat) :
    names.numberedMany stem (count + 1) =
      ((names.numberedMany stem count).1 ++
        [((names.numberedMany stem count).2.numbered stem).1],
        ((names.numberedMany stem count).2.numbered stem).2) := by
  induction count generalizing names with
  | zero => rfl
  | succ count ih =>
    have hfirst : ∀ k, names.numberedMany stem (k + 1) =
        ((names.numbered stem).1 :: ((names.numbered stem).2.numberedMany stem k).1,
          ((names.numbered stem).2.numberedMany stem k).2) := fun _ => rfl
    rw [hfirst, hfirst, ih]
    rfl

/-! ### Draws -/

/-- The allocator gave out exactly the names in `added`, all of them new and no two equal. -/
structure Draws (before : FreshNames) (added : List String) (after : FreshNames) : Prop where
  nodup : added.Nodup
  free : ∀ name ∈ added, name ∉ before.taken
  mem_taken_iff : ∀ name, name ∈ after.taken ↔ name ∈ added ∨ name ∈ before.taken

theorem Draws.nil (names : FreshNames) : names.Draws [] names :=
  ⟨List.nodup_nil, by simp, by simp⟩

theorem Draws.cons {before middle after : FreshNames} {name : String} {more : List String}
    (hfree : name ∉ before.taken) (htaken : middle.taken = name :: before.taken)
    (hmore : middle.Draws more after) : before.Draws (name :: more) after where
  nodup := by
    refine List.nodup_cons.2 ⟨fun hmem => hmore.free name hmem ?_, hmore.nodup⟩
    rw [htaken]
    exact List.mem_cons_self
  free := by
    intro other hother
    rcases List.mem_cons.1 hother with rfl | hother
    · exact hfree
    · intro hmem
      refine hmore.free other hother ?_
      rw [htaken]
      exact List.mem_cons_of_mem _ hmem
  mem_taken_iff := by
    intro other
    rw [hmore.mem_taken_iff, htaken, List.mem_cons, List.mem_cons]
    exact ⟨fun h => by tauto, fun h => by tauto⟩

theorem draws_fresh (names : FreshNames) (base : String) :
    names.Draws [(names.fresh base).1] (names.fresh base).2 :=
  .cons (names.fresh_not_mem base) (names.taken_fresh base) (.nil _)

theorem draws_numberedMany (names : FreshNames) (stem : String) (count : Nat) :
    names.Draws (names.numberedMany stem count).1 (names.numberedMany stem count).2 := by
  induction count generalizing names with
  | zero => exact .nil names
  | succ count ih =>
    exact .cons (names.numbered_not_mem stem) (names.taken_numbered stem) (ih _)

/-! ### Extended grammars -/

/-- All names of the grammar are taken. -/
def Covers (names : FreshNames) (g : Grammar) : Prop :=
  ∀ name, name ∈ g.nonterminals ∨ name ∈ g.terminals → name ∈ names.taken

theorem covers_ofGrammar (g : Grammar) : (ofGrammar g).Covers g :=
  fun _ hname => List.mem_append.2 hname

end FreshNames

namespace Grammar

variable {g r : Grammar} {names after : FreshNames} {added : List String}

/-- **A well-formed grammar stays so under new nonterminals.** Only the names are taken care of
here, the table has to fit them. -/
theorem WellFormed.extend (h : g.WellFormed) (hcovers : names.Covers g)
    (hdraws : names.Draws added after) (hnonterminals : r.nonterminals = g.nonterminals ++ added)
    (hterminals : r.terminals = g.terminals) (hlength : r.rows.length = r.nonterminals.length)
    (hstart : r.start < r.nonterminals.length)
    (hdeclares : ∀ row ∈ r.rows, ∀ body ∈ row, ∀ s ∈ body, r.Declares s) : r.WellFormed where
  length_rows := hlength
  start_lt := hstart
  nodup_nonterminals := by
    rw [hnonterminals]
    refine List.Nodup.append h.nodup_nonterminals hdraws.nodup fun name hold hnew => ?_
    exact hdraws.free name hnew (hcovers name (.inl hold))
  nodup_terminals := hterminals ▸ h.nodup_terminals
  disjoint := by
    intro name hterminal hnonterminal
    rw [hterminals] at hterminal
    rw [hnonterminals] at hnonterminal
    rcases List.mem_append.1 hnonterminal with hold | hnew
    · exact h.disjoint name hterminal hold
    · exact hdraws.free name hnew (hcovers name (.inr hterminal))
  declares := hdeclares

end Grammar

theorem FreshNames.Covers.extend {g r : Grammar} {names after : FreshNames} {added : List String}
    (hcovers : names.Covers g) (hdraws : names.Draws added after)
    (hnonterminals : r.nonterminals = g.nonterminals ++ added)
    (hterminals : r.terminals = g.terminals) : after.Covers r := by
  intro name hname
  rw [hnonterminals, hterminals, List.mem_append] at hname
  rw [hdraws.mem_taken_iff]
  rcases hname with (hold | hnew) | hterminal
  · exact .inr (hcovers name (.inl hold))
  · exact .inl hnew
  · exact .inr (hcovers name (.inr hterminal))

end ChomskyChart
