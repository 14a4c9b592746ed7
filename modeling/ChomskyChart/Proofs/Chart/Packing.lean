import Mathlib.Algebra.Group.Nat.Even
import Mathlib.Tactic.Ring
import ChomskyChart.Chart.Basic

/-!
# Cells do not overlap

Row `i` of the triangle starts where the row above it ends, so two spans share a cell only if they
are equal, and within a cell the nonterminals have places of their own. What is pushed for a span
and a nonterminal is therefore seen there and nowhere else.

## Main definitions

* `rowOffset`: how many cells the rows above a row have
* `Chart.Covers`: the spans and nonterminals that have a place
* `Chart.pushAll`: several derivations for one span

## Main results

* `Chart.slot?_inj`, `Chart.slot?_lt_size`: places are different, and they exist
* `Chart.derivations_push`, `Chart.derivations_pushAll`: what is read after writing
-/

namespace ChomskyChart

/-! ### Rows of the triangle -/

/-- How many cells the rows above row `i` have. -/
def rowOffset (size i : Nat) : Nat :=
  i * (2 * size - i + 1) / 2

section

variable {size i i' j j' : Nat}

/-- The division in the offset is exact. -/
theorem two_mul_rowOffset (h : i ≤ size) : 2 * rowOffset size i = i * (2 * size - i + 1) := by
  obtain ⟨d, rfl⟩ := Nat.exists_eq_add_of_le h
  have hsub : 2 * (i + d) - i + 1 = (i + 1) + 2 * d := by omega
  refine Nat.two_mul_div_two_of_even ?_
  rw [hsub, Nat.mul_add, Nat.mul_left_comm]
  exact (Nat.even_mul_succ_self i).add (even_two_mul _)

/-- Row `i` has a cell for each last token from `i` on. -/
theorem rowOffset_succ (h : i < size) : rowOffset size (i + 1) = rowOffset size i + (size - i) := by
  obtain ⟨d, rfl⟩ := Nat.exists_eq_add_of_lt h
  have hthis : 2 * rowOffset (i + d + 1) i = _ := two_mul_rowOffset (by omega)
  have hnext : 2 * rowOffset (i + d + 1) (i + 1) = _ := two_mul_rowOffset (by omega)
  rw [show 2 * (i + d + 1) - i + 1 = i + 2 * d + 3 by omega] at hthis
  rw [show 2 * (i + d + 1) - (i + 1) + 1 = i + 2 * d + 2 by omega] at hnext
  have hcells : (i + 1) * (i + 2 * d + 2) = i * (i + 2 * d + 3) + 2 * (d + 1) := by ring
  omega

theorem rowOffset_add_le (h : i < i') (hsize : i' ≤ size) :
    rowOffset size i + (size - i) ≤ rowOffset size i' := by
  induction i', h using Nat.le_induction with
  | base => exact Nat.le_of_eq (rowOffset_succ hsize).symm
  | succ k _ ih =>
    rw [rowOffset_succ hsize]
    have := ih (Nat.le_of_lt hsize)
    omega

theorem rowOffset_size : rowOffset size size = cellCount size := by
  rw [rowOffset, cellCount, show 2 * size - size = size by omega]

theorem cell_lt_cellCount (hij : i ≤ j) (hj : j < size) :
    rowOffset size i + (j - i) < cellCount size := by
  have := rowOffset_add_le (Nat.lt_of_le_of_lt hij hj) (Nat.le_refl size)
  rw [rowOffset_size] at this
  omega

/-- **Different spans have different cells.** -/
theorem cell_inj (hij : i ≤ j) (hj : j < size) (hij' : i' ≤ j') (hj' : j' < size)
    (h : rowOffset size i + (j - i) = rowOffset size i' + (j' - i')) : i = i' ∧ j = j' := by
  rcases Nat.lt_trichotomy i i' with hlt | rfl | hgt
  · have := rowOffset_add_le hlt (by omega : i' ≤ size)
    omega
  · omega
  · have := rowOffset_add_le hgt (by omega : i ≤ size)
    omega

end

namespace Chart

variable {c : Chart} {i j v i' j' v' slot : Nat}

/-! ### Places -/

/-- The span lies in the chart and the nonterminal exists. -/
def Covers (c : Chart) (i j v : Nat) : Prop :=
  i ≤ j ∧ j < c.size ∧ v < c.width

instance (c : Chart) (i j v : Nat) : Decidable (c.Covers i j v) :=
  inferInstanceAs (Decidable (_ ∧ _))

theorem slot?_of_covers (h : c.Covers i j v) :
    c.slot? i j v = some ((rowOffset c.size i + (j - i)) * c.width + v) :=
  if_pos h

theorem slot?_of_not_covers (h : ¬c.Covers i j v) : c.slot? i j v = none :=
  if_neg h

theorem slot?_lt_size (h : c.slot? i j v = some slot) : slot < c.cells.size := by
  have hcovers := slot?_isSome_iff.1 (Option.isSome_of_eq_some h)
  rw [slot?_of_covers hcovers, Option.some.injEq] at h
  obtain ⟨hij, hj, hv⟩ := hcovers
  have hcell := Nat.mul_le_mul_right c.width (cell_lt_cellCount hij hj)
  rw [Nat.succ_mul] at hcell
  rw [c.size_cells]
  omega

/-- **Different entries have different places.** -/
theorem slot?_inj (h : c.slot? i j v = some slot) (h' : c.slot? i' j' v' = some slot) :
    i = i' ∧ j = j' ∧ v = v' := by
  have hcovers := slot?_isSome_iff.1 (Option.isSome_of_eq_some h)
  have hcovers' := slot?_isSome_iff.1 (Option.isSome_of_eq_some h')
  rw [slot?_of_covers hcovers, Option.some.injEq] at h
  rw [slot?_of_covers hcovers', Option.some.injEq, ← h] at h'
  obtain ⟨hij, hj, hv⟩ := hcovers
  obtain ⟨hij', hj', hv'⟩ := hcovers'
  -- the nonterminal is the remainder by the width, and the cell is the quotient
  have hrest : v' = v := by
    have := congrArg (· % c.width) h'
    simpa [Nat.mul_add_mod_self_right, Nat.mod_eq_of_lt hv, Nat.mod_eq_of_lt hv'] using this
  have hcell : rowOffset c.size i' + (j' - i') = rowOffset c.size i + (j - i) :=
    Nat.eq_of_mul_eq_mul_right (Nat.zero_lt_of_lt hv) (by omega)
  obtain ⟨hi, hj⟩ := cell_inj hij' hj' hij hj hcell
  exact ⟨hi.symm, hj.symm, hrest.symm⟩

/-! ### Reading after writing -/

theorem derivations_of_not_covers (h : ¬c.Covers i j v) : c.derivations i j v = [] := by
  rw [derivations, slot?_of_not_covers h]

theorem covers_push {d : Derivation} : (c.push i' j' v' d).Covers i j v ↔ c.Covers i j v := by
  rw [Covers, Covers, size_push, width_push]

/-- **A derivation that is pushed is read at its own entry only.** -/
theorem derivations_push (d : Derivation) :
    (c.push i j v d).derivations i' j' v' =
      c.derivations i' j' v' ++ if c.Covers i j v ∧ i' = i ∧ j' = j ∧ v' = v then [d] else [] := by
  by_cases hcovers : c.Covers i j v
  · have hslot := slot?_of_covers hcovers
    have hlt := slot?_lt_size hslot
    generalize (rowOffset c.size i + (j - i)) * c.width + v = slot at hslot hlt
    have hpush : c.push i j v d =
        { c with
          cells := c.cells.modify slot fun ds => ds ++ [d]
          size_cells := by simp [c.size_cells] } := by
      rw [push, hslot]
    have hsame : (c.push i j v d).slot? i' j' v' = c.slot? i' j' v' := by
      rw [slot?, slot?, size_push, width_push]
    rw [derivations, derivations, hsame]
    cases hslot' : c.slot? i' j' v' with
    | none =>
      rw [if_neg]
      · rfl
      · rintro ⟨-, rfl, rfl, rfl⟩
        exact absurd (hslot.symm.trans hslot') (Option.some_ne_none _)
    | some slot' =>
      rw [hpush]
      show ((c.cells.modify slot fun ds => ds ++ [d])[slot']?).getD [] =
        (c.cells[slot']?).getD [] ++ _
      rw [Array.getElem?_modify]
      by_cases heq : slot = slot'
      · obtain ⟨rfl, rfl, rfl⟩ := slot?_inj hslot (heq ▸ hslot')
        rw [if_pos heq, if_pos ⟨hcovers, rfl, rfl, rfl⟩, ← heq, Array.getElem?_eq_getElem hlt]
        rfl
      · rw [if_neg heq, if_neg, List.append_nil]
        rintro ⟨-, rfl, rfl, rfl⟩
        exact heq (Option.some.inj (hslot.symm.trans hslot'))
  · rw [push, slot?_of_not_covers hcovers, if_neg fun h => hcovers h.1, List.append_nil]

/-! ### Several derivations -/

/-- What is found for nonterminal `v`, in order. -/
def findingsOf (v : Nat) (findings : List (Nat × Derivation)) : List Derivation :=
  findings.filterMap fun finding => if finding.1 = v then some finding.2 else none

@[simp] theorem findingsOf_nil : findingsOf v [] = [] := rfl

theorem findingsOf_cons (finding : Nat × Derivation) (findings : List (Nat × Derivation)) :
    findingsOf v (finding :: findings) =
      (if finding.1 = v then [finding.2] else []) ++ findingsOf v findings := by
  rw [findingsOf, List.filterMap_cons]
  by_cases hhead : finding.1 = v
  · rw [if_pos hhead, if_pos hhead]
    rfl
  · rw [if_neg hhead, if_neg hhead]
    rfl

theorem mem_findingsOf_iff {d : Derivation} {findings : List (Nat × Derivation)} :
    d ∈ findingsOf v findings ↔ (v, d) ∈ findings := by
  rw [findingsOf, List.mem_filterMap]
  constructor
  · rintro ⟨⟨head, d'⟩, hmem, heq⟩
    by_cases hhead : head = v
    · rw [if_pos hhead, Option.some.injEq] at heq
      exact hhead ▸ heq ▸ hmem
    · exact nomatch (if_neg hhead).symm.trans heq
  · intro hmem
    exact ⟨(v, d), hmem, if_pos rfl⟩

/-- Adds derivations for the span from `i` to `j` one after another. -/
def pushAll (c : Chart) (i j : Nat) (findings : List (Nat × Derivation)) : Chart :=
  findings.foldl (fun c finding => c.push i j finding.1 finding.2) c

@[simp] theorem pushAll_cons (finding : Nat × Derivation) (findings : List (Nat × Derivation)) :
    c.pushAll i j (finding :: findings) = (c.push i j finding.1 finding.2).pushAll i j findings :=
  rfl

@[simp] theorem size_pushAll (findings : List (Nat × Derivation)) :
    (c.pushAll i j findings).size = c.size := by
  induction findings generalizing c with
  | nil => rfl
  | cons finding rest ih => rw [pushAll_cons, ih, size_push]

@[simp] theorem width_pushAll (findings : List (Nat × Derivation)) :
    (c.pushAll i j findings).width = c.width := by
  induction findings generalizing c with
  | nil => rfl
  | cons finding rest ih => rw [pushAll_cons, ih, width_push]

theorem derivations_pushAll (findings : List (Nat × Derivation)) :
    (c.pushAll i j findings).derivations i' j' v =
      c.derivations i' j' v ++
        if c.Covers i j v ∧ i' = i ∧ j' = j then findingsOf v findings else [] := by
  induction findings generalizing c with
  | nil => rw [findingsOf_nil, ite_self, List.append_nil, pushAll, List.foldl_nil]
  | cons finding rest ih =>
    rw [pushAll_cons, ih, derivations_push, findingsOf_cons, List.append_assoc]
    simp only [covers_push]
    by_cases hplace : c.Covers i j v ∧ i' = i ∧ j' = j
    · rw [if_pos hplace, if_pos hplace]
      by_cases hhead : finding.1 = v
      · subst hhead
        rw [if_pos rfl, if_pos ⟨hplace.1, hplace.2.1, hplace.2.2, rfl⟩]
      · rw [if_neg hhead, if_neg fun h => hhead h.2.2.2.symm]
    · rw [if_neg hplace, if_neg hplace, if_neg]
      · rfl
      · rintro ⟨hcovers, hi, hj, rfl⟩
        exact hplace ⟨hcovers, hi, hj⟩

/-- The other spans are left alone. -/
theorem derivations_pushAll_of_ne (findings : List (Nat × Derivation)) (h : (i', j') ≠ (i, j)) :
    (c.pushAll i j findings).derivations i' j' v = c.derivations i' j' v := by
  rw [derivations_pushAll, if_neg, List.append_nil]
  rintro ⟨-, rfl, rfl⟩
  exact h rfl

end Chart

end ChomskyChart
