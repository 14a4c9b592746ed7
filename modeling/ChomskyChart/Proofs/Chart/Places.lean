import ChomskyChart.Proofs.Chart.Packing

/-!
# Every place is used

The rows of the triangle follow each other without gaps, and so do the nonterminals within a cell.
So each place in the store of a chart belongs to one span and one nonterminal, and the store is
exactly as large as it has to be.

## Computing a place in bounded numbers

The place is a formula with two subtractions and a division. On natural numbers these are total: a
difference below zero is zero and a half is rounded down. `placeBelow?` computes the same formula
with steps that have no result where that would happen, and none either if the result reaches a
given limit. It agrees with `Chart.slot?` wherever there is a place, so none of this ever happens in
a chart whose store and whose square fit below the limit.

## Main definitions

* `addBelow?`, `mulBelow?`, `sub?`, `half?`: arithmetic that stops where a number does not fit
* `placeBelow?`: the formula for a place in this arithmetic

## Main results

* `exists_cell`: every cell of the store belongs to a span
* `placeBelow?_eq`: no step of the formula overflows, goes below zero or rounds
* `Chart.places_bijective`: places, and what is read and written there
-/

namespace ChomskyChart

/-! ### Every cell belongs to a span -/

section

variable {size cell i j v width limit : Nat}

/-- A cell before row `k` lies in one of the rows before it. -/
theorem exists_row {k : Nat} (hk : k ≤ size) (hcell : cell < rowOffset size k) :
    ∃ i < k, rowOffset size i ≤ cell ∧ cell < rowOffset size (i + 1) := by
  induction k with
  | zero => exact absurd hcell (by simp [rowOffset])
  | succ k ih =>
    rcases Nat.lt_or_ge cell (rowOffset size k) with hlt | hge
    · obtain ⟨i, hi, hrow⟩ := ih (Nat.le_of_succ_le hk) hlt
      exact ⟨i, Nat.lt_succ_of_lt hi, hrow⟩
    · exact ⟨k, Nat.lt_succ_self k, hge, hcell⟩

/-- **Every cell belongs to a span.** -/
theorem exists_cell (hcell : cell < cellCount size) :
    ∃ i j, i ≤ j ∧ j < size ∧ rowOffset size i + (j - i) = cell := by
  rw [← rowOffset_size] at hcell
  obtain ⟨i, hi, hfrom, hto⟩ := exists_row (Nat.le_refl size) hcell
  rw [rowOffset_succ hi] at hto
  exact ⟨i, i + (cell - rowOffset size i), by omega, by omega, by omega⟩

/-! ### Arithmetic that stops where a number does not fit -/

/-- The sum, if it is below the limit. -/
def addBelow? (limit a b : Nat) : Option Nat :=
  if a + b < limit then some (a + b) else none

/-- The product, if it is below the limit. -/
def mulBelow? (limit a b : Nat) : Option Nat :=
  if a * b < limit then some (a * b) else none

/-- The difference, if it is not below zero. -/
def sub? (a b : Nat) : Option Nat :=
  if b ≤ a then some (a - b) else none

/-- The half of an even number. -/
def half? (a : Nat) : Option Nat :=
  if 2 ∣ a then some (a / 2) else none

/-- The place of nonterminal `v` for the span from `i` to `j`, computed step by step. -/
def placeBelow? (limit size width i j v : Nat) : Option Nat := do
  let double ← mulBelow? limit 2 size
  let factor ← addBelow? limit (← sub? double i) 1
  let row ← half? (← mulBelow? limit i factor)
  let cell ← sub? (← addBelow? limit row j) i
  addBelow? limit (← mulBelow? limit cell width) v

/-- **No step of the formula fails** if the square of the sentence and the store are below the
limit. -/
theorem placeBelow?_eq (hij : i ≤ j) (hj : j < size) (hv : v < width)
    (hsquare : size * (2 * size + 1) < limit) (hstore : cellCount size * width < limit) :
    placeBelow? limit size width i j v =
      some ((rowOffset size i + (j - i)) * width + v) := by
  have heven : 2 * rowOffset size i = i * (2 * size - i + 1) := two_mul_rowOffset (by omega)
  have hcell := cell_lt_cellCount hij hj
  have hstep : size ≤ size * size := Nat.le_mul_self size
  have hsquare' : size * (2 * size + 1) = 2 * (size * size) + size := by ring
  have hcount : 2 * cellCount size ≤ size * size + size := by
    have := Nat.mul_div_le (size * (size + 1)) 2
    rw [Nat.mul_succ] at this
    exact this
  have hproduct : i * (2 * size - i + 1) ≤ size * (2 * size + 1) :=
    Nat.mul_le_mul (by omega) (by omega)
  have hlast : (rowOffset size i + (j - i)) * width + width ≤ cellCount size * width := by
    rw [← Nat.succ_mul]
    exact Nat.mul_le_mul_right width hcell
  -- the steps of the formula, from the innermost one on
  have hdouble : mulBelow? limit 2 size = some (2 * size) := if_pos (by omega)
  have hminus : sub? (2 * size) i = some (2 * size - i) := if_pos (by omega)
  have hfactor : addBelow? limit (2 * size - i) 1 = some (2 * size - i + 1) := if_pos (by omega)
  have htwice : mulBelow? limit i (2 * size - i + 1) = some (2 * rowOffset size i) := by
    rw [heven]
    exact if_pos (by omega)
  have hrow : half? (2 * rowOffset size i) = some (rowOffset size i) := by
    rw [half?, if_pos (Nat.dvd_mul_right 2 _), Nat.mul_div_cancel_left _ Nat.two_pos]
  have hright : addBelow? limit (rowOffset size i) j = some (rowOffset size i + j) :=
    if_pos (by omega)
  have hback : sub? (rowOffset size i + j) i = some (rowOffset size i + (j - i)) := by
    rw [sub?, if_pos (by omega), Nat.add_sub_assoc hij]
  have hstart : mulBelow? limit (rowOffset size i + (j - i)) width =
      some ((rowOffset size i + (j - i)) * width) := if_pos (by omega)
  have hplace : addBelow? limit ((rowOffset size i + (j - i)) * width) v =
      some ((rowOffset size i + (j - i)) * width + v) := if_pos (by omega)
  simp only [placeBelow?, hdouble, hminus, hfactor, htwice, hrow, hright, hback, hstart, hplace,
    Option.bind_eq_bind, Option.bind_some]

end

namespace Chart

variable {c : Chart} {i j v i' j' v' slot : Nat}

theorem slot?_eq_none_iff : c.slot? i j v = none ↔ ¬c.Covers i j v := by
  rw [← Option.not_isSome_iff_eq_none, slot?_isSome_iff]
  rfl

/-- **Every place of the store is the place of an entry.** -/
theorem exists_slot?_eq (h : slot < c.cells.size) : ∃ i j v, c.slot? i j v = some slot := by
  rw [c.size_cells] at h
  have hwidth : 0 < c.width := Nat.pos_of_mul_pos_left (Nat.zero_lt_of_lt h)
  obtain ⟨i, j, hij, hj, hcell⟩ := exists_cell (Nat.div_lt_of_lt_mul (Nat.mul_comm _ _ ▸ h))
  refine ⟨i, j, slot % c.width, ?_⟩
  rw [slot?_of_covers ⟨hij, hj, Nat.mod_lt slot hwidth⟩, hcell, Nat.div_add_mod']

/-! ### Writing -/

theorem push_of_not_covers {d : Derivation} (h : ¬c.Covers i j v) : c.push i j v d = c := by
  rw [push, slot?_of_not_covers h]

/-- **Entries and places correspond one to one.** The store has exactly the places of the entries of
the triangle, no step of the formula for a place leaves the numbers below the limit, and what is
pushed is read at its own entry only. -/
theorem places_bijective (c : Chart) :
    c.cells.size = c.size * (c.size + 1) / 2 * c.width ∧
    (∀ i j v, c.slot? i j v = none ↔ ¬(i ≤ j ∧ j < c.size ∧ v < c.width)) ∧
    (∀ i j v slot, c.slot? i j v = some slot → slot < c.cells.size) ∧
    (∀ slot < c.cells.size,
      ∃! entry : Nat × Nat × Nat, c.slot? entry.1 entry.2.1 entry.2.2 = some slot) ∧
    (∀ limit, c.size * (2 * c.size + 1) < limit → c.cells.size < limit →
      ∀ i j v, i ≤ j → j < c.size → v < c.width →
        placeBelow? limit c.size c.width i j v = c.slot? i j v) ∧
    (∀ i j v d, i ≤ j → j < c.size → v < c.width → ∀ i' j' v',
      (c.push i j v d).derivations i' j' v' =
        if (i', j', v') = (i, j, v) then c.derivations i' j' v' ++ [d]
        else c.derivations i' j' v') ∧
    ∀ i j v d, ¬(i ≤ j ∧ j < c.size ∧ v < c.width) → c.push i j v d = c := by
  refine ⟨c.size_cells, fun _ _ _ => slot?_eq_none_iff, fun _ _ _ _ => slot?_lt_size,
    fun slot hslot => ?_, fun limit hsquare hstore i j v hij hj hv => ?_,
    fun i j v d hij hj hv i' j' v' => ?_, fun _ _ _ _ => push_of_not_covers⟩
  · obtain ⟨i, j, v, h⟩ := exists_slot?_eq hslot
    refine ⟨(i, j, v), h, fun entry hentry => ?_⟩
    obtain ⟨hi, hj, hv⟩ := slot?_inj hentry h
    exact Prod.ext hi (Prod.ext hj hv)
  · rw [slot?_of_covers ⟨hij, hj, hv⟩]
    exact placeBelow?_eq hij hj hv hsquare (c.size_cells ▸ hstore)
  · rw [derivations_push]
    by_cases hentry : (i', j', v') = (i, j, v)
    · obtain ⟨rfl, rfl, rfl⟩ : i' = i ∧ j' = j ∧ v' = v := by simpa using hentry
      rw [if_pos rfl, if_pos ⟨⟨hij, hj, hv⟩, rfl, rfl, rfl⟩]
    · rw [if_neg hentry, if_neg, List.append_nil]
      rintro ⟨-, rfl, rfl, rfl⟩
      exact hentry rfl

/-- A chart for four tokens and three nonterminals, in numbers that are just large enough. -/
theorem places_bijective_four :
    (empty 4 3).cells.size = 30 ∧
    (∃! entry : Nat × Nat × Nat, (empty 4 3).slot? entry.1 entry.2.1 entry.2.2 = some 17) ∧
    (placeBelow? 37 4 3 1 2 2 = (empty 4 3).slot? 1 2 2 ∧ (empty 4 3).slot? 1 2 2 = some 17) ∧
    ((empty 4 3).push 1 2 2 (.terminal 0)).derivations 1 2 2 = [.terminal 0] ∧
    ((empty 4 3).push 1 2 2 (.terminal 0)).derivations 1 3 2 = [] ∧
    (empty 4 3).push 2 1 0 (.terminal 0) = empty 4 3 := by
  obtain ⟨-, -, -, hplaces, hlimit, hpush, hnone⟩ := places_bijective (empty 4 3)
  refine ⟨rfl, hplaces 17 (by decide),
    ⟨hlimit 37 (by decide) (by decide) 1 2 2 (by decide) (by decide) (by decide), rfl⟩, ?_, ?_,
    hnone 2 1 0 _ (by decide)⟩
  · rw [hpush 1 2 2 _ (by decide) (by decide) (by decide), if_pos rfl, derivations_empty]
    rfl
  · rw [hpush 1 2 2 _ (by decide) (by decide) (by decide), if_neg (by decide), derivations_empty]

end Chart

end ChomskyChart
