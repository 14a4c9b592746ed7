import ChomskyChart.Proofs.Forest.Trees

/-!
# Counting trees

The number of trees follows the recursion by which they are listed: the trees for one derivation are
the pairs of a left and a right one, so their numbers are multiplied, and those of the derivations
of a cell are added. Counting does the same with numbers that stop at the limit, and does each cell
only once. Neither makes a difference to the result. Sums and products of numbers that were cut off
at the limit are, once cut off themselves, those of the numbers before. And every known count is the
one that would be found again, which is the invariant of the table.

Nothing is assumed of the chart.

## Main definitions

* `Forest.numberAt`: the number of trees over a span, without a limit
* `Forest.addDerivation`: counting the trees for one more derivation
* `Forest.CountsRight`: the invariant of the known counts

## Main results

* `length_of_treesAt`: as many trees are listed
* `countAt_spec`: as many are counted, up to the limit
* `count_eq`: counting is listing, up to the limit
-/

namespace ChomskyChart

namespace Forest

/-! ### Numbers that stop at the limit -/

theorem countLimit_pos : 0 < countLimit := by decide

theorem addCounts_min (a b : Nat) :
    addCounts (min a countLimit) (min b countLimit) = min (a + b) countLimit := by
  rw [addCounts]
  omega

theorem mulCounts_min (a b : Nat) :
    mulCounts (min a countLimit) (min b countLimit) = min (a * b) countLimit := by
  -- a factor beyond the limit is cut off, but then the product is beyond it too, or it is zero
  have hbeyond : ∀ a b : Nat, countLimit ≤ a →
      min (countLimit * min b countLimit) countLimit = min (a * b) countLimit := by
    intro a b ha
    rcases Nat.eq_zero_or_pos b with rfl | hb
    · simp
    · rw [Nat.min_eq_right (Nat.le_mul_of_pos_right _ (Nat.lt_min.2 ⟨hb, countLimit_pos⟩)),
        Nat.min_eq_right (Nat.le_trans ha (Nat.le_mul_of_pos_right _ hb))]
  rw [mulCounts]
  rcases Nat.le_total countLimit a with ha | ha
  · rw [Nat.min_eq_right ha, hbeyond a b ha]
  · rcases Nat.le_total countLimit b with hb | hb
    · rw [Nat.min_eq_right hb, Nat.mul_comm, hbeyond b a hb, Nat.mul_comm]
    · rw [Nat.min_eq_left ha, Nat.min_eq_left hb]

/-! ### The number of trees -/

variable {f : Forest}

/-- The number of trees of nonterminal `v` over the span from `i` to `j`. -/
def numberAt (f : Forest) (i j v : Nat) : Nat :=
  ((f.chart.derivations i j v).map fun
    | .terminal _ => 1
    | .binary split _ left right =>
      if _h : i ≤ split ∧ split < j then
        f.numberAt i split left * f.numberAt (split + 1) j right
      else
        0).sum
termination_by j - i

/-- The number of trees that choose the derivation at the root. -/
def numberBy (f : Forest) (i j : Nat) : Derivation → Nat
  | .terminal _ => 1
  | .binary split _ left right =>
    if i ≤ split ∧ split < j then
      f.numberAt i split left * f.numberAt (split + 1) j right
    else
      0

theorem numberAt_eq (i j v : Nat) :
    f.numberAt i j v = ((f.chart.derivations i j v).map (f.numberBy i j)).sum := by
  rw [numberAt]
  refine congrArg (fun number => ((f.chart.derivations i j v).map number).sum) (funext fun d => ?_)
  cases d <;> rfl

/-- **As many trees are listed.** -/
theorem length_of_treesAt {i j v : Nat} {trees : List ParseTree}
    (h : f.treesAt i j v = .ok trees) : trees.length = f.numberAt i j v := by
  induction hn : j - i using Nat.strong_induction_on generalizing i j v trees with
  | _ n ih =>
    subst hn
    have hexpand : ∀ d trees, f.expand i j v d = .ok trees → f.numberBy i j d = trees.length := by
      intro d trees hd
      cases d with
      | terminal t =>
        obtain ⟨leaf, -, hleaf⟩ := bind_eq_ok_iff.1 hd
        exact Except.ok.inj hleaf ▸ rfl
      | binary split number left right =>
        rw [expand] at hd
        rw [numberBy]
        split at hd
        · rename_i hsplit
          obtain ⟨name, -, hd⟩ := bind_eq_ok_iff.1 hd
          obtain ⟨lefts, hlefts, hd⟩ := bind_eq_ok_iff.1 hd
          obtain ⟨rights, hrights, hd⟩ := bind_eq_ok_iff.1 hd
          rw [if_pos hsplit, ← ih _ (by omega) hlefts rfl, ← ih _ (by omega) hrights rfl,
            ← Except.ok.inj hd]
          simp
        · rename_i hsplit
          rw [if_neg hsplit, ← Except.ok.inj hd, List.length_nil]
    rw [treesAt_eq] at h
    obtain ⟨lists, hlists, h⟩ := bind_eq_ok_iff.1 h
    have hnumbers : (f.chart.derivations i j v).map (f.numberBy i j) = lists.map List.length := by
      rw [← List.forall₂_eq_eq_eq, List.forall₂_map_left_iff, List.forall₂_map_right_iff]
      exact (mapM_eq_ok_iff.1 hlists).imp hexpand
    rw [← Except.ok.inj h, List.length_flatten, numberAt_eq, hnumbers]

/-! ### Counting -/

/-- Counts the trees for one more derivation. -/
def addDerivation (f : Forest) (i j : Nat) (counted : Nat × KnownCounts) :
    Derivation → Nat × KnownCounts
  | .terminal _ => (addCounts counted.1 1, counted.2)
  | .binary split _ left right =>
    if i ≤ split ∧ split < j then
      let lefts := f.countAt i split left counted.2
      let rights := f.countAt (split + 1) j right lefts.2
      (addCounts counted.1 (mulCounts lefts.1 rights.1), rights.2)
    else
      counted

theorem countAt_of_known {i j v count : Nat} {known : KnownCounts}
    (h : known[(i, j, v)]? = some count) : f.countAt i j v known = (count, known) := by
  rw [countAt, h]

theorem countAt_of_unknown {i j v : Nat} {known : KnownCounts} (h : known[(i, j, v)]? = none) :
    f.countAt i j v known =
      let counted := (f.chart.derivations i j v).foldl (f.addDerivation i j) (0, known)
      (counted.1, counted.2.insert (i, j, v) counted.1) := by
  rw [countAt, h]
  refine congrArg (fun step : Nat × KnownCounts → Derivation → Nat × KnownCounts =>
    let counted := (f.chart.derivations i j v).foldl step (0, known)
    (counted.1, counted.2.insert (i, j, v) counted.1)) (funext fun counted => funext fun d => ?_)
  cases d <;> rfl

/-- Every known count is right. -/
def CountsRight (f : Forest) (known : KnownCounts) : Prop :=
  ∀ i j v count, known[(i, j, v)]? = some count → count = min (f.numberAt i j v) countLimit

theorem countsRight_empty : f.CountsRight ∅ := by
  intro i j v count h
  simp at h

theorem CountsRight.insert {known : KnownCounts} (h : f.CountsRight known) {i j v : Nat} :
    f.CountsRight (known.insert (i, j, v) (min (f.numberAt i j v) countLimit)) := by
  intro i' j' v' count hcount
  rw [Std.HashMap.getElem?_insert] at hcount
  split at hcount
  · rename_i heq
    obtain ⟨rfl, rfl, rfl⟩ : i = i' ∧ j = j' ∧ v = v' := by simpa using heq
    exact (Option.some.inj hcount).symm
  · exact h i' j' v' count hcount

/-- A pass over derivations counts their trees, if counting is right for the parts. -/
theorem foldl_addDerivation {i j : Nat}
    (hparts : ∀ i' j' v' known, j' - i' < j - i → f.CountsRight known →
      (f.countAt i' j' v' known).1 = min (f.numberAt i' j' v') countLimit ∧
        f.CountsRight (f.countAt i' j' v' known).2)
    (ds : List Derivation) (n : Nat) {known : KnownCounts} (hknown : f.CountsRight known) :
    let counted := ds.foldl (f.addDerivation i j) (min n countLimit, known)
    counted.1 = min (n + (ds.map (f.numberBy i j)).sum) countLimit ∧ f.CountsRight counted.2 := by
  induction ds generalizing n known with
  | nil => exact ⟨by simp, hknown⟩
  | cons d rest ih =>
    have hstep : ∃ known', f.CountsRight known' ∧
        f.addDerivation i j (min n countLimit, known) d =
          (min (n + f.numberBy i j d) countLimit, known') := by
      cases d with
      | terminal t => exact ⟨known, hknown, by rw [addDerivation, numberBy, addCounts]; simp; omega⟩
      | binary split number left right =>
        rw [addDerivation, numberBy]
        by_cases hsplit : i ≤ split ∧ split < j
        · obtain ⟨hl, hlknown⟩ := hparts i split left known (by omega) hknown
          obtain ⟨hr, hrknown⟩ := hparts (split + 1) j right _ (by omega) hlknown
          refine ⟨_, hrknown, ?_⟩
          simp only [if_pos hsplit, hl, hr, mulCounts_min, addCounts_min]
        · exact ⟨known, hknown, by simp only [if_neg hsplit, Nat.add_zero]⟩
    obtain ⟨known', hknown', heq⟩ := hstep
    rw [List.foldl_cons, heq, List.map_cons, List.sum_cons, ← Nat.add_assoc]
    exact ih _ hknown'

/-- **As many trees are counted,** up to the limit. -/
theorem countAt_spec {i j v : Nat} {known : KnownCounts} (hknown : f.CountsRight known) :
    (f.countAt i j v known).1 = min (f.numberAt i j v) countLimit ∧
      f.CountsRight (f.countAt i j v known).2 := by
  induction hn : j - i using Nat.strong_induction_on generalizing i j v known with
  | _ n ih =>
    subst hn
    cases hcount : known[(i, j, v)]? with
    | some count =>
      rw [countAt_of_known hcount]
      exact ⟨hknown i j v count hcount, hknown⟩
    | none =>
      rw [countAt_of_unknown hcount]
      obtain ⟨htotal, hcounted⟩ := foldl_addDerivation
        (fun i' j' v' known hlt hknown => ih _ hlt hknown rfl)
        (f.chart.derivations i j v) 0 hknown
      rw [Nat.zero_add, ← numberAt_eq] at htotal
      rw [Nat.zero_min] at htotal hcounted
      refine ⟨htotal, ?_⟩
      show f.CountsRight (Std.HashMap.insert _ _ _)
      rw [htotal]
      exact hcounted.insert

/-- **Counting is listing,** up to the limit. -/
theorem count_eq {trees : List ParseTree} (h : f.trees = .ok trees) :
    f.count = min trees.length countLimit := by
  rw [Forest.trees] at h
  rw [count]
  cases hlength : f.tokens.length with
  | zero =>
    simp only [hlength] at h
    obtain ⟨name, -, h⟩ := bind_eq_ok_iff.1 h
    exact Except.ok.inj h ▸ (Nat.min_eq_left countLimit_pos).symm
  | succ last =>
    simp only [hlength] at h
    rw [length_of_treesAt h]
    exact (countAt_spec countsRight_empty).1

end Forest

end ChomskyChart
