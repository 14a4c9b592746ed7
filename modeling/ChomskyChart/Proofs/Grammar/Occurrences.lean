import Mathlib.Data.List.Forall2
import Mathlib.Data.List.Nodup
import Mathlib.Data.List.Perm.Basic
import ChomskyChart.Grammar.Table

/-!
# First occurrences

A row that is filled keeps of equal bodies the one that came first. Which list that leaves can be
said without a way to get it: the list has the entries of the other one, in the order of the places
where these occur first. No two entries have the same first place, so no entry comes twice.

## Main definitions

* `FirstOccurrences`: a list and the first occurrences of its entries

## Main results

* `firstOccurrences_eraseDups`: erasing the later ones of equal entries leaves the first occurrences
* `forall₂_eraseDups`: erasing in two lists whose entries go with each other
* `eraseDups_of_nodup`, `eq_singleton_of_nodup`: lists without repetitions
-/

namespace ChomskyChart

section

variable {α : Type} [BEq α] {kept listed : List α}

/-- The first list has each entry of the second one once, in the order in which these first occur
there. -/
structure FirstOccurrences (kept listed : List α) : Prop where
  mem_iff : ∀ x, x ∈ kept ↔ x ∈ listed
  pairwise : kept.Pairwise fun x y => listed.idxOf x < listed.idxOf y

theorem FirstOccurrences.nodup (h : FirstOccurrences kept listed) : kept.Nodup :=
  h.pairwise.imp fun hlt heq => Nat.ne_of_lt hlt (congrArg listed.idxOf heq)

variable [LawfulBEq α]

/-- Leaving out other entries does not change which of two comes first. -/
theorem idxOf_filter_lt_iff {p : α → Bool} {xs : List α} {x y : α} (hx : p x = true)
    (hy : p y = true) :
    (xs.filter p).idxOf x < (xs.filter p).idxOf y ↔ xs.idxOf x < xs.idxOf y := by
  induction xs with
  | nil => simp
  | cons z rest ih =>
    cases hz : p z with
    | false =>
      have hzx : z ≠ x := fun heq => Bool.false_ne_true (hz.symm.trans (heq ▸ hx))
      have hzy : z ≠ y := fun heq => Bool.false_ne_true (hz.symm.trans (heq ▸ hy))
      rw [List.filter_cons_of_neg (by simp [hz]), ih, List.idxOf_cons_ne rest hzx,
        List.idxOf_cons_ne rest hzy]
      omega
    | true =>
      rw [List.filter_cons_of_pos hz]
      by_cases hzx : z = x
      · subst hzx
        by_cases hzy : z = y
        · subst hzy
          simp
        · simp [List.idxOf_cons_ne _ hzy]
      · by_cases hzy : z = y
        · subst hzy
          simp
        · rw [List.idxOf_cons_ne _ hzx, List.idxOf_cons_ne _ hzy, List.idxOf_cons_ne _ hzx,
            List.idxOf_cons_ne _ hzy]
          omega

/-- **Erasing repetitions leaves the first occurrences.** The induction is on the length, as the
rest is filtered before it is gone through. -/
theorem firstOccurrences_eraseDups (xs : List α) : FirstOccurrences xs.eraseDups xs := by
  refine ⟨fun _ => List.mem_eraseDups, ?_⟩
  induction h : xs.length using Nat.strongRecOn generalizing xs with
  | ind n ih =>
    cases xs with
    | nil => simp
    | cons x rest =>
      have hlength : (rest.filter fun y => !y == x).length < n := by
        have := List.length_filter_le (fun y => !y == x) rest
        simp only [List.length_cons] at h
        omega
      have hother : ∀ y ∈ (rest.filter fun y => !y == x).eraseDups, (!y == x) = true :=
        fun y hy => (List.mem_filter.1 (List.mem_eraseDups.1 hy)).2
      have hne : ∀ y ∈ (rest.filter fun y => !y == x).eraseDups, x ≠ y := by
        rintro y hy rfl
        simpa using hother x hy
      rw [List.eraseDups_cons, List.pairwise_cons]
      refine ⟨fun y hy => ?_, (ih _ hlength _ rfl).imp_of_mem fun {y z} hy hz hlt => ?_⟩
      · rw [List.idxOf_cons_self, List.idxOf_cons_ne rest (hne y hy)]
        exact Nat.succ_pos _
      · rw [List.idxOf_cons_ne rest (hne y hy), List.idxOf_cons_ne rest (hne z hz)]
        exact Nat.succ_lt_succ ((idxOf_filter_lt_iff (p := fun w => !w == x) (hother y hy)
          (hother z hz)).1 hlt)

/-- Entries that go with each other one to one are repeated at the same places. -/
theorem forall₂_eraseDups {β : Type} [BEq β] [LawfulBEq β] {R : α → β → Prop}
    (hR : Relator.BiUnique R) {xs : List α} {ys : List β} (h : List.Forall₂ R xs ys) :
    List.Forall₂ R xs.eraseDups ys.eraseDups := by
  induction hn : xs.length using Nat.strongRecOn generalizing xs ys with
  | ind n ih =>
    cases h with
    | nil => exact .nil
    | @cons x y xs ys hxy hrest =>
      have hother : ∀ a b, R a b → ((!a == x) = true ↔ (!b == y) = true) := by
        intro a b hab
        simpa using not_congr (Relator.rel_eq hR hab hxy)
      have hlength : (xs.filter fun a => !a == x).length < n := by
        have := List.length_filter_le (fun a => !a == x) xs
        simp only [List.length_cons] at hn
        omega
      rw [List.eraseDups_cons, List.eraseDups_cons]
      exact .cons hxy (ih _ hlength (List.rel_filter hother hrest) rfl)

/-! ### Lists without repetitions -/

theorem eraseDups_of_nodup {xs : List α} (h : xs.Nodup) : xs.eraseDups = xs := by
  induction xs with
  | nil => rfl
  | cons x rest ih =>
    obtain ⟨hx, hrest⟩ := List.nodup_cons.1 h
    have hother : ∀ y ∈ rest, (!y == x) = true := by
      rintro y hy
      rw [Bool.not_eq_true', beq_eq_false_iff_ne]
      rintro rfl
      exact hx hy
    rw [List.eraseDups_cons, List.filter_eq_self.2 hother, ih hrest]

end

theorem eq_singleton_of_nodup {α : Type} {xs : List α} {x : α} (h : xs.Nodup)
    (hmem : ∀ y, y ∈ xs ↔ y = x) : xs = [x] := by
  refine List.perm_singleton.1 ((List.perm_ext_iff_of_nodup h (List.nodup_singleton x)).2 ?_)
  simpa using hmem

end ChomskyChart
