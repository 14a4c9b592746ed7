import Mathlib.Algebra.Group.Nat.Defs
import ChomskyChart.Proofs.NormalForm.Epsilon
import ChomskyChart.Proofs.NormalForm.Useless

/-!
# The order of the variants

A variant is made by a choice: one flag for each symbol of the body, which says whether the symbol
is kept. Only nullable nonterminals may be left out, so a body with `k` of them has `2 ^ k` choices.
Two occurrences of a symbol are two choices, even where the variants come out the same.

Lists of flags are compared from left to right, and `false` comes before `true`. In this order the
choices are taken, so the rows of a normal form do not depend on how the variants are computed.

## Main definitions

* `isNullable`: the symbols that may be left out
* `IsChoice`: what is a choice for a body
* `choices`: all of them, in ascending order

## Main results

* `mem_choices_iff`, `pairwise_choices`, `length_choices`: the list of choices is complete, and it
  is in ascending order
* `variants_eq`: the variants are those of the choices
* `variants_enumerate`: what all of this says of a body
-/

namespace ChomskyChart

/-- Whether a symbol is a nonterminal that has the flag of the nullable ones. -/
def isNullable (nullable : List Bool) : SymbolId → Bool
  | .terminal _ => false
  | .nonterminal index => nullable[index]? == some true

/-- The flags, one for each symbol, leave out nullable nonterminals only. -/
def IsChoice (nullable flags : List Bool) (body : Body) : Prop :=
  List.Forall₂ (fun kept s => kept = false → isNullable nullable s = true) flags body

/-- The choices for a body, those that leave out its first symbol before the others. -/
def choices (nullable : List Bool) : Body → List (List Bool)
  | [] => [[]]
  | s :: rest =>
    if isNullable nullable s then
      (choices nullable rest).map (false :: ·) ++ (choices nullable rest).map (true :: ·)
    else (choices nullable rest).map (true :: ·)

section

variable {nullable : List Bool} {s : SymbolId} {body rest : Body} {flags : List Bool}

theorem choices_of_isNullable (hs : isNullable nullable s = true) :
    choices nullable (s :: rest) =
      (choices nullable rest).map (false :: ·) ++ (choices nullable rest).map (true :: ·) := by
  rw [choices, if_pos hs]

theorem choices_of_not_isNullable (hs : isNullable nullable s = false) :
    choices nullable (s :: rest) = (choices nullable rest).map (true :: ·) := by
  rw [choices, if_neg (by simp [hs])]

/-! ### The list of choices -/

theorem length_choices :
    (choices nullable body).length = 2 ^ body.countP (isNullable nullable) := by
  induction body with
  | nil => rfl
  | cons s rest ih =>
    cases hs : isNullable nullable s with
    | true =>
      rw [choices_of_isNullable hs, List.length_append, List.length_map, List.length_map, ih,
        List.countP_cons_of_pos hs, Nat.pow_succ, Nat.mul_two]
    | false =>
      rw [choices_of_not_isNullable hs, List.length_map, ih,
        List.countP_cons_of_neg (by simp [hs])]

theorem mem_choices_iff : flags ∈ choices nullable body ↔ IsChoice nullable flags body := by
  induction body generalizing flags with
  | nil => simp [choices, IsChoice]
  | cons s rest ih =>
    have hmem : ∀ kept, flags ∈ (choices nullable rest).map (kept :: ·) ↔
        ∃ tail, IsChoice nullable tail rest ∧ kept :: tail = flags := by
      intro kept
      simp only [List.mem_map, ih]
    have hcases : IsChoice nullable flags (s :: rest) ↔
        ∃ kept tail, (kept = false → isNullable nullable s = true) ∧
          IsChoice nullable tail rest ∧ kept :: tail = flags := by
      rw [IsChoice, List.forall₂_cons_right_iff]
      simp only [IsChoice, eq_comm]
    rw [hcases, Bool.exists_bool]
    cases hs : isNullable nullable s with
    | true =>
      rw [choices_of_isNullable hs, List.mem_append, hmem, hmem]
      simp
    | false =>
      rw [choices_of_not_isNullable hs, hmem]
      simp

/-- **The choices are in ascending order.** Of two choices that differ first at some symbol, the one
that leaves this symbol out comes first. -/
theorem pairwise_choices : (choices nullable body).Pairwise (· < ·) := by
  induction body with
  | nil => exact List.pairwise_singleton _ _
  | cons s rest ih =>
    have hsame : ∀ kept : Bool, ((choices nullable rest).map (kept :: ·)).Pairwise (· < ·) := by
      intro kept
      exact List.Pairwise.map _ (fun _ _ hlt => List.cons_lt_cons_iff.2 (.inr ⟨rfl, hlt⟩)) ih
    cases hs : isNullable nullable s with
    | true =>
      rw [choices_of_isNullable hs, List.pairwise_append]
      refine ⟨hsame false, hsame true, fun left hleft right hright => ?_⟩
      obtain ⟨_, -, rfl⟩ := List.mem_map.1 hleft
      obtain ⟨_, -, rfl⟩ := List.mem_map.1 hright
      exact List.cons_lt_cons_iff.2 (.inl rfl)
    | false =>
      rw [choices_of_not_isNullable hs]
      exact hsame true

/-- The first choice keeps what has to be kept. -/
theorem head?_choices :
    (choices nullable body).head? = some (body.map fun s => !isNullable nullable s) := by
  induction body with
  | nil => rfl
  | cons s rest ih =>
    cases hs : isNullable nullable s with
    | true =>
      rw [choices_of_isNullable hs, List.head?_append, List.head?_map, ih, List.map_cons, hs]
      rfl
    | false =>
      rw [choices_of_not_isNullable hs, List.head?_map, ih, List.map_cons, hs]
      rfl

/-- The last choice keeps everything. -/
theorem getLast?_choices :
    (choices nullable body).getLast? = some (body.map fun _ => true) := by
  induction body with
  | nil => rfl
  | cons s rest ih =>
    have hkept : ((choices nullable rest).map (true :: ·)).getLast? =
        some ((s :: rest).map fun _ => true) := by
      rw [List.getLast?_map, ih]
      rfl
    cases hs : isNullable nullable s with
    | true => rw [choices_of_isNullable hs, List.getLast?_append, hkept, Option.some_or]
    | false => rw [choices_of_not_isNullable hs, hkept]

/-! ### The variants of the choices -/

theorem select_map_self {α : Type} (p : α → Bool) (xs : List α) :
    select (xs.map p) xs = xs.filter p := by
  induction xs with
  | nil => rfl
  | cons x rest ih =>
    cases hx : p x with
    | true => rw [List.map_cons, hx, select_true_cons, ih, List.filter_cons_of_pos hx]
    | false =>
      rw [List.map_cons, hx, select_false_cons, ih, List.filter_cons_of_neg (by simp [hx])]

theorem isOptional_eq_ok (hs : ∀ index, s = .nonterminal index → index < nullable.length) :
    isOptional nullable s = .ok (isNullable nullable s) := by
  cases s with
  | terminal t => rfl
  | nonterminal index =>
    have hlt := hs index rfl
    rw [isOptional, lookUp_of_lt hlt, isNullable, List.getElem?_eq_getElem hlt]
    cases nullable[index] <;> rfl

/-- **Each choice gives one variant.** -/
theorem variants_eq (hbody : ∀ index, .nonterminal index ∈ body → index < nullable.length) :
    variants nullable body = .ok ((choices nullable body).map fun flags => select flags body) := by
  induction body with
  | nil => rfl
  | cons s rest ih =>
    have hrest := ih fun index hindex => hbody index (List.mem_cons_of_mem _ hindex)
    have hs := isOptional_eq_ok fun index hs => hbody index (hs ▸ List.mem_cons_self)
    simp only [variants_cons, hs, hrest, bind, Except.bind, pure, Except.pure, List.map_map]
    cases hnullable : isNullable nullable s with
    | true =>
      rw [choices_of_isNullable hnullable, List.map_append, List.map_map, List.map_map]
      rfl
    | false =>
      rw [choices_of_not_isNullable hnullable, List.map_map]
      rfl

end

/-- **The variants of a body, in order.** There is one for each choice of nullable occurrences to
leave out, the choices being in ascending order. So the first variant has no nullable symbol, and
the last one is the body itself. -/
theorem variants_enumerate (nullable : List Bool) (body : Body)
    (h : ∀ index, .nonterminal index ∈ body → index < nullable.length) :
    ∃ (bodies : List Body) (flagLists : List (List Bool)),
      variants nullable body = .ok bodies ∧
      bodies = flagLists.map (fun flags => select flags body) ∧
      (∀ flags, flags ∈ flagLists ↔ IsChoice nullable flags body) ∧
      flagLists.Pairwise (· < ·) ∧
      bodies.length = 2 ^ body.countP (isNullable nullable) ∧
      bodies.head? = some (body.filter fun s => !isNullable nullable s) ∧
      bodies.getLast? = some body := by
  refine ⟨_, _, variants_eq h, rfl, fun _ => mem_choices_iff, pairwise_choices, ?_, ?_, ?_⟩
  · rw [List.length_map, length_choices]
  · rw [List.head?_map, head?_choices, Option.map_some, select_map_self]
  · rw [List.getLast?_map, getLast?_choices, Option.map_some, select_map_self, List.filter_true]

/-- Three occurrences may be left out, and two of them are of the same symbol. -/
theorem variants_enumerate_repeated :
    (∀ index, SymbolId.nonterminal index ∈ ([.nonterminal 0, .terminal 0, .nonterminal 1,
      .nonterminal 2, .nonterminal 0] : Body) → index < [true, false, true].length) ∧
    ∃ (bodies : List Body) (flagLists : List (List Bool)),
      variants [true, false, true]
        [.nonterminal 0, .terminal 0, .nonterminal 1, .nonterminal 2, .nonterminal 0] =
          .ok bodies ∧
      flagLists.Pairwise (· < ·) ∧ [false, true, true, false, true] ∈ flagLists ∧
      bodies.length = 8 ∧ bodies.head? = some [.terminal 0, .nonterminal 1] := by
  have hcovers : ∀ index, SymbolId.nonterminal index ∈ ([.nonterminal 0, .terminal 0,
      .nonterminal 1, .nonterminal 2, .nonterminal 0] : Body) →
      index < [true, false, true].length := by
    simp
  obtain ⟨bodies, flagLists, hbodies, -, hmem, hpairwise, hlength, hhead, -⟩ :=
    variants_enumerate [true, false, true]
      [.nonterminal 0, .terminal 0, .nonterminal 1, .nonterminal 2, .nonterminal 0] hcovers
  refine ⟨hcovers, bodies, flagLists, hbodies, hpairwise, (hmem _).2 ?_, hlength, hhead⟩
  simp [IsChoice, isNullable]

end ChomskyChart
