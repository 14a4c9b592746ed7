import ChomskyChart.Proofs.Language.Generating

/-!
# The counters, state by state

That the least sets are found says nothing of the way to them. Here the computation is taken apart
into its states: a find is taken from the stack, and then its uses are credited one by one. The
invariant of the counters holds in all these states, so a counter that is counted down is positive
before, and the bodies out of play are never counted down.

## Main definitions

* `Tally.Arises`: the states that the computation goes through
* `Grammar.CountsSafely`: what happens to the counters in these states

## Main results

* `Tally.credit_cases`: what one credit can do
* `Tally.Arises.accurate`: the invariant holds in every state
* `WellFormed.countsSafely`: no counter goes below zero
* `saturation_correct`: the two sets, and what they say of the language
-/

namespace ChomskyChart

namespace Tally

variable {g : Grammar} {outOfPlay : Body → Bool} {t t' : Tally} {use : Nat × Nat}
variable {todo : List (Nat × Nat)}

/-! ### One credit -/

/-- **A credit changes nothing, or it counts down one counter that is positive.** -/
theorem credit_cases (h : t.credit use = .ok t') :
    t' = t ∨ ∃ left, t.counter? use.1 use.2 = some (some (left + 1)) ∧
      ∀ head place, t'.counter? head place =
        if (head, place) = use then some (some left) else t.counter? head place := by
  obtain ⟨found, -, h⟩ := bind_eq_ok_iff.1 h
  cases found with
  | true => exact .inl (Except.ok.inj h).symm
  | false =>
    obtain ⟨counters, hcounters, h⟩ := bind_eq_ok_iff.1 h
    obtain ⟨counter, hcounter, h⟩ := bind_eq_ok_iff.1 h
    rw [lookUp_eq_ok_iff] at hcounters hcounter
    match counter, h with
    | some (left + 1), h =>
      have hplace := (List.getElem?_eq_some_iff.1 hcounter).1
      refine .inr ⟨left, by rw [counter?, hcounters, Option.bind_some, hcounter], ?_⟩
      intro head place
      -- the counters do not depend on whether the head is found
      dsimp only at h
      split at h
      · obtain rfl := Except.ok.inj h
        exact counter?_set hcounters hplace _ _ head place
      · obtain rfl := Except.ok.inj h
        exact counter?_set hcounters hplace _ _ head place

/-! ### States -/

/-- The computation goes through the state, with the uses in `todo` still to be credited before the
next find is taken from the stack. -/
inductive Arises (g : Grammar) (outOfPlay : Body → Bool) : Tally → List (Nat × Nat) → Prop where
  | initial : Arises g outOfPlay (g.initialTally outOfPlay) []
  | pop {t : Tally} {latest : Nat} {rest : List Nat} {uses : List (Nat × Nat)}
      (h : Arises g outOfPlay t []) (hstack : t.stack = latest :: rest)
      (huses : lookUp (g.usesByRow outOfPlay) latest = .ok uses) :
      Arises g outOfPlay { t with stack := rest } uses
  | credit {t t' : Tally} {use : Nat × Nat} {todo : List (Nat × Nat)}
      (h : Arises g outOfPlay t (use :: todo)) (hcredit : t.credit use = .ok t') :
      Arises g outOfPlay t' todo

/-- **The invariant holds in every state.** -/
theorem Arises.accurate (h : Arises g outOfPlay t todo) : t.Accurate g outOfPlay todo := by
  induction h with
  | initial => exact Grammar.accurate_initialTally
  | @pop t latest rest uses _ hstack huses ih =>
    have hfound := ih.found_of_mem_stack latest (hstack ▸ List.mem_cons_self)
    have hlt : latest < g.rows.length := ih.length_found ▸ (List.getElem?_eq_some_iff.1 hfound).1
    rw [Grammar.lookUp_usesByRow hlt] at huses
    exact Except.ok.inj huses ▸ ih.pop hstack
  | credit _ hcredit ih =>
    obtain ⟨next, hnext, haccurate⟩ := ih.credit
    exact Except.ok.inj (hnext.symm.trans hcredit) ▸ haccurate

/-- The counters of bodies out of play are left alone. -/
theorem Arises.counter?_eq_none (h : Arises g outOfPlay t todo) {head place : Nat} {body : Body}
    (hbody : g.BodyAt head place body) (hout : outOfPlay body = true) :
    t.counter? head place = some none := by
  induction h with
  | initial =>
    obtain ⟨row, hrow, hplace⟩ := hbody
    simp [counter?, Grammar.initialTally, hrow, hplace, hout]
  | pop _ _ _ ih => exact ih
  | @credit t t' use todo _ hcredit ih =>
    obtain rfl | ⟨left, hpositive, hcounters⟩ := credit_cases hcredit
    · exact ih
    · rw [hcounters, if_neg, ih]
      rintro rfl
      exact absurd (Option.some.inj (hpositive.symm.trans ih)) (Option.some_ne_none _)

/-! ### The run -/

theorem Arises.foldlM_credit (h : Arises g outOfPlay t todo)
    (hfold : todo.foldlM Tally.credit t = .ok t') : Arises g outOfPlay t' [] := by
  induction todo generalizing t with
  | nil => exact Except.ok.inj hfold ▸ h
  | cons use rest ih =>
    rw [List.foldlM_cons] at hfold
    obtain ⟨next, hnext, hfold⟩ := bind_eq_ok_iff.1 hfold
    exact ih (h.credit hnext) hfold

/-- **The flags are those of the last state,** in which nothing is left to credit. -/
theorem Arises.exists_of_settle {flags : List Bool} (h : Arises g outOfPlay t [])
    (hsettle : t.settle (g.usesByRow outOfPlay) = .ok flags) :
    ∃ t', Arises g outOfPlay t' [] ∧ t'.stack = [] ∧ t'.found = flags := by
  fun_induction settle (g.usesByRow outOfPlay) t with
  | case1 t hstack => exact ⟨t, h, hstack, Except.ok.inj hsettle⟩
  | case2 => exact nomatch hsettle
  | case3 => exact nomatch hsettle
  | case4 t latest rest hstack uses huses t' hfold ih =>
    exact ih ((h.pop hstack huses).foldlM_credit hfold) hsettle

end Tally

namespace Grammar

variable {g : Grammar} {outOfPlay : Body → Bool}

/-- The computation runs to its end. On the way every credit succeeds, and it changes nothing or
counts down one counter that is positive; and the bodies out of play never get a counter. -/
structure CountsSafely (g : Grammar) (outOfPlay : Body → Bool) : Prop where
  ends : ∃ t, Tally.Arises g outOfPlay t [] ∧ t.stack = [] ∧ g.saturate outOfPlay = .ok t.found
  credit : ∀ t use todo, Tally.Arises g outOfPlay t (use :: todo) →
    ∃ t', t.credit use = .ok t' ∧
      (t' = t ∨ ∃ left, t.counter? use.1 use.2 = some (some (left + 1)) ∧
        ∀ head place, t'.counter? head place =
          if (head, place) = use then some (some left) else t.counter? head place)
  keeps_none : ∀ t todo, Tally.Arises g outOfPlay t todo → ∀ head place body,
    g.BodyAt head place body → outOfPlay body = true → t.counter? head place = some none

/-- **No counter goes below zero.** -/
theorem WellFormed.countsSafely (h : g.WellFormed) (outOfPlay : Body → Bool) :
    g.CountsSafely outOfPlay where
  ends := by
    have hinPlay : ∀ head body, g.HasRule head body → outOfPlay body = false →
        ∀ index, .nonterminal index ∈ body → index < g.rows.length :=
      fun head body hrule _ index => h.nonterminal_lt hrule
    obtain ⟨flags, hflags, -⟩ := exists_saturate hinPlay
    have hsettle := hflags
    rw [saturate] at hsettle
    split at hsettle
    · cases hsettle
    · obtain ⟨t, ht, hstack, rfl⟩ := Tally.Arises.initial.exists_of_settle hsettle
      exact ⟨t, ht, hstack, hflags⟩
  credit := by
    intro t use todo ht
    obtain ⟨t', ht', -⟩ := ht.accurate.credit
    exact ⟨t', ht', Tally.credit_cases ht'⟩
  keeps_none := fun _ _ ht _ _ _ => ht.counter?_eq_none

/-- **The counters find the least sets.** The nonterminals found are those that derive a word, or
the empty word, and no counter goes below zero on the way. So the language is known to have the
empty word, or to have no word, exactly if that is so. -/
theorem saturation_correct (h : g.validate = .ok ()) :
    (∃ flags, g.generating = .ok flags ∧ flags.length = g.nonterminals.length ∧
      ∀ index, flags[index]? = some true ↔ ∃ word, g.Derives index word) ∧
    (∃ flags, g.nullable = .ok flags ∧ flags.length = g.nonterminals.length ∧
      ∀ index, flags[index]? = some true ↔ g.Derives index []) ∧
    (g.CountsSafely fun _ => false) ∧ g.CountsSafely hasTerminal ∧
    (∃ flag, g.generatesEpsilon = .ok flag ∧ (flag = true ↔ g.InLanguage [])) ∧
    ∃ flag, g.isEmpty = .ok flag ∧ (flag = true ↔ ∀ word, ¬g.InLanguage word) := by
  have hg := validate_eq_ok_iff.1 h
  rw [← hg.length_rows]
  exact ⟨exists_generating hg, exists_nullable hg, hg.countsSafely _, hg.countsSafely _,
    exists_generatesEpsilon hg, exists_isEmpty hg⟩

/-- Nonterminals that occur twice in a body, a body that comes twice, and rules to themselves. -/
def repeatedUses : Grammar where
  nonterminals := ["S", "A", "B", "C"]
  terminals := ["a", "b"]
  start := 0
  rows := [[[.nonterminal 1, .nonterminal 1, .nonterminal 2], [.terminal 0, .nonterminal 0]],
    [[.nonterminal 1], []],
    [[.nonterminal 1, .nonterminal 1], [.nonterminal 1, .nonterminal 1],
      [.terminal 1, .nonterminal 2]],
    [[.nonterminal 3, .nonterminal 3], [.terminal 1, .nonterminal 3]]]

theorem saturation_correct_repeatedUses :
    repeatedUses.validate = .ok () ∧
    (∃ flags, repeatedUses.generating = .ok flags ∧ flags.length = 4 ∧
      ∀ index, flags[index]? = some true ↔ ∃ word, repeatedUses.Derives index word) ∧
    (∃ flags, repeatedUses.nullable = .ok flags ∧ flags.length = 4 ∧
      ∀ index, flags[index]? = some true ↔ repeatedUses.Derives index []) ∧
    (repeatedUses.CountsSafely fun _ => false) ∧ repeatedUses.CountsSafely hasTerminal ∧
    (∃ flag, repeatedUses.generatesEpsilon = .ok flag ∧
      (flag = true ↔ repeatedUses.InLanguage [])) ∧
    ∃ flag, repeatedUses.isEmpty = .ok flag ∧
      (flag = true ↔ ∀ word, ¬repeatedUses.InLanguage word) :=
  ⟨by decide, saturation_correct (by decide)⟩

end Grammar

end ChomskyChart
