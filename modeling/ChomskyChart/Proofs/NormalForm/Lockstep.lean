import ChomskyChart.Proofs.NormalForm.Normalize

/-!
# Names and the normal form

The rules of a normal form do not depend on how anything is called. Two grammars that differ in
names alone are taken through the steps side by side. Their allocators hold different names and may
search for different lengths of time, but an allocator settles only how a new nonterminal is called.
How many there are, and at which positions, is read off the table.

So each step is shown to keep one relation, that two grammars have the same shape, and the whole run
keeps it then. No step has to know that the grammars are valid, only that it succeeds on both.

## Main definitions

* `Grammar.SameShape`: the two grammars differ at most in names

## Main results

* `SameShape.withNewStart` and so on: one lemma per step
* `SameShape.run`: the whole run
* `normalize_sameShape`: normal forms that differ at most in names
-/

namespace ChomskyChart

namespace Grammar

/-- The grammars have the same table, and as many names for it. -/
structure SameShape (g g' : Grammar) : Prop where
  length_nonterminals : g.nonterminals.length = g'.nonterminals.length
  length_terminals : g.terminals.length = g'.terminals.length
  start_eq : g.start = g'.start
  rows_eq : g.rows = g'.rows
  acceptsEmpty_eq : g.acceptsEmpty = g'.acceptsEmpty

instance (g g' : Grammar) : Decidable (g.SameShape g') :=
  decidable_of_iff
    (g.nonterminals.length = g'.nonterminals.length ∧ g.terminals.length = g'.terminals.length ∧
      g.start = g'.start ∧ g.rows = g'.rows ∧ g.acceptsEmpty = g'.acceptsEmpty)
    ⟨fun ⟨hnon, hter, hstart, hrows, hempty⟩ => ⟨hnon, hter, hstart, hrows, hempty⟩,
      fun ⟨hnon, hter, hstart, hrows, hempty⟩ => ⟨hnon, hter, hstart, hrows, hempty⟩⟩

variable {g g' r r' : Grammar}

/-! ### What is read off the table -/

section

variable (h : g.rows = g'.rows)

include h

theorem saturate_congr (outOfPlay : Body → Bool) :
    g.saturate outOfPlay = g'.saturate outOfPlay := by
  have huses : g.uses outOfPlay = g'.uses outOfPlay := by rw [uses, uses, h]
  have hbyRow : g.usesByRow outOfPlay = g'.usesByRow outOfPlay := by
    rw [usesByRow, usesByRow, huses, h]
  have htally : g.initialTally outOfPlay = g'.initialTally outOfPlay := by
    rw [initialTally, initialTally, h]
  rw [saturate, saturate, huses, hbyRow, htally, h]

theorem generating_congr : g.generating = g'.generating :=
  saturate_congr h _

theorem nullable_congr : g.nullable = g'.nullable :=
  saturate_congr h _

theorem unitClosures_congr : g.unitClosures = g'.unitClosures := by
  rw [unitClosures, unitClosures, unitEdges, unitEdges, h]

theorem isolatedTerminals_congr : g.isolatedTerminals = g'.isolatedTerminals := by
  rw [isolatedTerminals, isolatedTerminals, h]

theorem headedBodies_congr : g.headedBodies = g'.headedBodies := by
  rw [headedBodies, headedBodies, h]

theorem sharedEnds_congr : g.sharedEnds = g'.sharedEnds := by
  rw [sharedEnds, sharedEnds, h]

end

/-- Two operations that start with the same one succeed with the same intermediate result. -/
theorem exists_of_bind_of_bind {α β γ : Type} {x : Except Failure α} {next : α → Except Failure β}
    {next' : α → Except Failure γ} {b : β} {c : γ} (h : x >>= next = .ok b)
    (h' : x >>= next' = .ok c) : ∃ a, next a = .ok b ∧ next' a = .ok c := by
  obtain ⟨a, ha, hb⟩ := bind_eq_ok_iff.1 h
  rw [ha] at h'
  exact ⟨a, hb, h'⟩

/-- What is guarded against a fault succeeds only behind the guard. -/
theorem ite_outOfRange_eq_ok_iff {α : Type} {P : Prop} [Decidable P] {x : Except Failure α}
    {a : α} : (if P then x else outOfRange) = .ok a ↔ P ∧ x = .ok a := by
  by_cases hP : P <;> simp [hP, outOfRange]

theorem outOfRange_ite_eq_ok_iff {α : Type} {P : Prop} [Decidable P] {x : Except Failure α}
    {a : α} : (if P then outOfRange else x) = .ok a ↔ ¬P ∧ x = .ok a := by
  by_cases hP : P <;> simp [hP, outOfRange]

namespace SameShape

/-! ### The steps that add nonterminals -/

theorem withNewStart (h : g.SameShape g') (names names' : FreshNames)
    (config config' : NormalFormNames) :
    (g.withNewStart names config).1.SameShape (g'.withNewStart names' config').1 where
  length_nonterminals := by simp [nonterminals_withNewStart, h.length_nonterminals]
  length_terminals := h.length_terminals
  start_eq := by rw [start_withNewStart, start_withNewStart, h.rows_eq]
  rows_eq := by simp only [Grammar.withNewStart, h.rows_eq, h.start_eq]
  acceptsEmpty_eq := h.acceptsEmpty_eq

theorem withIsolatedTerminals (h : g.SameShape g') {names names' after after' : FreshNames}
    {config config' : NormalFormNames}
    (hr : g.withIsolatedTerminals names config = .ok (r, after))
    (hr' : g'.withIsolatedTerminals names' config' = .ok (r', after')) : r.SameShape r' := by
  rw [withIsolatedTerminals_eq] at hr hr'
  obtain ⟨⟨added, last⟩, hadded, hr⟩ := bind_eq_ok_iff.1 hr
  obtain ⟨⟨added', last'⟩, hadded', hr'⟩ := bind_eq_ok_iff.1 hr'
  obtain ⟨rfl, -⟩ := Prod.mk.inj (Except.ok.inj hr)
  obtain ⟨rfl, -⟩ := Prod.mk.inj (Except.ok.inj hr')
  have hisolated := isolatedTerminals_congr h.rows_eq
  have hlength : added.length = added'.length := by
    rw [length_nameStandIns hadded, length_nameStandIns hadded', hisolated]
  -- bodies refer to stand-ins by position, which takes only the number of old nonterminals
  refine ⟨?_, h.length_terminals, h.start_eq, ?_, h.acceptsEmpty_eq⟩
  · simp only [withStandIns, List.length_append, h.length_nonterminals, hlength]
  · simp only [withStandIns, h.rows_eq, h.length_nonterminals, hisolated]

theorem withBinaryBodies (h : g.SameShape g') {names names' after after' : FreshNames}
    {config config' : NormalFormNames}
    (hr : g.withBinaryBodies names config = .ok (r, after))
    (hr' : g'.withBinaryBodies names' config' = .ok (r', after')) : r.SameShape r' := by
  have hends := sharedEnds_congr h.rows_eq
  have hbodies := headedBodies_congr h.rows_eq
  have hposition : g.endPosition = g'.endPosition := by
    funext rest
    rw [endPosition, endPosition, h.length_nonterminals, hends]
  rw [withBinaryBodies_eq, outOfRange_ite_eq_ok_iff] at hr hr'
  obtain ⟨-, hr⟩ := hr
  obtain ⟨-, hr'⟩ := hr'
  obtain ⟨rfl, -⟩ := Prod.mk.inj (Except.ok.inj hr)
  obtain ⟨rfl, -⟩ := Prod.mk.inj (Except.ok.inj hr')
  refine ⟨?_, h.length_terminals, h.start_eq, ?_, h.acceptsEmpty_eq⟩
  · simp only [withSharedEnds, List.length_append, FreshNames.length_numberedMany,
      h.length_nonterminals, hends]
  · simp only [withSharedEnds, cutEntries, h.rows_eq, hposition, hends, hbodies]

/-! ### The steps that rewrite the table

These name nothing, so the two runs compute the same at every point until the result is put
together. -/

theorem withoutEpsilon (h : g.SameShape g') (hr : g.withoutEpsilon = .ok r)
    (hr' : g'.withoutEpsilon = .ok r') : r.SameShape r' := by
  rw [Grammar.withoutEpsilon, nullable_congr h.rows_eq, h.rows_eq, h.acceptsEmpty_eq,
    h.start_eq] at hr
  obtain ⟨nullable, hr, hr'⟩ := exists_of_bind_of_bind hr hr'
  obtain ⟨rows, hr, hr'⟩ := exists_of_bind_of_bind hr hr'
  split at hr
  · rename_i hempty
    rw [if_pos hempty] at hr'
    obtain rfl := Except.ok.inj hr
    obtain rfl := Except.ok.inj hr'
    exact ⟨h.length_nonterminals, h.length_terminals, rfl, rfl, rfl⟩
  · rename_i hempty
    rw [if_neg hempty] at hr'
    obtain ⟨flag, hr, hr'⟩ := exists_of_bind_of_bind hr hr'
    obtain rfl := Except.ok.inj hr
    obtain rfl := Except.ok.inj hr'
    exact ⟨h.length_nonterminals, h.length_terminals, rfl, rfl, rfl⟩

theorem withoutUnits (h : g.SameShape g') (hr : g.withoutUnits = .ok r)
    (hr' : g'.withoutUnits = .ok r') : r.SameShape r' := by
  rw [Grammar.withoutUnits, unitClosures_congr h.rows_eq, h.rows_eq] at hr
  obtain ⟨closures, hr, hr'⟩ := exists_of_bind_of_bind hr hr'
  obtain ⟨rows, hr, hr'⟩ := exists_of_bind_of_bind hr hr'
  obtain rfl := Except.ok.inj hr
  obtain rfl := Except.ok.inj hr'
  exact ⟨h.length_nonterminals, h.length_terminals, h.start_eq, rfl, h.acceptsEmpty_eq⟩

theorem restrict (h : g.SameShape g') {keep : List Bool} (hr : g.restrict keep = .ok r)
    (hr' : g'.restrict keep = .ok r') : r.SameShape r' := by
  rw [Grammar.restrict, h.length_nonterminals, h.rows_eq, h.start_eq] at hr
  obtain ⟨kept, hr, hr'⟩ := exists_of_bind_of_bind hr hr'
  obtain ⟨keptRows, hr, hr'⟩ := exists_of_bind_of_bind hr hr'
  obtain ⟨-, hr⟩ := outOfRange_ite_eq_ok_iff.1 hr
  obtain ⟨-, hr'⟩ := outOfRange_ite_eq_ok_iff.1 hr'
  obtain ⟨rows, hr, hr'⟩ := exists_of_bind_of_bind hr hr'
  obtain ⟨start, hr, hr'⟩ := exists_of_bind_of_bind hr hr'
  obtain rfl := Except.ok.inj hr
  obtain rfl := Except.ok.inj hr'
  exact ⟨length_select_congr h.length_nonterminals, h.length_terminals, rfl, rfl,
    h.acceptsEmpty_eq⟩

theorem reachable_eq (h : g.SameShape g') : g.reachable = g'.reachable := by
  rw [reachable, reachable, useEdges, useEdges, h.rows_eq, h.start_eq]

theorem withoutUseless (h : g.SameShape g') (hr : g.withoutUseless = .ok r)
    (hr' : g'.withoutUseless = .ok r') : r.SameShape r' := by
  rw [Grammar.withoutUseless, generating_congr h.rows_eq, h.start_eq] at hr
  obtain ⟨generating, hr, hr'⟩ := exists_of_bind_of_bind hr hr'
  obtain ⟨-, hr⟩ := ite_outOfRange_eq_ok_iff.1 hr
  obtain ⟨-, hr'⟩ := ite_outOfRange_eq_ok_iff.1 hr'
  obtain ⟨middle, hmiddle, hr⟩ := bind_eq_ok_iff.1 hr
  obtain ⟨middle', hmiddle', hr'⟩ := bind_eq_ok_iff.1 hr'
  have hsame := h.restrict hmiddle hmiddle'
  rw [hsame.reachable_eq] at hr
  obtain ⟨reached, hr, hr'⟩ := exists_of_bind_of_bind hr hr'
  exact hsame.restrict hr hr'

/-! ### The run -/

/-- **Runs on grammars of the same shape end in grammars of the same shape.** -/
theorem run {config config' : NormalFormNames} (h : g.SameShape g') (run : g.Run config)
    (run' : g'.Run config') : run.normal.SameShape run'.normal := by
  have hstarted : run.started.SameShape run'.started := by
    have hsame := h.withNewStart (.ofGrammar g) (.ofGrammar g') config config'
    rwa [run.withNewStart_eq, run'.withNewStart_eq] at hsame
  have hisolated :=
    hstarted.withIsolatedTerminals run.withIsolatedTerminals_eq run'.withIsolatedTerminals_eq
  have hbinary := hisolated.withBinaryBodies run.withBinaryBodies_eq run'.withBinaryBodies_eq
  have hepsilonFree := hbinary.withoutEpsilon run.withoutEpsilon_eq run'.withoutEpsilon_eq
  have hunitFree := hepsilonFree.withoutUnits run.withoutUnits_eq run'.withoutUnits_eq
  exact hunitFree.withoutUseless run.withoutUseless_eq run'.withoutUseless_eq

end SameShape

/-- **Names never influence the rules of a normal form.** Two valid grammars with the same table,
and names of any kind for it, have normal forms with the same table, the same start symbol, the same
answer to the empty word and as many nonterminals, whatever names are asked for. -/
theorem normalize_sameShape (h : g.validate = .ok ()) (h' : g'.validate = .ok ())
    (hsame : g.SameShape g') (config config' : NormalFormNames) :
    ∃ n n', g.normalize config = .ok n ∧ g'.normalize config' = .ok n' ∧
      n.rows = n'.rows ∧ n.start = n'.start ∧ n.acceptsEmpty = n'.acceptsEmpty ∧
      n.nonterminals.length = n'.nonterminals.length := by
  obtain ⟨run, -, hnormal, -⟩ := exists_run (validate_eq_ok_iff.1 h) config
  obtain ⟨run', -, hnormal', -⟩ := exists_run (validate_eq_ok_iff.1 h') config'
  have hlast := hsame.run run run'
  exact ⟨run.normal, run'.normal, hnormal, hnormal', hlast.rows_eq, hlast.start_eq,
    hlast.acceptsEmpty_eq, hlast.length_nonterminals⟩

/-- The table of `nestedBrackets`, under names that meet those asked for elsewhere. -/
def relabelledBrackets : Grammar :=
  { nestedBrackets with nonterminals := ["S0", "B1", "X_a"], terminals := ["a", "S0_1"] }

/-- Here one allocator finds its first choices free and the other does not. -/
theorem normalize_sameShape_nestedBrackets :
    nestedBrackets.validate = .ok () ∧ relabelledBrackets.validate = .ok () ∧
    nestedBrackets.SameShape relabelledBrackets ∧
    ∃ n n', nestedBrackets.normalize { start := "T", terminalStem := "T", binaryStem := "T" } =
        .ok n ∧
      relabelledBrackets.normalize {} = .ok n' ∧
      n.rows = n'.rows ∧ n.start = n'.start ∧ n.acceptsEmpty = n'.acceptsEmpty ∧
      n.nonterminals.length = n'.nonterminals.length :=
  ⟨by decide, by decide, by decide,
    normalize_sameShape (by decide) (by decide) (by decide) _ _⟩

end Grammar

end ChomskyChart
