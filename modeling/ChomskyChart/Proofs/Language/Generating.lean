import ChomskyChart.Proofs.Grammar.Saturation

/-!
# What the two sets say of words

Generating and nullable nonterminals are least sets, and derived words are the least closed
interpretation. So each half of the two correspondences below is one of the two inductions, and the
other side is a rule.

## Main results

* `exists_generating`: the nonterminals found are those that derive a word
* `exists_nullable`: the nonterminals found are those that derive the empty word
* `exists_generatesEpsilon`: whether the language has the empty word
* `exists_isEmpty`: whether it has no word at all
-/

namespace ChomskyChart

namespace Grammar

variable {g : Grammar}

/-! ### Generating nonterminals -/

theorem saturated_iff_exists_derives (h : g.WellFormed) {index : Nat} :
    g.Saturated (fun _ => false) index ↔ ∃ word, g.Derives index word := by
  constructor
  · intro hsaturated
    induction hsaturated with
    | of_hasRule hrule _ _ ih =>
      obtain ⟨word, hword⟩ := exists_reads (S := g.Derives) (fun _ => h.terminal_lt hrule) ih
      exact ⟨word, g.closed_derives hrule hword⟩
  · rintro ⟨word, hword⟩
    refine hword.of_closed (S := fun index _ => g.Saturated (fun _ => false) index)
      fun head body word hrule hbody => .of_hasRule hrule rfl fun index hmem => ?_
    exact (hbody.exists_of_mem hmem).elim fun _ => id

/-- **The generating nonterminals are found.** -/
theorem exists_generating (h : g.WellFormed) :
    ∃ flags, g.generating = .ok flags ∧ flags.length = g.rows.length ∧
      ∀ index, flags[index]? = some true ↔ ∃ word, g.Derives index word := by
  obtain ⟨flags, hflags, hlength, hfound⟩ :=
    exists_saturate fun head body hrule _ index => h.nonterminal_lt hrule
  exact ⟨flags, hflags, hlength, fun index => by
    rw [hfound, saturated_iff_exists_derives h]⟩

/-! ### Nullable nonterminals -/

theorem hasTerminal_eq_false_iff {body : Body} :
    hasTerminal body = false ↔ ∀ t, .terminal t ∉ body := by
  rw [hasTerminal, List.any_eq_false]
  constructor
  · intro h t ht
    exact h _ ht rfl
  · intro h s hs
    cases s with
    | terminal t => exact absurd hs (h t)
    | nonterminal index => exact Bool.false_ne_true

theorem saturated_iff_derives_empty {index : Nat} :
    g.Saturated hasTerminal index ↔ g.Derives index [] := by
  constructor
  · intro hsaturated
    induction hsaturated with
    | of_hasRule hrule hplay _ ih =>
      refine g.closed_derives hrule (reads_empty_iff.2 fun s hs => ?_)
      cases s with
      | terminal t => exact absurd hs (hasTerminal_eq_false_iff.1 hplay t)
      | nonterminal index => exact ⟨index, rfl, ih index hs⟩
  · intro hword
    refine hword.of_closed (S := fun index word => word = [] → g.Saturated hasTerminal index)
      ?_ rfl
    rintro head body _ hrule hbody rfl
    have hsymbols := reads_empty_iff.1 hbody
    refine .of_hasRule hrule (hasTerminal_eq_false_iff.2 fun t ht => ?_) fun index hmem => ?_
    · obtain ⟨_, heq, -⟩ := hsymbols _ ht
      exact nomatch heq
    · obtain ⟨_, heq, hindex⟩ := hsymbols _ hmem
      exact SymbolId.nonterminal.inj heq ▸ hindex rfl

/-- **The nullable nonterminals are found.** -/
theorem exists_nullable (h : g.WellFormed) :
    ∃ flags, g.nullable = .ok flags ∧ flags.length = g.rows.length ∧
      ∀ index, flags[index]? = some true ↔ g.Derives index [] := by
  obtain ⟨flags, hflags, hlength, hfound⟩ :=
    exists_saturate fun head body hrule _ index => h.nonterminal_lt hrule
  exact ⟨flags, hflags, hlength, fun index => by rw [hfound, saturated_iff_derives_empty]⟩

theorem getD_eq_true_iff {flags : List Bool} {index : Nat} :
    flags[index]?.getD false = true ↔ flags[index]? = some true := by
  cases flags[index]? <;> simp

/-- **The question for the empty word is answered.** -/
theorem exists_generatesEpsilon (h : g.WellFormed) :
    ∃ flag, g.generatesEpsilon = .ok flag ∧ (flag = true ↔ g.InLanguage []) := by
  obtain ⟨flags, hflags, -, hfound⟩ := exists_nullable h
  cases hempty : g.acceptsEmpty with
  | true => exact ⟨true, by rw [generatesEpsilon, hempty]; rfl, by simp [InLanguage, hempty]⟩
  | false =>
    refine ⟨flags[g.start]?.getD false, ?_, ?_⟩
    · rw [generatesEpsilon, hempty, hflags]
      rfl
    · rw [getD_eq_true_iff, hfound]
      simp [InLanguage, hempty]

/-- **The question for any word is answered.** -/
theorem exists_isEmpty (h : g.WellFormed) :
    ∃ flag, g.isEmpty = .ok flag ∧ (flag = true ↔ ∀ word, ¬g.InLanguage word) := by
  obtain ⟨flags, hflags, -, hfound⟩ := exists_generating h
  refine ⟨!flags[g.start]?.getD false && !g.acceptsEmpty, ?_, ?_⟩
  · rw [isEmpty, hflags]
    rfl
  · simp only [Bool.and_eq_true, Bool.not_eq_true', ← Bool.not_eq_true, getD_eq_true_iff, hfound,
      InLanguage, not_or, not_exists, not_and, forall_and]
    exact and_congr_right fun _ => ⟨fun hflag _ _ => hflag, fun hword => hword [] rfl⟩

end Grammar

end ChomskyChart
