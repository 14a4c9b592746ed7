import ChomskyChart.Proofs.NormalForm.Unchanged

/-!
# Steps taken twice

What a step after the first brings about is what it asks of a grammar to leave it alone. So taken
twice such a step does no more than taken once: the grammar stays as it is, with the order of all
its parts, and the two steps that draw names draw none. Only the check is asked of the given
grammar. Its start symbol may derive no word and may stand in bodies, and its rows may have
repetitions.

## Main results

* `exists_withIsolatedTerminals_twice`, `exists_withBinaryBodies_twice`,
  `exists_withoutEpsilon_twice`, `exists_withoutUnits_twice`, `exists_withoutUseless_twice`: one
  step at a time
* `steps_idempotent`: all of them
-/

namespace ChomskyChart

namespace Grammar

variable {g : Grammar}

/-- All terminals of long bodies have stand-ins after the first time. -/
theorem exists_withIsolatedTerminals_twice (h : g.WellFormed) (names : FreshNames)
    (config other : NormalFormNames) :
    ∃ r after, g.withIsolatedTerminals names config = .ok (r, after) ∧
      r.withIsolatedTerminals after other = .ok (r, after) := by
  obtain ⟨added, after, hstep, -⟩ := exists_withIsolatedTerminals h names config
  exact ⟨_, after, hstep,
    withIsolatedTerminals_eq_self terminalsIsolated_withStandIns after other⟩

/-- All bodies are short after the first time, and of equal ones the table has the first. -/
theorem exists_withBinaryBodies_twice (h : g.WellFormed) (names : FreshNames)
    (config other : NormalFormNames) :
    ∃ r after, g.withBinaryBodies names config = .ok (r, after) ∧
      r.withBinaryBodies after other = .ok (r, after) := by
  obtain ⟨added, after, hstep, -⟩ := exists_withBinaryBodies h names config
  have hshort : ∀ head body, (g.withSharedEnds added).HasRule head body → body.length ≤ 2 :=
    fun _ _ => length_le_two_of_hasRule_withSharedEnds h
  exact ⟨_, after, hstep,
    withBinaryBodies_eq_self hshort (fun _ => nodup_of_mem_tableOf) after other⟩

/-- Nothing is nullable after the first time. -/
theorem exists_withoutEpsilon_twice (h : g.WellFormed) :
    ∃ r, g.withoutEpsilon = .ok r ∧ r.withoutEpsilon = .ok r := by
  obtain ⟨r, hstep, hdrops⟩ := exists_withoutEpsilon h
  exact ⟨r, hstep, withoutEpsilon_eq_self (hdrops.wellFormed h) (fun _ _ => hdrops.ne_nil)
    hdrops.nodup_of_mem_rows⟩

/-- No unit rule is left after the first time, so no nonterminal leads to another one. -/
theorem exists_withoutUnits_twice (h : g.WellFormed) :
    ∃ r, g.withoutUnits = .ok r ∧ r.withoutUnits = .ok r := by
  obtain ⟨r, hstep, hdrops⟩ := exists_withoutUnits h
  have hunit : ∀ head body, r.HasRule head body → isUnitBody body = false :=
    fun head body hrule => ((hdrops.hasRule_iff head body).1 hrule).1
  exact ⟨r, hstep,
    withoutUnits_eq_self (hdrops.wellFormed h) hunit hdrops.nodup_of_mem_rows⟩

/-- What the start symbol does not reach goes after what derives nothing, and takes no word from
what stays. So one round is enough. -/
theorem exists_withoutUseless_twice (h : g.WellFormed) :
    ∃ r, g.withoutUseless = .ok r ∧ r.withoutUseless = .ok r := by
  obtain ⟨u, hstep⟩ := exists_usefulFlags h
  have hdrops := u.dropsUseless_result h
  exact ⟨u.result, hstep,
    withoutUseless_eq_self hdrops.wellFormed hdrops.reachable hdrops.generating⟩

/-- **Every step after the first does nothing the second time.** The grammar stays as it is, and so
do the names that are taken, whatever the names are to look like. -/
theorem steps_idempotent (h : g.validate = .ok ()) :
    (∀ (names : FreshNames) (config other : NormalFormNames),
      ∃ r after, g.withIsolatedTerminals names config = .ok (r, after) ∧
        r.withIsolatedTerminals after other = .ok (r, after)) ∧
    (∀ (names : FreshNames) (config other : NormalFormNames),
      ∃ r after, g.withBinaryBodies names config = .ok (r, after) ∧
        r.withBinaryBodies after other = .ok (r, after)) ∧
    (∃ r, g.withoutEpsilon = .ok r ∧ r.withoutEpsilon = .ok r) ∧
    (∃ r, g.withoutUnits = .ok r ∧ r.withoutUnits = .ok r) ∧
    ∃ r, g.withoutUseless = .ok r ∧ r.withoutUseless = .ok r := by
  have hg := validate_eq_ok_iff.1 h
  exact ⟨exists_withIsolatedTerminals_twice hg, exists_withBinaryBodies_twice hg,
    exists_withoutEpsilon_twice hg, exists_withoutUnits_twice hg, exists_withoutUseless_twice hg⟩

/-- The start symbol stands in all its bodies, one of them is there twice, and there is a circle of
unit rules. -/
def endlessStart : Grammar where
  nonterminals := ["S", "A", "B"]
  terminals := ["a", "b"]
  start := 0
  rows := [
    [[.nonterminal 0, .nonterminal 1, .terminal 1], [.nonterminal 0, .nonterminal 1, .terminal 1],
      [.nonterminal 0]],
    [[], [.terminal 0], [.nonterminal 2], [.terminal 0]],
    [[.nonterminal 1], [.terminal 0, .terminal 1, .nonterminal 0]]]

theorem steps_idempotent_endlessStart :
    endlessStart.validate = .ok () ∧
    (∀ (names : FreshNames) (config other : NormalFormNames),
      ∃ r after, endlessStart.withIsolatedTerminals names config = .ok (r, after) ∧
        r.withIsolatedTerminals after other = .ok (r, after)) ∧
    (∀ (names : FreshNames) (config other : NormalFormNames),
      ∃ r after, endlessStart.withBinaryBodies names config = .ok (r, after) ∧
        r.withBinaryBodies after other = .ok (r, after)) ∧
    (∃ r, endlessStart.withoutEpsilon = .ok r ∧ r.withoutEpsilon = .ok r) ∧
    (∃ r, endlessStart.withoutUnits = .ok r ∧ r.withoutUnits = .ok r) ∧
    ∃ r, endlessStart.withoutUseless = .ok r ∧ r.withoutUseless = .ok r :=
  ⟨by decide, steps_idempotent (by decide)⟩

end Grammar

end ChomskyChart
