import ChomskyChart.Proofs.Grammar.Occurrences
import ChomskyChart.Proofs.NormalForm.StandInRuns
import ChomskyChart.Proofs.NormalForm.StartSymbol

/-!
# Stand-ins

A stand-in has one rule, to its terminal, so it may replace the terminal wherever that occurs in a
long body. The names of the stand-ins play no part in this. Therefore all that is said about the
step is said about `Grammar.withStandIns`, in which the names are given and nothing can fail.

## Main definitions

* `Grammar.TerminalsIsolated`: bodies of two or more symbols have no terminal

## Main results

* `exists_withIsolatedTerminals`: the step succeeds, with new names
* `hasRule_withStandIns_iff`: the rules afterwards
* `extends_withStandIns`: the words afterwards
* `exists_withStandIns`, `terminalsIsolated_withStandIns`, `startUnused_withStandIns`: the form of
  the grammar afterwards
* `firstOccurrences_isolatedTerminals`: the order of the stand-ins
* `withIsolatedTerminals_keeps_words`: the step on a grammar that passes the check
-/

namespace ChomskyChart

/-! ### Bodies with stand-ins -/

section

variable {offset : Nat} {isolated : List Nat}

theorem isolateBody_of_not_isLong {body : Body} (h : isLong body = false) :
    isolateBody offset isolated body = body := by
  rw [isolateBody, h, if_neg Bool.false_ne_true]

theorem isolateBody_of_isLong {body : Body} (h : isLong body = true) :
    isolateBody offset isolated body = body.map (standIn offset isolated) := by
  rw [isolateBody, if_pos h]

@[simp] theorem length_isolateBody (body : Body) :
    (isolateBody offset isolated body).length = body.length := by
  rw [isolateBody]
  split
  · exact List.length_map _
  · rfl

/-- Old nonterminals stay, and what is new stands for an isolated terminal of the body. -/
theorem nonterminal_mem_isolateBody_iff {body : Body} {index : Nat} :
    .nonterminal index ∈ isolateBody offset isolated body ↔
      .nonterminal index ∈ body ∨
        isLong body = true ∧ ∃ t, .terminal t ∈ body ∧ index = offset + isolated.idxOf t := by
  cases hlong : isLong body with
  | false => simp [isolateBody_of_not_isLong hlong]
  | true =>
    rw [isolateBody_of_isLong hlong, List.mem_map]
    constructor
    · rintro ⟨s, hs, heq⟩
      cases s with
      | terminal t => exact .inr ⟨rfl, t, hs, (SymbolId.nonterminal.inj heq).symm⟩
      | nonterminal i => exact .inl (SymbolId.nonterminal.inj heq ▸ hs)
    · rintro (hmem | ⟨-, t, ht, rfl⟩)
      · exact ⟨_, hmem, rfl⟩
      · exact ⟨_, ht, rfl⟩

theorem terminal_mem_isolateBody_iff {body : Body} {t : Nat} :
    .terminal t ∈ isolateBody offset isolated body ↔
      isLong body = false ∧ .terminal t ∈ body := by
  cases hlong : isLong body with
  | false => simp [isolateBody_of_not_isLong hlong]
  | true =>
    rw [isolateBody_of_isLong hlong, List.mem_map]
    constructor
    · rintro ⟨s, -, heq⟩
      cases s <;> exact nomatch heq
    · rintro ⟨h, -⟩
      exact nomatch h

/-- Where stand-ins have the words of their terminals, bodies keep their words. -/
theorem reads_isolateBody_iff {terminals : List String} {S : Interpretation}
    (hS : ∀ k t, isolated[k]? = some t →
      ∀ word, S (offset + k) word ↔ Reads terminals S [.terminal t] word)
    {body : Body} (hbody : isLong body = true → ∀ t, .terminal t ∈ body → t ∈ isolated)
    {word : List String} :
    Reads terminals S (isolateBody offset isolated body) word ↔ Reads terminals S body word := by
  cases hlong : isLong body with
  | false => rw [isolateBody_of_not_isLong hlong]
  | true =>
    rw [isolateBody_of_isLong hlong]
    replace hbody := hbody hlong
    clear hlong
    induction body generalizing word with
    | nil => rfl
    | cons s rest ih =>
      have hrest := fun word => @ih word fun t ht => hbody t (List.mem_cons_of_mem _ ht)
      rw [List.map_cons, reads_cons_iff, reads_cons_iff (s := s)]
      simp only [hrest]
      cases s with
      | nonterminal i => rfl
      | terminal t =>
        have hat : isolated[isolated.idxOf t]? = some t :=
          List.getElem?_idxOf (hbody t List.mem_cons_self)
        simp only [standIn, reads_nonterminal_iff, hS _ _ hat]

end

namespace Grammar

variable {g : Grammar} {added : List String}

/-! ### The step, with names given -/

theorem mem_isolatedTerminals_iff {t : Nat} :
    t ∈ g.isolatedTerminals ↔
      ∃ head body, g.HasRule head body ∧ isLong body = true ∧ .terminal t ∈ body := by
  simp only [isolatedTerminals, List.mem_eraseDups, List.mem_flatMap, List.mem_filter,
    List.mem_flatten, List.mem_filterMap]
  constructor
  · rintro ⟨body, ⟨⟨row, hrow, hbody⟩, hlong⟩, s, hs, heq⟩
    obtain ⟨head, hhead⟩ := List.getElem?_of_mem hrow
    cases s with
    | terminal index => exact ⟨head, body, ⟨row, hhead, hbody⟩, hlong, Option.some.inj heq ▸ hs⟩
    | nonterminal index => cases heq
  · rintro ⟨head, body, ⟨row, hrow, hbody⟩, hlong, ht⟩
    exact ⟨body, ⟨⟨row, List.mem_of_getElem? hrow, hbody⟩, hlong⟩, _, ht, rfl⟩

theorem lt_of_mem_isolatedTerminals (h : g.WellFormed) {t : Nat} (ht : t ∈ g.isolatedTerminals) :
    t < g.terminals.length := by
  obtain ⟨head, body, hrule, -, hmem⟩ := mem_isolatedTerminals_iff.1 ht
  exact h.terminal_lt hrule hmem

/-- Stand-ins are named without a fault if their terminals have names. -/
theorem draws_nameStandIns (g : Grammar) (stem : String) (names : FreshNames) {indices : List Nat}
    (hindices : ∀ index ∈ indices, index < g.terminals.length) :
    ∃ added after, g.nameStandIns stem names indices = .ok (added, after) ∧
      added.length = indices.length ∧ names.Draws added after := by
  induction indices generalizing names with
  | nil => exact ⟨[], names, rfl, rfl, .nil names⟩
  | cons index rest ih =>
    have hlt := hindices index List.mem_cons_self
    obtain ⟨more, after, hmore, hlength, hdraws⟩ :=
      ih (names.fresh (stem ++ g.terminals[index])).2
        fun other hother => hindices other (List.mem_cons_of_mem _ hother)
    refine ⟨(names.fresh (stem ++ g.terminals[index])).1 :: more, after, ?_, by simp [hlength],
      .cons (names.fresh_not_mem _) (names.taken_fresh _) hdraws⟩
    simp only [nameStandIns, lookUp_of_lt hlt, bind, Except.bind, hmore]
    rfl

/-- **On a well-formed grammar the step succeeds,** and all names that it needs are new. -/
theorem exists_withIsolatedTerminals (h : g.WellFormed) (names : FreshNames)
    (config : NormalFormNames) :
    ∃ added after, g.withIsolatedTerminals names config = .ok (g.withStandIns added, after) ∧
      added.length = g.isolatedTerminals.length ∧ names.Draws added after := by
  obtain ⟨added, after, hnames, hlength, hdraws⟩ :=
    draws_nameStandIns g config.terminalStem names
      fun _ => lt_of_mem_isolatedTerminals h
  refine ⟨added, after, ?_, hlength, hdraws⟩
  rw [withIsolatedTerminals_eq, hnames]
  rfl

theorem hasRule_withStandIns_iff {head : Nat} {body : Body} :
    (g.withStandIns added).HasRule head body ↔
      (∃ old, g.HasRule head old ∧
        body = isolateBody g.nonterminals.length g.isolatedTerminals old) ∨
      ∃ k t, head = g.rows.length + k ∧ g.isolatedTerminals[k]? = some t ∧
        body = [.terminal t] := by
  have hrows : (g.withStandIns added).rows =
      g.rows.map (·.map (isolateBody g.nonterminals.length g.isolatedTerminals)) ++
        g.isolatedTerminals.map fun index => [[.terminal index]] := rfl
  rw [hasRule_append_iff hrows, List.length_map]
  refine or_congr ?_ ?_
  · simp only [List.getElem?_map, Option.map_eq_some_iff]
    constructor
    · rintro ⟨_, ⟨row, hrow, rfl⟩, hbody⟩
      obtain ⟨old, hold, rfl⟩ := List.mem_map.1 hbody
      exact ⟨old, ⟨row, hrow, hold⟩, rfl⟩
    · rintro ⟨old, ⟨row, hrow, hold⟩, rfl⟩
      exact ⟨_, ⟨row, hrow, rfl⟩, List.mem_map_of_mem hold⟩
  · simp only [List.getElem?_map, Option.map_eq_some_iff]
    constructor
    · rintro ⟨k, _, rfl, ⟨t, ht, rfl⟩, hbody⟩
      exact ⟨k, t, rfl, ht, List.mem_singleton.1 hbody⟩
    · rintro ⟨k, t, rfl, ht, rfl⟩
      exact ⟨k, _, rfl, ⟨t, ht, rfl⟩, List.mem_singleton.2 rfl⟩

/-! ### Words -/

private theorem derives_standIn_iff {k t : Nat} (ht : g.isolatedTerminals[k]? = some t)
    {word : List String} :
    (g.withStandIns added).Derives (g.rows.length + k) word ↔
      Reads g.terminals (g.withStandIns added).Derives [.terminal t] word := by
  rw [derives_iff_reads]
  constructor
  · rintro ⟨body, hrule, hword⟩
    rcases hasRule_withStandIns_iff.1 hrule with ⟨old, hold, -⟩ | ⟨k', t', heq, ht', rfl⟩
    · have := hold.lt_length_rows
      omega
    · obtain rfl : k = k' := by omega
      obtain rfl : t = t' := Option.some.inj (ht.symm.trans ht')
      exact hword
  · intro hword
    exact ⟨_, hasRule_withStandIns_iff.2 (.inr ⟨k, t, rfl, ht, rfl⟩), hword⟩

/-- **A stand-in stands for its terminal,** and old nonterminals keep their words. -/
theorem extends_withStandIns (h : g.WellFormed) :
    (g.withStandIns added).Extends g (g.isolatedTerminals.map fun t => [.terminal t]) where
  terminals_eq := rfl
  closed_extended := by
    intro head body word hrule hword
    have hterminals : (g.withStandIns added).terminals = g.terminals := rfl
    rw [hterminals] at hword
    rcases hasRule_withStandIns_iff.1 hrule with ⟨old, hold, rfl⟩ | ⟨k, t, rfl, ht, rfl⟩
    · rw [reads_isolateBody_iff ?_ fun hlong t ht =>
        mem_isolatedTerminals_iff.2 ⟨head, old, hold, hlong, ht⟩,
        reads_extended_iff fun _ => h.nonterminal_lt hold] at hword
      · exact (extended_of_lt hold.lt_length_rows).2 (closed_derives g hold hword)
      · intro k t ht word
        rw [← h.length_rows, extended_add, List.getElem?_map, ht]
        simp [reads_terminal_iff]
    · refine extended_add.2 ⟨[.terminal t], by rw [List.getElem?_map, ht]; rfl, ?_⟩
      exact reads_terminal_iff.2 (reads_terminal_iff.1 hword)
  closed_derives := by
    intro head body word hrule hword
    refine closed_derives _ (hasRule_withStandIns_iff.2 (.inl ⟨body, hrule, rfl⟩)) ?_
    refine (reads_isolateBody_iff (fun k t ht word => ?_) fun hlong t ht =>
      mem_isolatedTerminals_iff.2 ⟨head, body, hrule, hlong, ht⟩).2 hword
    rw [← h.length_rows]
    exact derives_standIn_iff ht
  derives_of_reads := by
    intro k body hbody word hword
    rw [List.getElem?_map, Option.map_eq_some_iff] at hbody
    obtain ⟨t, ht, rfl⟩ := hbody
    exact (derives_standIn_iff ht).2 hword

/-! ### Form -/

/-- Bodies of two or more symbols consist of nonterminals. -/
def TerminalsIsolated (g : Grammar) : Prop :=
  ∀ head body, g.HasRule head body → 2 ≤ body.length → ∀ t, .terminal t ∉ body

theorem terminalsIsolated_withStandIns : (g.withStandIns added).TerminalsIsolated := by
  intro head body hrule hlength t ht
  rcases hasRule_withStandIns_iff.1 hrule with ⟨old, -, rfl⟩ | ⟨k, t, rfl, -, rfl⟩
  · rw [length_isolateBody] at hlength
    have hshort := (terminal_mem_isolateBody_iff.1 ht).1
    rw [isLong, decide_eq_false_iff_not] at hshort
    exact hshort hlength
  · simp at hlength

theorem wellFormed_withStandIns (h : g.WellFormed) {names after : FreshNames}
    (hcovers : names.Covers g) (hdraws : names.Draws added after)
    (hlength : added.length = g.isolatedTerminals.length) : (g.withStandIns added).WellFormed := by
  have hrows := h.length_rows
  have hstart := h.start_lt
  refine h.extend hcovers hdraws rfl rfl (by simp [withStandIns, hrows, hlength])
    (by simp only [withStandIns, List.length_append]; omega) ?_
  refine forall_mem_rows_iff.2 fun head body hrule s hs => ?_
  rcases hasRule_withStandIns_iff.1 hrule with ⟨old, hold, rfl⟩ | ⟨k, t, rfl, ht, rfl⟩
  · cases s with
    | terminal t => exact h.terminal_lt hold (terminal_mem_isolateBody_iff.1 hs).2
    | nonterminal index =>
      simp only [Declares, withStandIns, List.length_append, hlength]
      rcases nonterminal_mem_isolateBody_iff.1 hs with hmem | ⟨hlong, t, ht, rfl⟩
      · have := h.nonterminal_lt hold hmem
        omega
      · have := List.idxOf_lt_length_of_mem
          (mem_isolatedTerminals_iff.2 ⟨head, old, hold, hlong, ht⟩)
        omega
  · obtain rfl := List.mem_singleton.1 hs
    exact lt_of_mem_isolatedTerminals h (List.mem_of_getElem? ht)

/-- **The step keeps a grammar well-formed,** if all its names are taken. -/
theorem exists_withStandIns (h : g.WellFormed) {names : FreshNames} (hcovers : names.Covers g)
    (config : NormalFormNames) :
    ∃ added after, g.withIsolatedTerminals names config = .ok (g.withStandIns added, after) ∧
      (g.withStandIns added).WellFormed ∧ after.Covers (g.withStandIns added) := by
  obtain ⟨added, after, hstep, hlength, hdraws⟩ := exists_withIsolatedTerminals h names config
  exact ⟨added, after, hstep, wellFormed_withStandIns h hcovers hdraws hlength,
    hcovers.extend hdraws rfl rfl⟩

theorem startUnused_withStandIns (h : g.WellFormed) (hunused : g.StartUnused) :
    (g.withStandIns added).StartUnused := by
  intro head body hrule hmem
  have hstart : (g.withStandIns added).start = g.start := rfl
  rw [hstart] at hmem
  rcases hasRule_withStandIns_iff.1 hrule with ⟨old, hold, rfl⟩ | ⟨k, t, rfl, -, rfl⟩
  · rcases nonterminal_mem_isolateBody_iff.1 hmem with hmem | ⟨-, t, -, heq⟩
    · exact hunused head old hold hmem
    · have := h.start_lt
      omega
  · exact nomatch List.mem_singleton.1 hmem

/-! ### The order of the stand-ins -/

/-- The stand-ins come in the order in which their terminals first occur. -/
theorem firstOccurrences_isolatedTerminals :
    FirstOccurrences g.isolatedTerminals g.longBodyTerminals := by
  rw [isolatedTerminals_eq]
  exact firstOccurrences_eraseDups _

/-! ### The table -/

/-- A row keeps its bodies with their lengths. -/
theorem exists_row_withStandIns {index : Nat} (h : index < g.rows.length) :
    ∃ old row, g.rows[index]? = some old ∧ (g.withStandIns added).rows[index]? = some row ∧
      row.map List.length = old.map List.length := by
  have hold := List.getElem?_eq_getElem h
  refine ⟨_, g.rows[index].map (isolateBody g.nonterminals.length g.isolatedTerminals), hold, ?_,
    ?_⟩
  · rw [withStandIns, List.getElem?_append_left (by rwa [List.length_map]), List.getElem?_map, hold]
    rfl
  · rw [List.map_map]
    exact List.map_congr_left fun body _ => length_isolateBody body

/-- The row of a stand-in. -/
theorem getElem?_rows_standIn {k t : Nat} (h : g.isolatedTerminals[k]? = some t) :
    (g.withStandIns added).rows[g.rows.length + k]? = some [[.terminal t]] := by
  rw [withStandIns, List.getElem?_append_right (by simp), List.length_map, Nat.add_sub_cancel_left,
    List.getElem?_map, h]
  rfl

/-! ### Grammars that pass the check -/

/-- **The step isolates terminals and keeps the words of all nonterminals.** Afterwards a body of
two or more symbols has no terminal. The old nonterminals stay in their places, and their bodies
keep their places and lengths. The added ones come after them, one for each terminal that such a
body had, in the order in which these first occur in the table, and each has its terminal as its
only body. -/
theorem withIsolatedTerminals_keeps_words (h : g.validate = .ok ()) {names : FreshNames}
    (hcovers : names.Covers g) (config : NormalFormNames) :
    ∃ (r : Grammar) (after : FreshNames) (added : List String) (isolated : List Nat),
      g.withIsolatedTerminals names config = .ok (r, after) ∧ r.validate = .ok () ∧
      r.nonterminals = g.nonterminals ++ added ∧ added.length = isolated.length ∧
      r.terminals = g.terminals ∧ r.start = g.start ∧ r.acceptsEmpty = g.acceptsEmpty ∧
      (∀ row ∈ r.rows, ∀ body ∈ row, 2 ≤ body.length → ∀ t, .terminal t ∉ body) ∧
      (∀ index < g.nonterminals.length,
        (∃ old row, g.rows[index]? = some old ∧ r.rows[index]? = some row ∧
          row.map List.length = old.map List.length) ∧
        ∀ word, r.Derives index word ↔ g.Derives index word) ∧
      FirstOccurrences isolated g.longBodyTerminals ∧
      ∀ k t, isolated[k]? = some t →
        r.rows[g.nonterminals.length + k]? = some [[.terminal t]] := by
  have hg := validate_eq_ok_iff.1 h
  obtain ⟨added, after, hstep, hlength, hdraws⟩ := exists_withIsolatedTerminals hg names config
  have hextends : (g.withStandIns added).Extends g _ := extends_withStandIns hg
  refine ⟨g.withStandIns added, after, added, g.isolatedTerminals, hstep,
    validate_eq_ok_iff.2 (wellFormed_withStandIns hg hcovers hdraws hlength), rfl, hlength, rfl,
    rfl, rfl, forall_mem_rows_iff.2 terminalsIsolated_withStandIns, fun index hlt => ?_,
    firstOccurrences_isolatedTerminals, fun k t ht => ?_⟩
  · rw [← hg.length_rows] at hlt
    exact ⟨exists_row_withStandIns hlt, fun word => hextends.derives_iff_of_lt hlt⟩
  · rw [← hg.length_rows]
    exact getElem?_rows_standIn ht

/-- Terminals in bodies of all lengths, one of them twice in a body, and a nonterminal by the name
that a stand-in would have. -/
def mixedBodies : Grammar where
  nonterminals := ["S", "X_a"]
  terminals := ["a", "b", "c"]
  start := 0
  rows := [[[.nonterminal 1, .terminal 1, .terminal 1], [.terminal 2], []],
    [[.terminal 0, .nonterminal 0, .terminal 1], [.terminal 0], [.nonterminal 0]]]

theorem withIsolatedTerminals_keeps_words_mixedBodies :
    mixedBodies.validate = .ok () ∧ (FreshNames.ofGrammar mixedBodies).Covers mixedBodies ∧
    mixedBodies.longBodyTerminals = [1, 1, 0, 1] ∧
    ∃ (r : Grammar) (after : FreshNames) (added : List String) (isolated : List Nat),
      mixedBodies.withIsolatedTerminals (.ofGrammar mixedBodies) {} = .ok (r, after) ∧
      r.nonterminals = ["S", "X_a"] ++ added ∧ added.length = isolated.length ∧
      (∀ row ∈ r.rows, ∀ body ∈ row, 2 ≤ body.length → ∀ t, .terminal t ∉ body) ∧
      (∀ index < 2,
        (∃ old row, mixedBodies.rows[index]? = some old ∧ r.rows[index]? = some row ∧
          row.map List.length = old.map List.length) ∧
        ∀ word, r.Derives index word ↔ mixedBodies.Derives index word) ∧
      FirstOccurrences isolated [1, 1, 0, 1] ∧
      ∀ k t, isolated[k]? = some t → r.rows[2 + k]? = some [[.terminal t]] := by
  have hcovers := FreshNames.covers_ofGrammar mixedBodies
  obtain ⟨r, after, added, isolated, hstep, -, hnames, hlength, -, -, -, hisolated, hold, hfirst,
    hstandIns⟩ := withIsolatedTerminals_keeps_words (g := mixedBodies) (by decide) hcovers {}
  exact ⟨by decide, hcovers, by decide, r, after, added, isolated, hstep, hnames, hlength,
    hisolated, hold, hfirst, hstandIns⟩

end Grammar

end ChomskyChart
