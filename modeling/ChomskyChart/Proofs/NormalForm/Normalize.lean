import ChomskyChart.NormalForm.Normalize
import ChomskyChart.Proofs.Language.NormalShape
import ChomskyChart.Proofs.NormalForm.Units
import ChomskyChart.Proofs.NormalForm.Useless

/-!
# The normal form of a grammar

The six steps are put together. Each of them succeeds on what the one before has made, since the
parts of that fit together and the allocator still covers all its names. The first three keep the
words of the start symbol, the fourth takes the empty word from them and records it, and the last
two keep what is left.

Of the form of the rules, short bodies come from the third step and are kept by the others; that no
body is empty or a unit comes from the fourth and the fifth; and that no nonterminal is useless
comes from the last.

## Main definitions

* `Grammar.Run`: the steps, each applied to what the one before has made
* `Grammar.Stages`: the grammars between the steps, and what each step is known for

## Main results

* `exists_run`, `exists_stages`: a well-formed grammar has a normal form
* `normalize_preserves_language`: the words of the normal form
* `normalize_invariants`: its rules and nonterminals
-/

namespace ChomskyChart

open Relation

namespace Grammar

variable {g : Grammar} {config : NormalFormNames}

/-! ### The six steps -/

/-- The steps from `g` to its normal form, each applied to what the one before has made. -/
structure Run (g : Grammar) (config : NormalFormNames) where
  started : Grammar
  isolated : Grammar
  binary : Grammar
  epsilonFree : Grammar
  unitFree : Grammar
  normal : Grammar
  /-- The allocator after the new start symbol. -/
  namesStarted : FreshNames
  /-- The allocator after the stand-ins. -/
  namesIsolated : FreshNames
  /-- The allocator after the ends of bodies. -/
  namesBinary : FreshNames
  withNewStart_eq : g.withNewStart (.ofGrammar g) config = (started, namesStarted)
  withIsolatedTerminals_eq :
    started.withIsolatedTerminals namesStarted config = .ok (isolated, namesIsolated)
  withBinaryBodies_eq : isolated.withBinaryBodies namesIsolated config = .ok (binary, namesBinary)
  withoutEpsilon_eq : binary.withoutEpsilon = .ok epsilonFree
  withoutUnits_eq : epsilonFree.withoutUnits = .ok unitFree
  withoutUseless_eq : unitFree.withoutUseless = .ok normal

/-- The grammars on the way from `g` to its normal form, each with what its step is known for. -/
structure Stages (g : Grammar) (config : NormalFormNames) where
  started : Grammar
  isolated : Grammar
  binary : Grammar
  epsilonFree : Grammar
  unitFree : Grammar
  normal : Grammar
  started_eq : started = (g.withNewStart (.ofGrammar g) config).1
  isolated_eq : ∃ added, isolated = started.withStandIns added
  binary_eq : ∃ added, binary = isolated.withSharedEnds added
  epsilonFree_eq : binary.withoutEpsilon = .ok epsilonFree
  unitFree_eq : epsilonFree.withoutUnits = .ok unitFree
  normal_eq : ∃ u : unitFree.UsefulFlags, normal = u.result
  dropsEpsilon : epsilonFree.DropsEpsilon binary
  dropsUnits : unitFree.DropsUnits epsilonFree
  dropsUseless : normal.DropsUseless unitFree
  wellFormed : g.WellFormed
  wellFormed_started : started.WellFormed
  wellFormed_isolated : isolated.WellFormed
  wellFormed_binary : binary.WellFormed

/-- **A well-formed grammar goes through all steps,** and each is known for what it should be. -/
theorem exists_run (h : g.WellFormed) (config : NormalFormNames) :
    ∃ (r : g.Run config) (s : g.Stages config), g.normalize config = .ok r.normal ∧
      s.started = r.started ∧ s.isolated = r.isolated ∧ s.binary = r.binary ∧
      s.epsilonFree = r.epsilonFree ∧ s.unitFree = r.unitFree ∧ s.normal = r.normal := by
  rcases hstart : g.withNewStart (.ofGrammar g) config with ⟨started, names⟩
  have hstarted : (g.withNewStart (.ofGrammar g) config).1.WellFormed :=
    wellFormed_withNewStart h (FreshNames.covers_ofGrammar g)
  have hcovers : (g.withNewStart (.ofGrammar g) config).2.Covers _ :=
    covers_withNewStart (FreshNames.covers_ofGrammar g)
  rw [hstart] at hstarted hcovers
  obtain ⟨added, names', hstandIns, hisolated, hcovers'⟩ :=
    exists_withStandIns hstarted hcovers config
  obtain ⟨ends, names'', hends, hbinary, -⟩ := exists_withSharedEnds hisolated hcovers' config
  obtain ⟨epsilonFree, hepsilon, hdropsEpsilon⟩ := exists_withoutEpsilon hbinary
  obtain ⟨unitFree, hunits, hdropsUnits⟩ :=
    exists_withoutUnits (hdropsEpsilon.wellFormed hbinary)
  have hunitFree := hdropsUnits.wellFormed (hdropsEpsilon.wellFormed hbinary)
  obtain ⟨useful, huseless⟩ := exists_usefulFlags hunitFree
  refine ⟨⟨_, _, _, _, _, _, _, _, _, hstart, hstandIns, hends, hepsilon, hunits, huseless⟩, {
    started, isolated := started.withStandIns added,
    binary := (started.withStandIns added).withSharedEnds ends, epsilonFree, unitFree
    normal := useful.result
    started_eq := by rw [hstart]
    isolated_eq := ⟨added, rfl⟩
    binary_eq := ⟨ends, rfl⟩
    epsilonFree_eq := hepsilon
    unitFree_eq := hunits
    normal_eq := ⟨useful, rfl⟩
    dropsEpsilon := hdropsEpsilon
    dropsUnits := hdropsUnits
    dropsUseless := useful.dropsUseless_result hunitFree
    wellFormed := h
    wellFormed_started := hstarted
    wellFormed_isolated := hisolated
    wellFormed_binary := hbinary }, ?_, rfl, rfl, rfl, rfl, rfl, rfl⟩
  simp only [normalize, validate_eq_ok_iff.2 h, hstart, hstandIns, hends, hepsilon, hunits,
    huseless, bind, Except.bind]

theorem exists_stages (h : g.WellFormed) (config : NormalFormNames) :
    ∃ s : g.Stages config, g.normalize config = .ok s.normal := by
  obtain ⟨r, s, hnormal, -, -, -, -, -, heq⟩ := exists_run h config
  exact ⟨s, heq ▸ hnormal⟩

namespace Stages

variable (s : g.Stages config)

theorem wellFormed_epsilonFree : s.epsilonFree.WellFormed :=
  s.dropsEpsilon.wellFormed s.wellFormed_binary

theorem wellFormed_unitFree : s.unitFree.WellFormed :=
  s.dropsUnits.wellFormed s.wellFormed_epsilonFree

theorem wellFormed_normal : s.normal.WellFormed :=
  s.dropsUseless.wellFormed

/-! ### Words of the stages -/

theorem terminals_started : s.started.terminals = g.terminals := by
  rw [s.started_eq, terminals_withNewStart]

theorem terminals_isolated : s.isolated.terminals = g.terminals := by
  obtain ⟨added, hadded⟩ := s.isolated_eq
  rw [← s.terminals_started, hadded]
  rfl

theorem terminals_binary : s.binary.terminals = g.terminals := by
  obtain ⟨added, hadded⟩ := s.binary_eq
  rw [← s.terminals_isolated, hadded]
  rfl

theorem terminals_normal : s.normal.terminals = g.terminals := by
  rw [s.dropsUseless.terminals_eq, s.dropsUnits.terminals_eq, s.dropsEpsilon.terminals_eq,
    s.terminals_binary]

theorem derives_started_iff {word : List String} :
    s.started.Derives s.started.start word ↔ g.Derives g.start word := by
  rw [s.started_eq]
  exact derives_start_withNewStart_iff s.wellFormed

theorem derives_isolated_iff {word : List String} :
    s.isolated.Derives s.isolated.start word ↔ g.Derives g.start word := by
  obtain ⟨added, hadded⟩ := s.isolated_eq
  have hlt : s.started.start < s.started.rows.length :=
    s.wellFormed_started.length_rows ▸ s.wellFormed_started.start_lt
  rw [← s.derives_started_iff, hadded]
  exact (extends_withStandIns s.wellFormed_started).derives_iff_of_lt hlt

/-- The first three steps keep the words of the start symbol. -/
theorem derives_binary_iff {word : List String} :
    s.binary.Derives s.binary.start word ↔ g.Derives g.start word := by
  obtain ⟨added, hadded⟩ := s.binary_eq
  have hlt : s.isolated.start < s.isolated.rows.length :=
    s.wellFormed_isolated.length_rows ▸ s.wellFormed_isolated.start_lt
  rw [← s.derives_isolated_iff, hadded]
  exact (extends_withSharedEnds s.wellFormed_isolated).derives_iff_of_lt hlt

theorem acceptsEmpty_binary : s.binary.acceptsEmpty = g.acceptsEmpty := by
  obtain ⟨standIns, hstandIns⟩ := s.isolated_eq
  obtain ⟨ends, hends⟩ := s.binary_eq
  rw [hends, hstandIns, s.started_eq]
  rfl

/-- **The start symbol keeps its words except the empty one.** -/
theorem derives_normal_iff {word : List String} :
    s.normal.Derives s.normal.start word ↔ word ≠ [] ∧ g.Derives g.start word := by
  rw [s.dropsUseless.derives_start_iff, s.dropsUnits.derives_iff, s.dropsEpsilon.derives_iff,
    s.dropsUnits.start_eq, s.dropsEpsilon.start_eq, s.derives_binary_iff]

/-- **The normal form records the empty word.** -/
theorem acceptsEmpty_normal_iff : s.normal.acceptsEmpty = true ↔ g.InLanguage [] := by
  rw [s.dropsUseless.acceptsEmpty_eq, s.dropsUnits.acceptsEmpty_eq, s.dropsEpsilon.acceptsEmpty_iff,
    InLanguage, InLanguage, s.derives_binary_iff, s.acceptsEmpty_binary]

theorem inLanguage_normal_iff {word : List String} :
    s.normal.InLanguage word ↔ g.InLanguage word := by
  rw [InLanguage, s.derives_normal_iff, s.acceptsEmpty_normal_iff]
  by_cases hword : word = []
  · simp [hword]
  · simp [hword, InLanguage]

/-! ### Form of the stages -/

theorem startUnused_binary : s.binary.StartUnused := by
  obtain ⟨standIns, hstandIns⟩ := s.isolated_eq
  obtain ⟨ends, hends⟩ := s.binary_eq
  have hstarted : s.started.StartUnused := by
    rw [s.started_eq]
    exact startUnused_withNewStart s.wellFormed
  have hisolated : s.isolated.StartUnused := by
    rw [hstandIns]
    exact startUnused_withStandIns s.wellFormed_started hstarted
  rw [hends]
  exact startUnused_withSharedEnds s.wellFormed_isolated hisolated

theorem bodiesBinary_binary : s.binary.BodiesBinary := by
  obtain ⟨standIns, hstandIns⟩ := s.isolated_eq
  obtain ⟨ends, hends⟩ := s.binary_eq
  have hisolated : s.isolated.TerminalsIsolated := by
    rw [hstandIns]
    exact terminalsIsolated_withStandIns
  rw [hends]
  exact bodiesBinary_withSharedEnds s.wellFormed_isolated hisolated

theorem startUnused_normal : s.normal.StartUnused :=
  s.dropsUseless.startUnused (s.dropsUnits.startUnused
    (s.dropsEpsilon.startUnused s.startUnused_binary))

theorem inNormalForm_normal : s.normal.InNormalForm :=
  s.dropsUseless.inNormalForm (s.dropsUnits.inNormalForm
    (s.dropsEpsilon.bodiesBinary s.bodiesBinary_binary) fun _ _ => s.dropsEpsilon.ne_nil)

theorem nodup_of_mem_rows_normal : ∀ row ∈ s.normal.rows, row.Nodup :=
  s.dropsUseless.nodup_of_mem_rows s.dropsUnits.nodup_of_mem_rows

end Stages

/-! ### The normal form -/

/-- **Normalization preserves the language.** It succeeds on every grammar whose parts fit together,
whatever the names in use and the names asked for. -/
theorem normalize_preserves_language (h : g.validate = .ok ()) (config : NormalFormNames) :
    ∃ n, g.normalize config = .ok n ∧ n.terminals = g.terminals ∧
      (∀ word, word ≠ [] → (n.Derives n.start word ↔ g.Derives g.start word)) ∧
      (n.acceptsEmpty = true ↔ g.InLanguage []) ∧ ∀ index, ¬n.Derives index [] := by
  obtain ⟨s, hs⟩ := exists_stages (validate_eq_ok_iff.1 h) config
  refine ⟨s.normal, hs, s.terminals_normal, fun word hne => ?_, s.acceptsEmpty_normal_iff, ?_⟩
  · rw [s.derives_normal_iff]
    exact and_iff_right hne
  · intro index hempty
    exact s.inNormalForm_normal.ne_nil_of_derives hempty rfl

/-- Brackets, with a unit cycle, a repeated body and a nonterminal without rules. -/
def nestedBrackets : Grammar where
  nonterminals := ["S", "A", "B0"]
  terminals := ["(", ")"]
  start := 0
  rows := [[[.terminal 0, .nonterminal 0, .terminal 1], [.nonterminal 1], []],
    [[.nonterminal 0], [.nonterminal 0, .nonterminal 0], [.nonterminal 0]], []]

/-- Names that clash with those of the grammar do no harm. -/
theorem normalize_preserves_language_nestedBrackets :
    nestedBrackets.validate = .ok () ∧
    ∃ n, nestedBrackets.normalize { start := "S", terminalStem := "", binaryStem := "B" } = .ok n ∧
      n.terminals = ["(", ")"] ∧
      (∀ word, word ≠ [] → (n.Derives n.start word ↔ nestedBrackets.Derives 0 word)) ∧
      (n.acceptsEmpty = true ↔ nestedBrackets.InLanguage []) ∧ ∀ index, ¬n.Derives index [] :=
  ⟨by decide, normalize_preserves_language (by decide) _⟩

/-- If the start symbol derives no word, and all others are of use, then there are no others. -/
theorem rows_eq_of_not_derives (h : g.WellFormed) (hunused : g.StartUnused)
    (hreachable : ∀ index < g.rows.length, ReflTransGen g.Uses g.start index)
    (hgenerating : ∀ index < g.rows.length, index ≠ g.start → ∃ word, g.Derives index word)
    (hnone : ∀ word, ¬g.Derives g.start word) : g.start = 0 ∧ g.rows = [[]] := by
  have hrule : ∀ body, ¬g.HasRule g.start body := by
    intro body hrule
    obtain ⟨word, hword⟩ := exists_reads (S := g.Derives) (fun _ => h.terminal_lt hrule)
      fun index hmem => hgenerating index (h.nonterminal_lt hrule hmem) fun hstart =>
        hunused _ body hrule (hstart ▸ hmem)
    exact hnone word (g.closed_derives hrule hword)
  have hall : ∀ index < g.rows.length, index = g.start := by
    intro index hlt
    rcases (hreachable index hlt).cases_head with heq | ⟨_, ⟨body, hbody, -⟩, -⟩
    · exact heq.symm
    · exact absurd hbody (hrule body)
  have hstart : g.start < g.rows.length := h.length_rows ▸ h.start_lt
  have hzero : g.start = 0 := (hall 0 (Nat.zero_lt_of_lt hstart)).symm
  have hlength : g.rows.length = 1 := by
    have hone : ¬1 < g.rows.length := fun hlt => by
      have := hall 1 hlt
      omega
    omega
  obtain ⟨row, hrow⟩ := List.length_eq_one_iff.1 hlength
  refine ⟨hzero, ?_⟩
  rw [hrow, List.cons.injEq, List.eq_nil_iff_forall_not_mem]
  refine ⟨fun body hbody => hrule body ⟨row, ?_, hbody⟩, rfl⟩
  rw [hzero, hrow]
  rfl

/-- **The form of the normal form.** Bodies are one terminal or two nonterminals, without the start
symbol and without repetitions; the start symbol reaches every nonterminal; every other nonterminal
derives a word; and if the start symbol derives none, it is the only nonterminal and has no body. -/
theorem normalize_invariants (h : g.validate = .ok ()) (config : NormalFormNames) :
    ∃ n, g.normalize config = .ok n ∧
      (∀ row ∈ n.rows, ∀ body ∈ row, (∃ t, body = [.terminal t]) ∨
        ∃ left right, body = [.nonterminal left, .nonterminal right]) ∧
      (∀ row ∈ n.rows, ∀ body ∈ row, .nonterminal n.start ∉ body) ∧
      (∀ row ∈ n.rows, row.Nodup) ∧
      (∀ index < n.nonterminals.length, ReflTransGen n.Uses n.start index) ∧
      (∀ index < n.nonterminals.length, index ≠ n.start →
        ∃ word, word ≠ [] ∧ n.Derives index word) ∧
      ((∀ word, ¬n.Derives n.start word) →
        n.nonterminals.length = 1 ∧ n.start = 0 ∧ n.rows = [[]]) := by
  obtain ⟨s, hs⟩ := exists_stages (validate_eq_ok_iff.1 h) config
  have hlength := s.wellFormed_normal.length_rows
  refine ⟨s.normal, hs, fun row hrow body hbody => ?_, forall_mem_rows_iff.2 s.startUnused_normal,
    s.nodup_of_mem_rows_normal, ?_, ?_, fun hnone => ?_⟩
  · exact hasNormalShape_iff.1 (s.inNormalForm_normal row hrow body hbody)
  · rw [← hlength]
    exact s.dropsUseless.reachable
  · intro index hlt hne
    obtain ⟨word, hword⟩ := s.dropsUseless.generating index (hlength ▸ hlt) hne
    exact ⟨word, s.inNormalForm_normal.ne_nil_of_derives hword, hword⟩
  · obtain ⟨hstart, hrows⟩ := rows_eq_of_not_derives s.wellFormed_normal s.startUnused_normal
      s.dropsUseless.reachable s.dropsUseless.generating hnone
    refine ⟨?_, hstart, hrows⟩
    rw [← hlength, hrows]
    rfl

theorem normalize_invariants_nestedBrackets :
    nestedBrackets.validate = .ok () ∧
    ∃ n, nestedBrackets.normalize {} = .ok n ∧
      (∀ row ∈ n.rows, ∀ body ∈ row, (∃ t, body = [.terminal t]) ∨
        ∃ left right, body = [.nonterminal left, .nonterminal right]) ∧
      (∀ row ∈ n.rows, ∀ body ∈ row, .nonterminal n.start ∉ body) ∧
      (∀ row ∈ n.rows, row.Nodup) ∧
      (∀ index < n.nonterminals.length, ReflTransGen n.Uses n.start index) ∧
      (∀ index < n.nonterminals.length, index ≠ n.start →
        ∃ word, word ≠ [] ∧ n.Derives index word) ∧
      ((∀ word, ¬n.Derives n.start word) →
        n.nonterminals.length = 1 ∧ n.start = 0 ∧ n.rows = [[]]) :=
  ⟨by decide, normalize_invariants (by decide) {}⟩

end Grammar

end ChomskyChart
