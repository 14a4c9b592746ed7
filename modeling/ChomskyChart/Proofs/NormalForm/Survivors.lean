import ChomskyChart.Proofs.NormalForm.Normalize
import ChomskyChart.Proofs.NormalForm.Useful

/-!
# What stays under its name

The first three steps to a normal form put nonterminals after those of the grammar, the next two
change no nonterminal, and the last takes some out. So an old nonterminal is found by its position
up to the last step, and after it by the position to which it has moved up. It bears the same name
there, and it has the words that it had, without the empty one.

## Main results

* `Stages.derives_unitFree_iff_of_lt`: the words of the old nonterminals before the last step
* `Stages.exists_kept`: their names and words after it
* `normalize_keeps_names`: valid grammars all the way, and the old nonterminals in them
-/

namespace ChomskyChart

namespace Grammar

variable {g : Grammar} {config : NormalFormNames} {i : Nat} {word : List String}

/-! ### The steps before the last -/

namespace Stages

variable (s : g.Stages config)

theorem nonterminals_le_started : g.nonterminals <+: s.started.nonterminals := by
  rw [s.started_eq, nonterminals_withNewStart]
  exact List.prefix_append _ _

theorem nonterminals_le_isolated : g.nonterminals <+: s.isolated.nonterminals := by
  obtain ⟨added, hadded⟩ := s.isolated_eq
  rw [hadded]
  exact s.nonterminals_le_started.trans (List.prefix_append _ _)

theorem nonterminals_le_binary : g.nonterminals <+: s.binary.nonterminals := by
  obtain ⟨added, hadded⟩ := s.binary_eq
  rw [hadded]
  exact s.nonterminals_le_isolated.trans (List.prefix_append _ _)

theorem nonterminals_epsilonFree : s.epsilonFree.nonterminals = s.binary.nonterminals :=
  s.dropsEpsilon.nonterminals_eq

theorem nonterminals_unitFree : s.unitFree.nonterminals = s.binary.nonterminals := by
  rw [s.dropsUnits.nonterminals_eq, s.nonterminals_epsilonFree]

/-- The first three steps keep the words of all old nonterminals. -/
theorem derives_binary_iff_of_lt (hi : i < g.nonterminals.length) :
    s.binary.Derives i word ↔ g.Derives i word := by
  obtain ⟨standIns, hstandIns⟩ := s.isolated_eq
  obtain ⟨ends, hends⟩ := s.binary_eq
  -- what is old in the grammar is old at every step
  have hstarted : i < s.started.rows.length := by
    rw [s.wellFormed_started.length_rows]
    exact Nat.lt_of_lt_of_le hi s.nonterminals_le_started.length_le
  have hisolated : i < s.isolated.rows.length := by
    rw [s.wellFormed_isolated.length_rows]
    exact Nat.lt_of_lt_of_le hi s.nonterminals_le_isolated.length_le
  calc s.binary.Derives i word
      ↔ s.isolated.Derives i word := by
        rw [hends]
        exact (extends_withSharedEnds s.wellFormed_isolated).derives_iff_of_lt hisolated
    _ ↔ s.started.Derives i word := by
        rw [hstandIns]
        exact (extends_withStandIns s.wellFormed_started).derives_iff_of_lt hstarted
    _ ↔ g.Derives i word := by
        rw [s.started_eq]
        exact (extends_withNewStart s.wellFormed).derives_iff_of_lt (s.wellFormed.length_rows ▸ hi)

/-- The next two take the empty word from them. -/
theorem derives_unitFree_iff_of_lt (hi : i < g.nonterminals.length) :
    s.unitFree.Derives i word ↔ word ≠ [] ∧ g.Derives i word := by
  rw [s.dropsUnits.derives_iff, s.dropsEpsilon.derives_iff, s.derives_binary_iff_of_lt hi]

/-- **An old nonterminal that stays has its name and its words,** at the position to which it has
moved. -/
theorem exists_kept : ∃ kept : List Bool,
    s.normal.nonterminals = select kept s.unitFree.nonterminals ∧
    ∀ i < g.nonterminals.length, kept[i]? = some true →
      s.normal.nonterminals[newPosition kept i]? = g.nonterminals[i]? ∧
      ∀ word, s.normal.Derives (newPosition kept i) word ↔ word ≠ [] ∧ g.Derives i word := by
  obtain ⟨u, hu⟩ := s.normal_eq
  have hnames : s.normal.nonterminals = select u.kept s.unitFree.nonterminals := by
    rw [hu, u.nonterminals_result]
  refine ⟨u.kept, hnames, fun i hi hkept => ⟨?_, fun word => ?_⟩⟩
  · have hname : s.unitFree.nonterminals[i]? = some g.nonterminals[i] := by
      rw [s.nonterminals_unitFree]
      exact List.getElem?_eq_some_iff.2
        ⟨Nat.lt_of_lt_of_le hi s.nonterminals_le_binary.length_le,
          (s.nonterminals_le_binary.getElem hi).symm⟩
    rw [List.getElem?_eq_getElem hi, hnames]
    exact getElem?_select_eq_some_iff.2 ⟨i, hkept, rfl, hname⟩
  · rw [hu, u.derives_result_iff hkept, s.derives_unitFree_iff_of_lt hi]

end Stages

/-! ### The run -/

/-- **Every grammar on the way to a normal form is valid, and the old nonterminals keep their
names.** Whatever names are in use and are asked for, each step succeeds on a grammar whose parts
fit together and leaves one. Up to the last step the old nonterminals stand first, in the old order.
The last step leaves some of all these nonterminals, in the order in which they were; those of them
that are old have the name of the grammar and the words of the grammar, except the empty one. -/
theorem normalize_keeps_names (h : g.validate = .ok ()) (config : NormalFormNames) :
    ∃ r : g.Run config, g.normalize config = .ok r.normal ∧
      (∀ stage ∈ [r.started, r.isolated, r.binary, r.epsilonFree, r.unitFree, r.normal],
        stage.validate = .ok ()) ∧
      (∀ stage ∈ [r.started, r.isolated, r.binary, r.epsilonFree, r.unitFree],
        g.nonterminals <+: stage.nonterminals) ∧
      ∃ kept : List Bool,
        r.normal.nonterminals = select kept r.unitFree.nonterminals ∧
        (∀ i j, i < j → kept[i]? = some true → newPosition kept i < newPosition kept j) ∧
        ∀ i < g.nonterminals.length, kept[i]? = some true →
          r.normal.nonterminals[newPosition kept i]? = g.nonterminals[i]? ∧
          ∀ word, r.normal.Derives (newPosition kept i) word ↔ word ≠ [] ∧ g.Derives i word := by
  obtain ⟨r, s, hnormal, hstarted, hisolated, hbinary, hepsilonFree, hunitFree, hlast⟩ :=
    exists_run (validate_eq_ok_iff.1 h) config
  refine ⟨r, hnormal, ?_, ?_, ?_⟩
  · simp only [← hstarted, ← hisolated, ← hbinary, ← hepsilonFree, ← hunitFree, ← hlast,
      validate_eq_ok_iff, List.forall_mem_cons]
    exact ⟨s.wellFormed_started, s.wellFormed_isolated, s.wellFormed_binary,
      s.wellFormed_epsilonFree, s.wellFormed_unitFree, s.wellFormed_normal, by simp⟩
  · simp only [← hstarted, ← hisolated, ← hbinary, ← hepsilonFree, ← hunitFree,
      List.forall_mem_cons, s.nonterminals_epsilonFree, s.nonterminals_unitFree]
    exact ⟨s.nonterminals_le_started, s.nonterminals_le_isolated, s.nonterminals_le_binary,
      s.nonterminals_le_binary, s.nonterminals_le_binary, by simp⟩
  · rw [← hunitFree, ← hlast]
    obtain ⟨kept, hnames, hkept⟩ := s.exists_kept
    exact ⟨kept, hnames, fun i j hij hi => newPosition_lt_newPosition hi hij, hkept⟩

/-- The names asked for are all taken, by the grammar or by what earlier steps have added. -/
theorem normalize_keeps_names_nestedBrackets :
    nestedBrackets.validate = .ok () ∧
    ∃ r : nestedBrackets.Run { start := "S", terminalStem := "", binaryStem := "B" },
      nestedBrackets.normalize { start := "S", terminalStem := "", binaryStem := "B" } =
        .ok r.normal ∧
      r.isolated.validate = .ok () ∧ r.normal.validate = .ok () ∧
      ["S", "A", "B0"] <+: r.unitFree.nonterminals := by
  obtain ⟨r, hnormal, hvalid, hnames, -⟩ :=
    normalize_keeps_names (g := nestedBrackets) (by decide)
      { start := "S", terminalStem := "", binaryStem := "B" }
  exact ⟨by decide, r, hnormal, hvalid _ (by simp), hvalid _ (by simp), hnames _ (by simp)⟩

end Grammar

end ChomskyChart
