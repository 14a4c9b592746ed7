import ChomskyChart.Proofs.NormalForm.Normalize
import ChomskyChart.Proofs.NormalForm.Readings

/-!
# The normal form keeps ambiguity

If no body is empty and none is a single nonterminal, then normalizing neither adds derivation trees
to a word nor takes any from it. The only unit rule that comes up on the way is the one of the new
start symbol. So nothing is left out of a body on account of the empty word, and the new start
symbol takes over exactly the bodies of the old one. The other steps keep readings.

## Main definitions

* `Grammar.StartsAt`: the new start symbol goes to the old one, and there are no other units

## Main results

* `DropsUnits.hasRule_iff_of_startsAt`: the rules without the unit rule of the start symbol
* `Stages.treeCount_normal`: the trees of the normal form
-/

namespace ChomskyChart

open Relation

namespace Grammar

variable {g r : Grammar} {M : Multiplicity} {added : List String}

/-! ### The unit rule of the start symbol -/

theorem proper_iff :
    g.Proper ↔ ∀ row ∈ g.rows, ∀ body ∈ row, body ≠ [] ∧ isUnitBody body = false := by
  rw [forall_mem_rows_iff]
  refine forall₂_congr fun head body => imp_congr_right fun _ => and_congr_right fun _ => ?_
  rw [← Bool.not_eq_true, isUnitBody_iff, not_exists]

instance (g : Grammar) : Decidable g.Proper :=
  decidable_of_iff _ proper_iff.symm

/-- The start symbol has one rule, to another nonterminal, and beside that there are no units and no
empty bodies. -/
structure StartsAt (r : Grammar) (old : Nat) : Prop where
  hasRule_start_iff : ∀ body, r.HasRule r.start body ↔ body = [.nonterminal old]
  ne_start : old ≠ r.start
  ne_nil : ∀ v body, r.HasRule v body → body ≠ []
  eq_start : ∀ v index, r.HasRule v [.nonterminal index] → v = r.start

theorem startsAt_withNewStart (h : g.WellFormed) (hproper : g.Proper) {names : FreshNames}
    {config : NormalFormNames} : (g.withNewStart names config).1.StartsAt g.start where
  hasRule_start_iff := by
    intro body
    rw [hasRule_withNewStart_iff, start_withNewStart]
    constructor
    · rintro (hold | ⟨-, rfl⟩)
      · exact absurd hold.lt_length_rows (Nat.lt_irrefl _)
      · rfl
    · rintro rfl
      exact .inr ⟨rfl, rfl⟩
  ne_start := by
    rw [start_withNewStart, h.length_rows]
    exact Nat.ne_of_lt h.start_lt
  ne_nil := by
    intro v body hrule
    rcases hasRule_withNewStart_iff.1 hrule with hold | ⟨-, rfl⟩
    · exact (hproper v body hold).1
    · exact List.cons_ne_nil _ _
  eq_start := by
    intro v index hrule
    rcases hasRule_withNewStart_iff.1 hrule with hold | ⟨rfl, -⟩
    · exact absurd rfl ((hproper v _ hold).2 index)
    · rfl

theorem isolateBody_eq_singleton {offset : Nat} {isolated : List Nat} {body : Body} {s : SymbolId}
    (h : isolateBody offset isolated body = [s]) : body = [s] := by
  have hlength : body.length = 1 := by
    have hsame := congrArg List.length h
    rwa [length_isolateBody] at hsame
  have hshort : isLong body = false := by rw [isLong, hlength]; rfl
  rwa [isolateBody_of_not_isLong hshort] at h

theorem StartsAt.withStandIns {old : Nat} (h : g.StartsAt old) (hwf : g.WellFormed) :
    (g.withStandIns added).StartsAt old where
  hasRule_start_iff := by
    intro body
    have hstart : (g.withStandIns added).start = g.start := rfl
    rw [hstart, hasRule_withStandIns_iff]
    constructor
    · rintro (⟨old, hold, rfl⟩ | ⟨k, t, heq, -⟩)
      · rw [(h.hasRule_start_iff old).1 hold]
        rfl
      · have := hwf.start_lt
        rw [hwf.length_rows] at heq
        omega
    · rintro rfl
      exact .inl ⟨_, (h.hasRule_start_iff _).2 rfl, rfl⟩
  ne_start := h.ne_start
  ne_nil := by
    intro v body hrule
    rcases hasRule_withStandIns_iff.1 hrule with ⟨old, hold, rfl⟩ | ⟨k, t, -, -, rfl⟩
    · rw [← List.length_pos_iff, length_isolateBody, List.length_pos_iff]
      exact h.ne_nil v old hold
    · exact List.cons_ne_nil _ _
  eq_start := by
    intro v index hrule
    rcases hasRule_withStandIns_iff.1 hrule with ⟨old, hold, heq⟩ | ⟨k, t, -, -, heq⟩
    · rw [isolateBody_eq_singleton heq.symm] at hold
      exact h.eq_start v index hold
    · exact nomatch List.singleton_inj.1 heq

theorem shorten_eq_singleton {position : Body → Nat} {body : Body} {s : SymbolId}
    (h : shorten position body = [s]) : body = [s] := by
  rcases shorten_cases position body with ⟨-, hsame⟩ | ⟨_, _, -, -, -, hcut⟩
  · rwa [hsame] at h
  · rw [hcut] at h
    exact nomatch List.tail_eq_of_cons_eq h

theorem shorten_ne_nil {position : Body → Nat} {body : Body} (h : body ≠ []) :
    shorten position body ≠ [] := by
  rcases shorten_cases position body with ⟨-, hsame⟩ | ⟨_, _, -, -, -, hcut⟩
  · rwa [hsame]
  · rw [hcut]
    exact List.cons_ne_nil _ _

theorem StartsAt.withSharedEnds {old : Nat} (h : g.StartsAt old) (hwf : g.WellFormed) :
    (g.withSharedEnds added).StartsAt old where
  hasRule_start_iff := by
    intro body
    have hstart : (g.withSharedEnds added).start = g.start := rfl
    rw [hstart, hasRule_withSharedEnds_iff hwf]
    constructor
    · rintro (⟨old, hold, rfl⟩ | ⟨rest, -, heq, -⟩)
      · rw [(h.hasRule_start_iff old).1 hold]
        rfl
      · have := hwf.start_lt
        rw [endPosition] at heq
        omega
    · rintro rfl
      exact .inl ⟨_, (h.hasRule_start_iff _).2 rfl, rfl⟩
  ne_start := h.ne_start
  ne_nil := by
    intro v body hrule
    rcases (hasRule_withSharedEnds_iff hwf).1 hrule with ⟨old, hold, rfl⟩ | ⟨rest, hrest, -, rfl⟩
    · exact shorten_ne_nil (h.ne_nil v old hold)
    · obtain ⟨_, _, _, hmem⟩ := mem_sharedEnds_iff.1 hrest
      refine shorten_ne_nil (List.ne_nil_of_length_pos ?_)
      exact Nat.lt_of_lt_of_le Nat.zero_lt_two (mem_longEnds_iff.1 hmem).1
  eq_start := by
    intro v index hrule
    rcases (hasRule_withSharedEnds_iff hwf).1 hrule with ⟨old, hold, heq⟩ | ⟨rest, hrest, -, heq⟩
    · rw [shorten_eq_singleton heq.symm] at hold
      exact h.eq_start v index hold
    · obtain ⟨_, _, _, hmem⟩ := mem_sharedEnds_iff.1 hrest
      have hlength := (mem_longEnds_iff.1 hmem).1
      rw [shorten_eq_singleton heq.symm] at hlength
      exact absurd hlength (by simp)

end Grammar

/-- If nothing may be left out, the only variant is the body. -/
theorem drops_iff_of_forall_not {N : Nat → Prop} (hN : ∀ index, ¬N index) {body variant : Body} :
    Drops N body variant ↔ body = variant := by
  constructor
  · intro h
    induction h with
    | nil => rfl
    | keep _ ih => rw [ih]
    | drop hindex _ _ => exact absurd hindex (hN _)
  · rintro rfl
    induction body with
    | nil => exact .nil
    | cons s rest ih => exact .keep ih

namespace Grammar

variable {g r : Grammar} {M : Multiplicity} {old : Nat}

/-- Without empty bodies the step that drops them changes no rule. -/
theorem DropsEpsilon.hasRule_iff_of_ne_nil (h : r.DropsEpsilon g)
    (hne : ∀ v body, g.HasRule v body → body ≠ []) {v : Nat} {body : Body} :
    r.HasRule v body ↔ g.HasRule v body := by
  have hnot : ∀ index, ¬g.Derives index [] := fun index hempty => ne_nil_of_derives hne hempty rfl
  rw [h.hasRule_iff]
  simp only [drops_iff_of_forall_not hnot, exists_eq_right]
  exact and_iff_right_of_imp (hne v body)

theorem StartsAt.of_dropsEpsilon (h : g.StartsAt old) (hdrops : r.DropsEpsilon g) :
    r.StartsAt old where
  hasRule_start_iff := by
    intro body
    rw [hdrops.start_eq, hdrops.hasRule_iff_of_ne_nil h.ne_nil, h.hasRule_start_iff]
  ne_start := hdrops.start_eq ▸ h.ne_start
  ne_nil := fun v body hrule => hdrops.ne_nil hrule
  eq_start := by
    intro v index hrule
    rw [hdrops.start_eq]
    exact h.eq_start v index ((hdrops.hasRule_iff_of_ne_nil h.ne_nil).1 hrule)

theorem StartsAt.eq_of_unitSteps (h : g.StartsAt old) {v w : Nat} (hne : v ≠ g.start)
    (hsteps : ReflTransGen g.UnitStep v w) : w = v := by
  rcases hsteps.cases_head with heq | ⟨_, hstep, -⟩
  · exact heq.symm
  · exact absurd (h.eq_start v _ hstep) hne

theorem StartsAt.isUnitBody_eq_false (h : g.StartsAt old) {v : Nat} (hne : v ≠ g.start)
    {body : Body} (hrule : g.HasRule v body) : isUnitBody body = false := by
  rw [← Bool.not_eq_true, isUnitBody_iff]
  rintro ⟨index, rfl⟩
  exact hne (h.eq_start v index hrule)

/-- Where unit rules lead from the start symbol. -/
theorem StartsAt.unitSteps_start_iff (h : g.StartsAt old) {w : Nat} :
    ReflTransGen g.UnitStep g.start w ↔ w = g.start ∨ w = old := by
  constructor
  · intro hsteps
    rcases hsteps.cases_head with heq | ⟨next, hstep, hsteps⟩
    · exact .inl heq.symm
    · obtain rfl := SymbolId.nonterminal.inj
        (List.singleton_inj.1 ((h.hasRule_start_iff _).1 hstep))
      exact .inr (h.eq_of_unitSteps h.ne_start hsteps)
  · rintro (rfl | rfl)
    · exact .refl
    · exact .single ((h.hasRule_start_iff _).2 rfl)

/-- Where the only unit rule is that of the start symbol, all other nonterminals keep their rules,
and the start symbol takes over those of its target. -/
theorem DropsUnits.hasRule_iff_of_startsAt (h : r.DropsUnits g) (hstart : g.StartsAt old) {v : Nat}
    {body : Body} :
    r.HasRule v body ↔ g.HasRule (if v = g.start then old else v) body := by
  rw [h.hasRule_iff]
  split
  · rename_i hv
    subst hv
    constructor
    · rintro ⟨hnot, member, hsteps, hmember⟩
      rcases hstart.unitSteps_start_iff.1 hsteps with rfl | rfl
      · rw [(hstart.hasRule_start_iff body).1 hmember] at hnot
        exact nomatch hnot
      · exact hmember
    · intro hrule
      exact ⟨hstart.isUnitBody_eq_false hstart.ne_start hrule, old,
        hstart.unitSteps_start_iff.2 (.inr rfl), hrule⟩
  · rename_i hne
    constructor
    · rintro ⟨-, member, hsteps, hmember⟩
      rwa [hstart.eq_of_unitSteps hne hsteps] at hmember
    · intro hrule
      exact ⟨hstart.isUnitBody_eq_false hne hrule, v, .refl, hrule⟩

/-- **Dropping the unit rule of the start symbol** changes no solution. -/
theorem Solves.of_dropsUnits (hdrops : r.DropsUnits g) (hstart : g.StartsAt old)
    (hold : old < g.rows.length) (hsolves : r.Solves M (· < r.rows.length)) :
    g.Solves M (· < g.rows.length) := by
  have hrules : ∀ v, v ≠ g.start → r.bodies v = g.bodies v := by
    intro v hne
    ext body
    rw [mem_bodies_iff, mem_bodies_iff, hdrops.hasRule_iff_of_startsAt hstart, if_neg hne]
  have hequation : ∀ v, v ≠ g.start → v < g.rows.length → ∀ word,
      M v word = ∑ body ∈ g.bodies v, readings g.terminals M body word := by
    intro v hne hv word
    rw [hsolves v (hdrops.length_rows_eq ▸ hv), hrules v hne, hdrops.terminals_eq]
  intro v hv word
  by_cases hne : v = g.start
  · subst hne
    have hbodies : r.bodies g.start = g.bodies old := by
      ext body
      rw [mem_bodies_iff, mem_bodies_iff, hdrops.hasRule_iff_of_startsAt hstart, if_pos rfl]
    have hunit : g.bodies g.start = {[.nonterminal old]} := by
      ext body
      rw [mem_bodies_iff, hstart.hasRule_start_iff, Finset.mem_singleton]
    rw [hsolves g.start (hdrops.length_rows_eq ▸ hv), hbodies, hdrops.terminals_eq, hunit,
      Finset.sum_singleton, readings_singleton]
    exact (hequation old hstart.ne_start hold word).symm
  · exact hequation v hne hv word

/-! ### All steps -/

namespace Stages

variable {config : NormalFormNames} (s : g.Stages config)

theorem startsAt_binary (hproper : g.Proper) : s.binary.StartsAt g.start := by
  obtain ⟨standIns, hstandIns⟩ := s.isolated_eq
  obtain ⟨ends, hends⟩ := s.binary_eq
  have hstarted : s.started.StartsAt g.start := by
    rw [s.started_eq]
    exact startsAt_withNewStart s.wellFormed hproper
  have hisolated : s.isolated.StartsAt g.start := by
    rw [hstandIns]
    exact hstarted.withStandIns s.wellFormed_started
  rw [hends]
  exact hisolated.withSharedEnds s.wellFormed_isolated

theorem inNormalForm_unitFree : s.unitFree.InNormalForm :=
  s.dropsUnits.inNormalForm (s.dropsEpsilon.bodiesBinary s.bodiesBinary_binary)
    fun _ _ => s.dropsEpsilon.ne_nil

/-- Numbers for the grammar after the third step are numbers for the grammar. -/
theorem solves_of_binary {M : Multiplicity}
    (hsolves : s.binary.Solves M (· < s.binary.rows.length)) :
    g.Solves M (· < g.rows.length) := by
  obtain ⟨standIns, hstandIns⟩ := s.isolated_eq
  obtain ⟨ends, hends⟩ := s.binary_eq
  rw [hends] at hsolves
  have hisolated := hsolves.of_withSharedEnds s.wellFormed_isolated
  rw [hstandIns] at hisolated
  have hstarted := hisolated.of_withStandIns s.wellFormed_started
  rw [s.started_eq] at hstarted
  refine (hstarted.mono (L := (· < g.rows.length)) fun v hv => ?_).of_hasRule_iff rfl
    fun v hv body => ?_
  · exact Nat.lt_of_lt_of_le hv (by simp [withNewStart])
  · rw [hasRule_withNewStart_iff, or_iff_left]
    rintro ⟨rfl, -⟩
    exact Nat.lt_irrefl _ hv

/-- The first four steps do not shorten the table. -/
theorem length_rows_le_epsilonFree : g.rows.length ≤ s.epsilonFree.rows.length := by
  obtain ⟨standIns, hstandIns⟩ := s.isolated_eq
  obtain ⟨ends, hends⟩ := s.binary_eq
  rw [s.dropsEpsilon.length_rows_eq, hends, length_rows_withSharedEnds, hstandIns,
    length_rows_withStandIns, s.started_eq]
  simp only [withNewStart, List.length_append]
  omega

/-- **Normalizing keeps the number of derivation trees,** if there are no empty bodies and no
units. -/
theorem treeCount_normal (hproper : g.Proper) {word : List String} :
    s.normal.treeCount s.normal.start word = g.treeCount g.start word := by
  have hbinary := s.startsAt_binary hproper
  have hepsilonFree := hbinary.of_dropsEpsilon s.dropsEpsilon
  have hstart : g.start < g.rows.length := s.wellFormed.length_rows ▸ s.wellFormed.start_lt
  have hsolves : s.epsilonFree.Solves s.unitFree.treeCount (· < s.epsilonFree.rows.length) :=
    solves_treeCount.of_dropsUnits s.dropsUnits hepsilonFree
      (Nat.lt_of_lt_of_le hstart s.length_rows_le_epsilonFree)
  have hsolves' : s.binary.Solves s.unitFree.treeCount (· < s.binary.rows.length) := by
    rw [← s.dropsEpsilon.length_rows_eq]
    exact hsolves.of_hasRule_iff s.dropsEpsilon.terminals_eq
      fun _ _ _ => s.dropsEpsilon.hasRule_iff_of_ne_nil hbinary.ne_nil
  have hold : s.unitFree.treeCount g.start word = g.treeCount g.start word :=
    (s.solves_of_binary hsolves').eq_treeCount hproper
      (fun _ _ => s.inNormalForm_unitFree.proper.treeCount_nil)
      (fun v body _ hrule index hmem => .inl (s.wellFormed.nonterminal_lt hrule hmem)) hstart
  have hnew : s.unitFree.treeCount s.epsilonFree.start word =
      s.unitFree.treeCount g.start word := by
    have hlt : s.epsilonFree.start < s.epsilonFree.rows.length :=
      s.wellFormed_epsilonFree.length_rows ▸ s.wellFormed_epsilonFree.start_lt
    rw [hsolves.eq_readings hlt hepsilonFree.hasRule_start_iff, readings_singleton]
    rfl
  obtain ⟨u, hu⟩ := s.normal_eq
  rw [hu, u.treeCount_start s.wellFormed_unitFree s.inNormalForm_unitFree, s.dropsUnits.start_eq,
    hnew, hold]

end Stages

end Grammar

end ChomskyChart
