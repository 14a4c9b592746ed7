import ChomskyChart.Proofs.Language.Multiplicity
import ChomskyChart.Proofs.Language.NormalShape
import ChomskyChart.Proofs.NormalForm.Binary
import ChomskyChart.Proofs.NormalForm.Useless

/-!
# Readings through the steps of the normal form

A step of the normal form rewrites bodies one by one. If different bodies of a row stay different,
and a body has the same readings as what it becomes, then numbers that satisfy the equations of the
grammar after the step satisfy those of the grammar before.

A stand-in reads what its terminal reads, and the nonterminal of an end reads what the end reads.
What is useless has no part in any reading of what stays.

## Main definitions

* `Grammar.movedBack`: numbers for a restricted grammar, at the old positions

## Main results

* `Solves.of_rules`: a step that rewrites bodies one by one
* `Solves.of_withStandIns`, `Solves.of_withSharedEnds`, `Solves.of_restricted`: the steps
* `UsefulFlags.treeCount_start`: the trees that are left without useless nonterminals
-/

namespace ChomskyChart

namespace Grammar

variable {g r : Grammar} {M : Multiplicity} {K : Nat → Prop} {v : Nat} {word : List String}

/-! ### Equations carried back -/

/-- **A step that rewrites bodies one by one** keeps solutions if it keeps readings. -/
theorem Solves.of_rules {f : Body → Body} (hsolves : r.Solves M K)
    (hterminals : r.terminals = g.terminals)
    (hrules : ∀ v, K v → ∀ body, r.HasRule v body ↔ ∃ old, g.HasRule v old ∧ f old = body)
    (hinj : ∀ v old old', g.HasRule v old → g.HasRule v old' → f old = f old' → old = old')
    (hreadings : ∀ v old word, g.HasRule v old →
      readings g.terminals M (f old) word = readings g.terminals M old word) : g.Solves M K := by
  intro v hv word
  have hbodies : r.bodies v = (g.bodies v).image f := by
    ext body
    rw [mem_bodies_iff, hrules v hv, Finset.mem_image]
    simp only [mem_bodies_iff]
  have hinjOn : Set.InjOn f (g.bodies v) := fun old hold old' hold' =>
    hinj v old old' (mem_bodies_iff.1 hold) (mem_bodies_iff.1 hold')
  rw [hsolves v hv, hterminals, hbodies, Finset.sum_image hinjOn]
  exact Finset.sum_congr rfl fun old hold => hreadings v old word (mem_bodies_iff.1 hold)

/-- A grammar with the same rules has the same equations. -/
theorem Solves.of_hasRule_iff (hsolves : r.Solves M K) (hterminals : r.terminals = g.terminals)
    (hrules : ∀ v, K v → ∀ body, r.HasRule v body ↔ g.HasRule v body) : g.Solves M K :=
  hsolves.of_rules (f := id) hterminals (fun v hv body => by simp [hrules v hv])
    (fun _ _ _ _ _ heq => heq) fun _ _ _ _ => rfl

/-- The equation of a nonterminal with one body. -/
theorem Solves.eq_readings (hsolves : g.Solves M K) (hv : K v) {body : Body}
    (hrule : ∀ other, g.HasRule v other ↔ other = body) :
    M v word = readings g.terminals M body word := by
  have hbodies : g.bodies v = {body} := by
    ext other
    rw [mem_bodies_iff, hrule, Finset.mem_singleton]
  rw [hsolves v hv, hbodies, Finset.sum_singleton]

theorem Solves.mono {L : Nat → Prop} (hsolves : g.Solves M K) (h : ∀ v, L v → K v) :
    g.Solves M L :=
  fun v hv => hsolves v (h v hv)

end Grammar

/-! ### Stand-ins -/

section

variable {offset : Nat} {isolated : List Nat} {terminals : List String} {M : Multiplicity}
variable {body other : Body} {word : List String}

/-- Where stand-ins have the words of their terminals as often, so do bodies. -/
theorem readings_isolateBody
    (hM : ∀ k t, isolated[k]? = some t → ∀ part,
      M (offset + k) part = symbolReadings terminals M (.terminal t) part)
    (hbody : isLong body = true → ∀ t, .terminal t ∈ body → t ∈ isolated) :
    readings terminals M (isolateBody offset isolated body) word =
      readings terminals M body word := by
  cases hlong : isLong body with
  | false => rw [isolateBody_of_not_isLong hlong]
  | true =>
    rw [isolateBody_of_isLong hlong]
    replace hbody := hbody hlong
    clear hlong
    induction body generalizing word with
    | nil => rfl
    | cons s rest ih =>
      have hrest := fun part => @ih part fun t ht => hbody t (List.mem_cons_of_mem _ ht)
      refine readings_cons_congr (fun part => ?_) hrest
      cases s with
      | nonterminal index => rfl
      | terminal t =>
        exact hM _ t (List.getElem?_idxOf (hbody t List.mem_cons_self)) part

/-- The symbol is an isolated terminal or a nonterminal from before the step. -/
def IsolatedOrOld (offset : Nat) (isolated : List Nat) : SymbolId → Prop
  | .terminal t => t ∈ isolated
  | .nonterminal index => index < offset

theorem standIn_inj {s s' : SymbolId} (hs : IsolatedOrOld offset isolated s)
    (hs' : IsolatedOrOld offset isolated s')
    (heq : standIn offset isolated s = standIn offset isolated s') : s = s' := by
  cases s with
  | terminal t =>
    cases s' with
    | terminal t' =>
      have hidx : isolated.idxOf t = isolated.idxOf t' :=
        Nat.add_left_cancel (SymbolId.nonterminal.inj heq)
      have hat : isolated[isolated.idxOf t]? = some t := List.getElem?_idxOf hs
      have hat' : isolated[isolated.idxOf t']? = some t' := List.getElem?_idxOf hs'
      rw [hidx, hat'] at hat
      rw [Option.some.inj hat]
    | nonterminal index =>
      have := SymbolId.nonterminal.inj heq
      have : index < offset := hs'
      omega
  | nonterminal index =>
    cases s' with
    | terminal t' =>
      have := SymbolId.nonterminal.inj heq
      have : index < offset := hs
      omega
    | nonterminal index' => exact heq

theorem isolateBody_inj (hbody : isLong body = true → ∀ s ∈ body, IsolatedOrOld offset isolated s)
    (hother : isLong other = true → ∀ s ∈ other, IsolatedOrOld offset isolated s)
    (heq : isolateBody offset isolated body = isolateBody offset isolated other) :
    body = other := by
  have hlength : body.length = other.length := by
    simpa only [length_isolateBody] using congrArg List.length heq
  cases hlong : isLong body with
  | false =>
    have hlong' : isLong other = false := by rwa [isLong, ← hlength]
    rwa [isolateBody_of_not_isLong hlong, isolateBody_of_not_isLong hlong'] at heq
  | true =>
    have hlong' : isLong other = true := by rwa [isLong, ← hlength]
    rw [isolateBody_of_isLong hlong, isolateBody_of_isLong hlong'] at heq
    exact map_inj_of_forall
      (fun s hs s' hs' => standIn_inj (hbody hlong s hs) (hother hlong' s' hs')) heq

end

namespace Grammar

variable {g r : Grammar} {M : Multiplicity} {added : List String}

theorem length_rows_withStandIns :
    (g.withStandIns added).rows.length = g.rows.length + g.isolatedTerminals.length := by
  simp [withStandIns]

/-- **Stand-ins neither add readings nor take any.** -/
theorem Solves.of_withStandIns (h : g.WellFormed)
    (hsolves : (g.withStandIns added).Solves M (· < (g.withStandIns added).rows.length)) :
    g.Solves M (· < g.rows.length) := by
  have hisolated : ∀ v old, g.HasRule v old → isLong old = true →
      ∀ s ∈ old, IsolatedOrOld g.nonterminals.length g.isolatedTerminals s := by
    intro v old hold hlong s hs
    cases s with
    | terminal t => exact mem_isolatedTerminals_iff.2 ⟨v, old, hold, hlong, hs⟩
    | nonterminal index => exact h.length_rows ▸ h.nonterminal_lt hold hs
  have hstandIn : ∀ k t, g.isolatedTerminals[k]? = some t → ∀ part,
      M (g.nonterminals.length + k) part = symbolReadings g.terminals M (.terminal t) part := by
    intro k t ht part
    have hk := (List.getElem?_eq_some_iff.1 ht).1
    rw [← readings_singleton, ← h.length_rows]
    refine hsolves.eq_readings (by rw [length_rows_withStandIns]; omega) fun other => ?_
    rw [hasRule_withStandIns_iff]
    constructor
    · rintro (⟨old, hold, -⟩ | ⟨k', t', heq, ht', rfl⟩)
      · have := hold.lt_length_rows
        omega
      · obtain rfl : k = k' := by omega
        rw [Option.some.inj (ht.symm.trans ht')]
    · rintro rfl
      exact .inr ⟨k, t, rfl, ht, rfl⟩
  refine (hsolves.mono (L := (· < g.rows.length)) fun v hv => ?_).of_rules
    (f := isolateBody g.nonterminals.length g.isolatedTerminals) rfl (fun v hv body => ?_)
    (fun v old old' hold hold' => isolateBody_inj (hisolated v old hold) (hisolated v old' hold'))
    fun v old word hold => readings_isolateBody hstandIn fun hlong t ht =>
      mem_isolatedTerminals_iff.2 ⟨v, old, hold, hlong, ht⟩
  · rw [length_rows_withStandIns]
    exact Nat.lt_add_right _ hv
  · rw [hasRule_withStandIns_iff]
    constructor
    · rintro (⟨old, hold, rfl⟩ | ⟨k, t, rfl, -⟩)
      · exact ⟨old, hold, rfl⟩
      · omega
    · rintro ⟨old, hold, rfl⟩
      exact .inl ⟨old, hold, rfl⟩

end Grammar

/-! ### Shared ends -/

/-- Where the nonterminals of ends have the words of these ends as often, so do bodies. -/
theorem readings_shorten {terminals : List String} {M : Multiplicity} {position : Body → Nat}
    {body : Body} {word : List String}
    (hM : ∀ rest ∈ longEnds body, ∀ part, M (position rest) part = readings terminals M rest part) :
    readings terminals M (shorten position body) word = readings terminals M body word := by
  rcases shorten_cases position body with ⟨-, hsame⟩ | ⟨first, rest, rfl, -, hmem, hcut⟩
  · rw [hsame]
  · rw [hcut]
    refine readings_cons_congr (fun _ => rfl) fun part => ?_
    rw [readings_singleton]
    exact hM rest hmem part

namespace Grammar

variable {g r : Grammar} {M : Multiplicity} {added : List String}

theorem length_rows_withSharedEnds :
    (g.withSharedEnds added).rows.length = g.rows.length + g.sharedEnds.length := by
  rw [withSharedEnds, length_tableOf]

/-- An uncut body has no nonterminal of an end, and a cut body has that of its own. -/
theorem shorten_inj (h : g.WellFormed) {v : Nat} {old old' : Body} (hold : g.HasRule v old)
    (hold' : g.HasRule v old')
    (heq : shorten g.endPosition old = shorten g.endPosition old') : old = old' := by
  have hcutOff : ∀ body body' : Body, g.HasRule v body' → ∀ s rest, body = body' →
      body = [s, .nonterminal (g.endPosition rest)] → False := by
    rintro body _ hrule s rest rfl rfl
    have := h.nonterminal_lt hrule (List.mem_cons_of_mem _ List.mem_cons_self)
    rw [endPosition, h.length_rows] at this
    omega
  rcases shorten_cases g.endPosition old with ⟨-, hsame⟩ | ⟨s, rest, rfl, -, hmem, hcut⟩ <;>
    rcases shorten_cases g.endPosition old' with ⟨-, hsame'⟩ | ⟨s', rest', rfl, -, hmem', hcut'⟩
  · rwa [hsame, hsame'] at heq
  · rw [hsame, hcut'] at heq
    exact (hcutOff old old hold s' rest' rfl heq).elim
  · rw [hcut, hsame'] at heq
    exact (hcutOff old' old' hold' s rest rfl heq.symm).elim
  · rw [hcut, hcut'] at heq
    obtain ⟨rfl, htail⟩ := List.cons.inj heq
    rw [endPosition_inj (mem_sharedEnds_iff.2 ⟨v, _, hold, hmem⟩)
      (mem_sharedEnds_iff.2 ⟨v, _, hold', hmem'⟩)
      (SymbolId.nonterminal.inj (List.singleton_inj.1 htail))]

/-- The nonterminal of an end has the words of the end as often. Its rule gives the rest of the end
away, so the induction is on the end. -/
theorem Solves.eq_readings_end (h : g.WellFormed)
    (hsolves : (g.withSharedEnds added).Solves M (· < (g.withSharedEnds added).rows.length))
    {rest : Body} (hrest : rest ∈ g.sharedEnds) {part : List String} :
    M (g.endPosition rest) part = readings g.terminals M rest part := by
  have hrule : ∀ rest ∈ g.sharedEnds, ∀ part,
      M (g.endPosition rest) part = readings g.terminals M (shorten g.endPosition rest) part := by
    intro rest hrest part
    refine hsolves.eq_readings ?_ fun other => hasRule_endPosition_iff h hrest
    rw [length_rows_withSharedEnds]
    exact endPosition_lt h hrest
  induction rest generalizing part with
  | nil =>
    obtain ⟨_, _, _, hmem⟩ := mem_sharedEnds_iff.1 hrest
    exact nomatch (mem_longEnds_iff.1 hmem).1
  | cons first shorter ih =>
    rw [hrule _ hrest]
    rcases shorten_cases g.endPosition (first :: shorter) with
      ⟨-, hsame⟩ | ⟨_, _, heq, -, hmem, hcut⟩
    · rw [hsame]
    · obtain ⟨rfl, rfl⟩ := List.cons.inj heq
      rw [hcut]
      refine readings_cons_congr (fun _ => rfl) fun part => ?_
      rw [readings_singleton]
      exact ih (mem_sharedEnds_of_mem_longEnds hrest hmem)

/-- **Cutting bodies neither adds readings nor takes any.** -/
theorem Solves.of_withSharedEnds (h : g.WellFormed)
    (hsolves : (g.withSharedEnds added).Solves M (· < (g.withSharedEnds added).rows.length)) :
    g.Solves M (· < g.rows.length) := by
  refine (hsolves.mono (L := (· < g.rows.length)) fun v hv => ?_).of_rules
    (f := shorten g.endPosition) rfl (fun v hv body => ?_)
    (fun v old old' hold hold' => shorten_inj h hold hold')
    fun v old word hold => readings_shorten fun rest hmem part =>
      hsolves.eq_readings_end h (mem_sharedEnds_iff.2 ⟨v, old, hold, hmem⟩)
  · rw [length_rows_withSharedEnds]
    exact Nat.lt_add_right _ hv
  · rw [hasRule_withSharedEnds_iff h]
    constructor
    · rintro (⟨old, hold, rfl⟩ | ⟨rest, hrest, rfl, -⟩)
      · exact ⟨old, hold, rfl⟩
      · rw [endPosition_eq h] at hv
        omega
    · rintro ⟨old, hold, rfl⟩
      exact .inl ⟨old, hold, rfl⟩

end Grammar

/-! ### Useless nonterminals -/

/-- A body in new positions is read as the body was read. -/
theorem readings_map_moved {terminals : List String} {M : Multiplicity} {keep : List Bool}
    {body : Body} {word : List String} :
    readings terminals M (body.map (moved keep)) word =
      readings terminals (fun index => M (newPosition keep index)) body word := by
  induction body generalizing word with
  | nil => rfl
  | cons s rest ih =>
    rw [List.map_cons, readings, readings]
    refine Finset.sum_congr rfl fun k _ => congrArg₂ (· * ·) ?_ ih
    cases s <;> rfl

namespace Grammar

variable {g r : Grammar} {M : Multiplicity} {keep : List Bool} {i : Nat}

/-- The numbers of what stays, at the old positions, and nothing for what goes. -/
def movedBack (keep : List Bool) (M : Multiplicity) : Multiplicity :=
  fun i word => if keep[i]? = some true then M (newPosition keep i) word else 0

/-- **What goes has no part in the readings of what stays.** -/
theorem Solves.of_restricted
    (hsolves : (g.restricted keep).Solves M (· < (g.restricted keep).rows.length)) :
    g.Solves (movedBack keep M) fun i => keep[i]? = some true ∧ i < g.rows.length := by
  rintro i ⟨hi, hlt⟩ word
  have hposition : newPosition keep i < (g.restricted keep).rows.length := by
    rw [restricted, List.length_map]
    exact newPosition_lt_length_select hi hlt
  have hbodies : (g.restricted keep).bodies (newPosition keep i) =
      ((g.bodies i).filter fun body => body.all (staysIn keep) = true).image
        fun body => body.map (moved keep) := by
    ext body
    rw [mem_bodies_iff, hasRule_restricted_iff]
    simp only [Finset.mem_image, Finset.mem_filter, mem_bodies_iff, all_staysIn_iff]
    constructor
    · rintro ⟨j, old, hj, heq, hold, hall, rfl⟩
      rw [newPosition_inj hj hi heq] at hold
      exact ⟨old, ⟨hold, hall⟩, rfl⟩
    · rintro ⟨old, ⟨hold, hall⟩, rfl⟩
      exact ⟨i, old, hi, rfl, hold, hall, rfl⟩
  have hinjOn : Set.InjOn (fun body : Body => body.map (moved keep))
      ((g.bodies i).filter fun body => body.all (staysIn keep) = true) :=
    fun body hbody other hother =>
      map_moved_inj (Finset.mem_filter.1 hbody).2 (Finset.mem_filter.1 hother).2
  have hstays : ∀ body ∈ (g.bodies i).filter fun body => body.all (staysIn keep) = true,
      readings g.terminals M (body.map (moved keep)) word =
        readings g.terminals (movedBack keep M) body word := by
    intro body hbody
    rw [readings_map_moved]
    refine readings_congr fun index hmem part _ => ?_
    rw [movedBack, if_pos (all_staysIn_iff.1 (Finset.mem_filter.1 hbody).2 index hmem)]
  have hgoes : ∀ body ∈ g.bodies i, readings g.terminals (movedBack keep M) body word ≠ 0 →
      body.all (staysIn keep) = true := by
    intro body _ hne
    refine all_staysIn_iff.2 fun index hmem => ?_
    by_contra hindex
    exact hne (readings_of_mem hmem fun part => if_neg hindex)
  calc movedBack keep M i word = M (newPosition keep i) word := if_pos hi
    _ = ∑ body ∈ (g.bodies i).filter fun body => body.all (staysIn keep) = true,
          readings g.terminals M (body.map (moved keep)) word := by
        rw [hsolves _ hposition, hbodies, Finset.sum_image hinjOn]
        rfl
    _ = ∑ body ∈ (g.bodies i).filter fun body => body.all (staysIn keep) = true,
          readings g.terminals (movedBack keep M) body word := Finset.sum_congr rfl hstays
    _ = ∑ body ∈ g.bodies i, readings g.terminals (movedBack keep M) body word :=
        Finset.sum_filter_of_ne hgoes

theorem InNormalForm.proper (h : g.InNormalForm) : g.Proper := by
  intro head body hrule
  rcases h.shape hrule with ⟨t, rfl⟩ | ⟨left, right, rfl⟩
  · exact ⟨List.cons_ne_nil _ _, fun index heq => nomatch List.singleton_inj.1 heq⟩
  · exact ⟨List.cons_ne_nil _ _, fun index heq => nomatch List.tail_eq_of_cons_eq heq⟩

/-- **What stays keeps its trees,** if what goes derives nothing or does not occur in what stays. -/
theorem treeCount_restricted (h : g.WellFormed) (hnormal : g.InNormalForm)
    (hclosed : ∀ i body, keep[i]? = some true → g.HasRule i body →
      ∀ index, .nonterminal index ∈ body →
        keep[index]? = some true ∨ ∀ word, ¬g.Derives index word)
    (hi : keep[i]? = some true) (hlt : i < g.rows.length) {word : List String} :
    (g.restricted keep).treeCount (newPosition keep i) word = g.treeCount i word := by
  have hproper : (g.restricted keep).Proper := (inNormalForm_restricted hnormal).proper
  have hsolves : g.Solves (movedBack keep (g.restricted keep).treeCount) _ :=
    Solves.of_restricted solves_treeCount
  rw [← hsolves.eq_treeCount hnormal.proper ?_ ?_ ⟨hi, hlt⟩, movedBack, if_pos hi]
  · rintro v ⟨hv, -⟩
    rw [movedBack, if_pos hv, hproper.treeCount_nil]
  · rintro v body ⟨hv, -⟩ hrule index hmem
    by_cases hindex : keep[index]? = some true
    · exact .inl ⟨hindex, h.nonterminal_lt hrule hmem⟩
    · refine .inr fun part => ?_
      rw [movedBack, if_neg hindex, treeCount_eq_zero_iff.2]
      exact (hclosed v body hv hrule index hmem).resolve_left hindex part

/-- The start symbol keeps its trees when useless nonterminals go. -/
theorem UsefulFlags.treeCount_start (u : g.UsefulFlags) (h : g.WellFormed)
    (hnormal : g.InNormalForm) {word : List String} :
    u.result.treeCount u.result.start word = g.treeCount g.start word := by
  have hmiddle := wellFormed_restricted h u.productive_start
  have hreached : u.result.treeCount u.result.start word =
      (g.restricted u.productive).treeCount (g.restricted u.productive).start word := by
    refine treeCount_restricted hmiddle (inNormalForm_restricted hnormal) ?_ u.reached_start
      (hmiddle.length_rows ▸ hmiddle.start_lt)
    exact fun i body hi hrule index hmem =>
      .inl ((u.reached_iff index).2 (((u.reached_iff i).1 hi).tail ⟨body, hrule, hmem⟩))
  rw [hreached]
  refine treeCount_restricted h hnormal (fun i body hi hrule index hmem => ?_) u.productive_start
    (h.length_rows ▸ h.start_lt)
  rw [u.productive_iff]
  by_cases hderives : ∃ word, g.Derives index word
  · exact .inl (.inr hderives)
  · exact .inr (not_exists.1 hderives)

end Grammar

end ChomskyChart
