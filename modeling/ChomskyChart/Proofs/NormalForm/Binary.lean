import ChomskyChart.Proofs.Grammar.Occurrences
import ChomskyChart.Proofs.NormalForm.CuttingRuns
import ChomskyChart.Proofs.NormalForm.Terminals

/-!
# Shared ends

A body that is cut keeps its first symbol and leaves the rest to the nonterminal of that end. An end
is cut in turn, so its nonterminal is explained by that of a shorter end, and the words of a shared
end are found by induction on the end.

As for stand-ins, all is said about `Grammar.withSharedEnds`, in which the names are given and
nothing can fail.

## Main definitions

* `HasBinaryShape`, `Grammar.BodiesBinary`: at most two symbols, and if two, then nonterminals

## Main results

* `exists_withBinaryBodies`: the step succeeds, with new names
* `hasRule_withSharedEnds_iff`: the rules afterwards
* `extends_withSharedEnds`: the words afterwards
* `exists_withSharedEnds`, `bodiesBinary_withSharedEnds`, `startUnused_withSharedEnds`: the form of
  the grammar afterwards
* `withBinaryBodies_keeps_words`: what the step does to a grammar that passes the check
-/

namespace ChomskyChart

/-! ### Ends of a body -/

/-- The ends that get a nonterminal, without the order in which they come. -/
theorem mem_longEnds_iff {body rest : Body} :
    rest ∈ longEnds body ↔ 2 ≤ rest.length ∧ rest ≠ body ∧ rest <:+ body := by
  induction body with
  | nil =>
    simp only [longEnds, List.not_mem_nil, List.suffix_nil, false_iff, not_and]
    exact fun _ hne heq => hne heq
  | cons s tail ih =>
    rcases Nat.lt_or_ge tail.length 2 with hlt | hge
    · rw [longEnds_cons_of_lt hlt]
      simp only [List.not_mem_nil, false_iff, not_and]
      intro hlength hne hsuffix
      rcases List.suffix_cons_iff.1 hsuffix with heq | hsuffix
      · exact hne heq
      · have := hsuffix.length_le
        omega
    · rw [longEnds_cons_of_le hge, List.mem_cons, ih]
      constructor
      · rintro (rfl | ⟨hlength, -, hsuffix⟩)
        · exact ⟨hge, fun heq => List.cons_ne_self _ _ heq.symm, List.suffix_cons _ _⟩
        · refine ⟨hlength, ?_, hsuffix.trans (List.suffix_cons _ _)⟩
          rintro rfl
          have := hsuffix.length_le
          rw [List.length_cons] at this
          omega
      · rintro ⟨hlength, hne, hsuffix⟩
        rcases List.suffix_cons_iff.1 hsuffix with heq | hsuffix
        · exact absurd heq hne
        · by_cases heq : rest = tail
          · exact .inl heq
          · exact .inr ⟨hlength, heq, hsuffix⟩

section

variable {position : Body → Nat}

/-- The two cases of cutting a body: it is short and stays, or it gives its rest away. -/
theorem shorten_cases (position : Body → Nat) (body : Body) :
    (body.length ≤ 2 ∧ shorten position body = body) ∨
      ∃ first rest, body = first :: rest ∧ 2 ≤ rest.length ∧ rest ∈ longEnds body ∧
        shorten position body = [first, .nonterminal (position rest)] := by
  cases body with
  | nil => exact .inl ⟨Nat.zero_le _, rfl⟩
  | cons first rest =>
    rcases Nat.lt_or_ge rest.length 2 with hlt | hge
    · have hlength : (first :: rest).length ≤ 2 := by simp only [List.length_cons]; omega
      exact .inl ⟨hlength, shorten_of_length_le hlength⟩
    · refine .inr ⟨first, rest, rfl, hge, ?_, shorten_cons_of_le hge⟩
      rw [longEnds_cons_of_le hge]
      exact List.mem_cons_self

theorem length_shorten_le (body : Body) : (shorten position body).length ≤ 2 := by
  rcases shorten_cases position body with ⟨hlength, hsame⟩ | ⟨first, rest, -, -, -, hcut⟩
  · rwa [hsame]
  · rw [hcut]
    exact Nat.le_refl _

/-- Where the nonterminals of ends have the words of these ends, bodies keep their words. -/
theorem reads_shorten_iff {terminals : List String} {S : Interpretation} {body : Body}
    (hS : ∀ rest ∈ longEnds body, ∀ word, S (position rest) word ↔ Reads terminals S rest word)
    {word : List String} :
    Reads terminals S (shorten position body) word ↔ Reads terminals S body word := by
  rcases shorten_cases position body with ⟨-, hsame⟩ | ⟨first, rest, rfl, -, hmem, hcut⟩
  · rw [hsame]
  · rw [hcut, reads_cons_iff, reads_cons_iff (s := first)]
    simp only [reads_nonterminal_iff, hS rest hmem]

end

/-! ### Filled tables -/

theorem mem_entriesAt_iff {entries : List (Nat × Body)} {i : Nat} {body : Body} :
    body ∈ entriesAt entries i ↔ (i, body) ∈ entries := by
  simp only [entriesAt, List.mem_filterMap, Option.ite_none_right_eq_some, Option.some.injEq,
    Prod.exists]
  constructor
  · rintro ⟨_, _, hmem, rfl, rfl⟩
    exact hmem
  · intro hmem
    exact ⟨i, body, hmem, rfl, rfl⟩

namespace Grammar

variable {g : Grammar} {added : List String}

theorem hasRule_tableOf_iff {count : Nat} {entries : List (Nat × Body)}
    (hrows : g.rows = tableOf count entries) {head : Nat} {body : Body} :
    g.HasRule head body ↔ head < count ∧ (head, body) ∈ entries := by
  rw [HasRule, hrows]
  constructor
  · rintro ⟨row, hrow, hbody⟩
    have hlt := (List.getElem?_eq_some_iff.1 hrow).1
    rw [length_tableOf] at hlt
    rw [getElem?_tableOf hlt, Option.some.injEq] at hrow
    rw [← hrow, List.mem_eraseDups, mem_entriesAt_iff] at hbody
    exact ⟨hlt, hbody⟩
  · rintro ⟨hlt, hmem⟩
    refine ⟨_, getElem?_tableOf hlt, ?_⟩
    rw [List.mem_eraseDups, mem_entriesAt_iff]
    exact hmem

/-! ### The step, with names given -/

theorem mem_sharedEnds_iff {rest : Body} :
    rest ∈ g.sharedEnds ↔ ∃ head body, g.HasRule head body ∧ rest ∈ longEnds body := by
  simp only [sharedEnds, List.mem_eraseDups, List.mem_flatMap, List.mem_flatten]
  constructor
  · rintro ⟨body, ⟨row, hrow, hbody⟩, hrest⟩
    obtain ⟨head, hhead⟩ := List.getElem?_of_mem hrow
    exact ⟨head, body, ⟨row, hhead, hbody⟩, hrest⟩
  · rintro ⟨head, body, ⟨row, hrow, hbody⟩, hrest⟩
    exact ⟨body, ⟨row, List.mem_of_getElem? hrow, hbody⟩, hrest⟩

/-- The ends of a shared end are shared themselves. -/
theorem mem_sharedEnds_of_mem_longEnds {rest shorter : Body} (hrest : rest ∈ g.sharedEnds)
    (hshorter : shorter ∈ longEnds rest) : shorter ∈ g.sharedEnds := by
  obtain ⟨head, body, hrule, hmem⟩ := mem_sharedEnds_iff.1 hrest
  exact mem_sharedEnds_iff.2 ⟨head, body, hrule, longEnds_subset hmem hshorter⟩

/-- The shared ends are the proper ends of long bodies, down to those of two symbols. -/
theorem mem_sharedEnds_iff_suffix {rest : Body} :
    rest ∈ g.sharedEnds ↔ 2 ≤ rest.length ∧
      ∃ head body, g.HasRule head body ∧ 2 < body.length ∧ rest <:+ body ∧ rest ≠ body := by
  simp only [mem_sharedEnds_iff, mem_longEnds_iff]
  constructor
  · rintro ⟨head, body, hrule, hlength, hne, hsuffix⟩
    have hlt : rest.length < body.length :=
      Nat.lt_of_le_of_ne hsuffix.length_le fun heq => hne (hsuffix.eq_of_length heq)
    exact ⟨hlength, head, body, hrule, Nat.lt_of_le_of_lt hlength hlt, hsuffix, hne⟩
  · rintro ⟨hlength, head, body, hrule, -, hsuffix, hne⟩
    exact ⟨head, body, hrule, hlength, hne, hsuffix⟩

/-- A shared end has only symbols of a body. -/
theorem exists_hasRule_of_mem_sharedEnds {rest : Body} (hrest : rest ∈ g.sharedEnds) :
    ∃ head body, g.HasRule head body ∧ ∀ s ∈ rest, s ∈ body := by
  obtain ⟨head, body, hrule, hmem⟩ := mem_sharedEnds_iff.1 hrest
  exact ⟨head, body, hrule, fun _ hs => (mem_longEnds_iff.1 hmem).2.2.subset hs⟩

theorem endPosition_eq (h : g.WellFormed) (rest : Body) :
    g.endPosition rest = g.rows.length + g.sharedEnds.idxOf rest := by
  rw [endPosition, h.length_rows]

theorem endPosition_lt (h : g.WellFormed) {rest : Body} (hrest : rest ∈ g.sharedEnds) :
    g.endPosition rest < g.rows.length + g.sharedEnds.length := by
  rw [endPosition_eq h]
  exact Nat.add_lt_add_left (List.idxOf_lt_length_of_mem hrest) _

theorem getElem?_idxOf_sharedEnds {rest : Body} (hrest : rest ∈ g.sharedEnds) :
    g.sharedEnds[g.sharedEnds.idxOf rest]? = some rest :=
  List.getElem?_idxOf hrest

theorem endPosition_of_getElem? {k : Nat} {rest : Body} (hrest : g.sharedEnds[k]? = some rest) :
    g.endPosition rest = g.nonterminals.length + k := by
  have hnodup : g.sharedEnds.Nodup := nodup_eraseDups _
  obtain ⟨hlt, rfl⟩ := List.getElem?_eq_some_iff.1 hrest
  rw [endPosition, hnodup.idxOf_getElem k hlt]

theorem endPosition_inj {rest rest' : Body} (hrest : rest ∈ g.sharedEnds)
    (hrest' : rest' ∈ g.sharedEnds) (heq : g.endPosition rest = g.endPosition rest') :
    rest = rest' := by
  have hidx : g.sharedEnds.idxOf rest = g.sharedEnds.idxOf rest' := Nat.add_left_cancel heq
  have hat := getElem?_idxOf_sharedEnds hrest
  rw [hidx, getElem?_idxOf_sharedEnds hrest'] at hat
  exact (Option.some.inj hat).symm

theorem mem_cutEntries_iff {head : Nat} {body : Body} :
    (head, body) ∈ g.cutEntries ↔
      (∃ old, g.HasRule head old ∧ body = shorten g.endPosition old) ∨
      ∃ rest ∈ g.sharedEnds, head = g.endPosition rest ∧ body = shorten g.endPosition rest := by
  simp only [cutEntries, binaryEntries, List.mem_flatMap, Prod.exists, List.mem_cons,
    Prod.mk.injEq, List.mem_map, mem_headedBodies]
  constructor
  · rintro ⟨i, old, hold, ⟨rfl, rfl⟩ | ⟨rest, hrest, rfl, rfl⟩⟩
    · exact .inl ⟨old, hold, rfl⟩
    · exact .inr ⟨rest, mem_sharedEnds_iff.2 ⟨i, old, hold, hrest⟩, rfl, rfl⟩
  · rintro (⟨old, hold, rfl⟩ | ⟨rest, hrest, rfl, rfl⟩)
    · exact ⟨head, old, hold, .inl ⟨rfl, rfl⟩⟩
    · obtain ⟨i, old, hold, hmem⟩ := mem_sharedEnds_iff.1 hrest
      exact ⟨i, old, hold, .inr ⟨rest, hmem, rfl, rfl⟩⟩

theorem head_lt_of_mem_cutEntries (h : g.WellFormed) {entry : Nat × Body}
    (hentry : entry ∈ g.cutEntries) : entry.1 < g.rows.length + g.sharedEnds.length := by
  obtain ⟨head, body⟩ := entry
  rcases mem_cutEntries_iff.1 hentry with ⟨old, hold, -⟩ | ⟨rest, hrest, rfl, -⟩
  · have := hold.lt_length_rows
    exact Nat.lt_add_right _ this
  · exact endPosition_lt h hrest

/-- **On a well-formed grammar the step succeeds,** and all names that it needs are new. -/
theorem exists_withBinaryBodies (h : g.WellFormed) (names : FreshNames)
    (config : NormalFormNames) :
    ∃ added after, g.withBinaryBodies names config = .ok (g.withSharedEnds added, after) ∧
      added.length = g.sharedEnds.length ∧ names.Draws added after := by
  have hfits : ¬(g.rows.length < g.nonterminals.length ∧ g.sharedEnds ≠ []) :=
    fun hfew => Nat.ne_of_lt hfew.1 h.length_rows
  refine ⟨_, _, ?_, FreshNames.length_numberedMany names config.binaryStem _,
    names.draws_numberedMany config.binaryStem g.sharedEnds.length⟩
  exact (withBinaryBodies_eq g names config).trans (if_neg hfits)

theorem hasRule_withSharedEnds_iff (h : g.WellFormed) {head : Nat} {body : Body} :
    (g.withSharedEnds added).HasRule head body ↔
      (∃ old, g.HasRule head old ∧ body = shorten g.endPosition old) ∨
      ∃ rest ∈ g.sharedEnds, head = g.endPosition rest ∧ body = shorten g.endPosition rest := by
  have hrows : (g.withSharedEnds added).rows =
      tableOf (g.rows.length + g.sharedEnds.length) g.cutEntries := rfl
  rw [hasRule_tableOf_iff hrows, ← mem_cutEntries_iff]
  exact and_iff_right_of_imp fun hentry => head_lt_of_mem_cutEntries h hentry

/-- The nonterminal of an end has one rule, which gives the rest of the end away. -/
theorem hasRule_endPosition_iff (h : g.WellFormed) {rest body : Body}
    (hrest : rest ∈ g.sharedEnds) :
    (g.withSharedEnds added).HasRule (g.endPosition rest) body ↔
      body = shorten g.endPosition rest := by
  rw [hasRule_withSharedEnds_iff h]
  constructor
  · rintro (⟨old, hold, -⟩ | ⟨other, hother, heq, rfl⟩)
    · have := hold.lt_length_rows
      rw [endPosition_eq h] at this
      omega
    · rw [endPosition_inj hrest hother heq]
  · rintro rfl
    exact .inr ⟨rest, hrest, rfl, rfl⟩

/-- The row of the nonterminal of an end. -/
theorem getElem?_rows_endPosition (h : g.WellFormed) {rest : Body} (hrest : rest ∈ g.sharedEnds) :
    (g.withSharedEnds added).rows[g.endPosition rest]? = some [shorten g.endPosition rest] := by
  have hrule : ∀ body, (g.withSharedEnds added).HasRule (g.endPosition rest) body ↔
      body = shorten g.endPosition rest := fun _ => hasRule_endPosition_iff h hrest
  obtain ⟨row, hrow, -⟩ := (hrule _).2 rfl
  have hnodup : row.Nodup := nodup_of_mem_tableOf (List.mem_of_getElem? hrow)
  rw [hrow, eq_singleton_of_nodup hnodup fun body => ?_]
  rw [← hrule, HasRule, hrow]
  simp

/-! ### Words -/

/-- The nonterminal of an end derives the words of that end. Its rule gives the rest of the end
away, so the induction is on the end. -/
private theorem derives_endPosition (h : g.WellFormed) {rest : Body} (hrest : rest ∈ g.sharedEnds)
    {word : List String}
    (hword : Reads g.terminals (g.withSharedEnds added).Derives rest word) :
    (g.withSharedEnds added).Derives (g.endPosition rest) word := by
  induction rest generalizing word with
  | nil =>
    obtain ⟨_, _, _, hmem⟩ := mem_sharedEnds_iff.1 hrest
    exact nomatch (mem_longEnds_iff.1 hmem).1
  | cons first shorter ih =>
    refine closed_derives _ ((hasRule_withSharedEnds_iff h).2 (.inr ⟨_, hrest, rfl, rfl⟩)) ?_
    rcases shorten_cases g.endPosition (first :: shorter) with
      ⟨-, hsame⟩ | ⟨_, _, heq, -, hmem, hcut⟩
    · rw [hsame]
      exact hword
    · obtain ⟨rfl, rfl⟩ := List.cons.inj heq
      rw [hcut]
      rw [reads_cons_iff] at hword ⊢
      obtain ⟨part, tail, rfl, hpart, htail⟩ := hword
      refine ⟨part, tail, rfl, hpart, reads_nonterminal_iff.2 ?_⟩
      exact ih (mem_sharedEnds_of_mem_longEnds hrest hmem) htail

private theorem extended_endPosition_iff (h : g.WellFormed) {rest : Body}
    (hrest : rest ∈ g.sharedEnds) {word : List String} :
    g.extended g.sharedEnds (g.endPosition rest) word ↔
      Reads g.terminals (g.extended g.sharedEnds) rest word := by
  obtain ⟨head, body, hrule, hsymbols⟩ := exists_hasRule_of_mem_sharedEnds hrest
  rw [endPosition_eq h, extended_add, getElem?_idxOf_sharedEnds hrest,
    reads_extended_iff fun _ hmem => h.nonterminal_lt hrule (hsymbols _ hmem)]
  simp

/-- **The nonterminal of a shared end stands for that end,** and old nonterminals keep their
words. -/
theorem extends_withSharedEnds (h : g.WellFormed) :
    (g.withSharedEnds added).Extends g g.sharedEnds where
  terminals_eq := rfl
  closed_extended := by
    intro head body word hrule hword
    have hterminals : (g.withSharedEnds added).terminals = g.terminals := rfl
    rw [hterminals] at hword
    rcases (hasRule_withSharedEnds_iff h).1 hrule with ⟨old, hold, rfl⟩ | ⟨rest, hrest, rfl, rfl⟩
    · rw [reads_shorten_iff fun rest hmem word =>
          extended_endPosition_iff h (mem_sharedEnds_iff.2 ⟨head, old, hold, hmem⟩),
        reads_extended_iff fun _ => h.nonterminal_lt hold] at hword
      exact (extended_of_lt hold.lt_length_rows).2 (closed_derives g hold hword)
    · rw [reads_shorten_iff fun shorter hmem word =>
          extended_endPosition_iff h (mem_sharedEnds_of_mem_longEnds hrest hmem)] at hword
      exact (extended_endPosition_iff h hrest).2 hword
  closed_derives := by
    intro head body word hrule hword
    refine closed_derives _ ((hasRule_withSharedEnds_iff h).2 (.inl ⟨body, hrule, rfl⟩)) ?_
    rcases shorten_cases g.endPosition body with ⟨-, hsame⟩ | ⟨first, rest, rfl, -, hmem, hcut⟩
    · rw [hsame]
      exact hword
    · rw [hcut]
      rw [reads_cons_iff] at hword ⊢
      obtain ⟨part, tail, rfl, hpart, htail⟩ := hword
      refine ⟨part, tail, rfl, hpart, reads_nonterminal_iff.2 ?_⟩
      exact derives_endPosition h (mem_sharedEnds_iff.2 ⟨head, _, hrule, hmem⟩) htail
  derives_of_reads := by
    intro k rest hrest word hword
    have hmem := List.mem_of_getElem? hrest
    rw [h.length_rows, ← endPosition_of_getElem? hrest]
    exact derives_endPosition h hmem hword

/-! ### Form -/

end Grammar

/-- The body has at most two symbols, and if it has two, then these are nonterminals. -/
def HasBinaryShape (body : Body) : Prop :=
  body.length ≤ 2 ∧ (body.length = 2 → ∀ t, .terminal t ∉ body)

namespace Grammar

variable {g : Grammar} {added : List String}

/-- All bodies have at most two symbols, and a body of two consists of nonterminals. -/
def BodiesBinary (g : Grammar) : Prop :=
  ∀ head body, g.HasRule head body → HasBinaryShape body

theorem BodiesBinary.terminalsIsolated (h : g.BodiesBinary) : g.TerminalsIsolated :=
  fun head body hrule hlength =>
    (h head body hrule).2 (Nat.le_antisymm (h head body hrule).1 hlength)

/-- A cut body of nonterminals, or an uncut one. -/
private theorem hasBinaryShape_shorten {position : Body → Nat} {body : Body}
    (hbody : 2 ≤ body.length → ∀ t, .terminal t ∉ body) :
    HasBinaryShape (shorten position body) := by
  rcases shorten_cases position body with ⟨hlength, hsame⟩ | ⟨first, rest, rfl, hlength, -, hcut⟩
  · rw [hsame]
    exact ⟨hlength, fun htwo => hbody (Nat.le_of_eq htwo.symm)⟩
  · rw [hcut]
    refine ⟨Nat.le_refl _, fun _ t ht => ?_⟩
    rcases List.mem_cons.1 ht with rfl | ht
    · exact hbody (Nat.le_succ_of_le hlength) t List.mem_cons_self
    · exact nomatch List.mem_singleton.1 ht

theorem bodiesBinary_withSharedEnds (h : g.WellFormed) (hisolated : g.TerminalsIsolated) :
    (g.withSharedEnds added).BodiesBinary := by
  intro head body hrule
  rcases (hasRule_withSharedEnds_iff h).1 hrule with ⟨old, hold, rfl⟩ | ⟨rest, hrest, rfl, rfl⟩
  · exact hasBinaryShape_shorten (hisolated head old hold)
  · obtain ⟨i, old, hold, hmem⟩ := mem_sharedEnds_iff.1 hrest
    obtain ⟨hlength, -, hsuffix⟩ := mem_longEnds_iff.1 hmem
    refine hasBinaryShape_shorten fun _ t ht => ?_
    exact hisolated i old hold (Nat.le_trans hlength hsuffix.length_le) t (hsuffix.subset ht)

/-- The symbols of a cut body are old, or stand for one of its ends. -/
private theorem mem_shorten {body : Body} {s : SymbolId} (hs : s ∈ shorten g.endPosition body) :
    s ∈ body ∨ ∃ rest ∈ longEnds body, s = .nonterminal (g.endPosition rest) := by
  rcases shorten_cases g.endPosition body with ⟨-, hsame⟩ | ⟨first, rest, rfl, -, hmem, hcut⟩
  · exact .inl (hsame ▸ hs)
  · rw [hcut] at hs
    rcases List.mem_cons.1 hs with rfl | hs
    · exact .inl List.mem_cons_self
    · exact .inr ⟨rest, hmem, List.mem_singleton.1 hs⟩

/-- All symbols of the table are old, or stand for shared ends. -/
theorem mem_of_hasRule_withSharedEnds (h : g.WellFormed) {head : Nat} {body : Body}
    (hrule : (g.withSharedEnds added).HasRule head body) {s : SymbolId} (hs : s ∈ body) :
    (∃ i old, g.HasRule i old ∧ s ∈ old) ∨
      ∃ rest ∈ g.sharedEnds, s = .nonterminal (g.endPosition rest) := by
  rcases (hasRule_withSharedEnds_iff h).1 hrule with ⟨old, hold, rfl⟩ | ⟨rest, hrest, rfl, rfl⟩
  · rcases mem_shorten hs with hs | ⟨rest, hmem, rfl⟩
    · exact .inl ⟨head, old, hold, hs⟩
    · exact .inr ⟨rest, mem_sharedEnds_iff.2 ⟨head, old, hold, hmem⟩, rfl⟩
  · rcases mem_shorten hs with hs | ⟨shorter, hmem, rfl⟩
    · obtain ⟨i, old, hold, hsymbols⟩ := exists_hasRule_of_mem_sharedEnds hrest
      exact .inl ⟨i, old, hold, hsymbols s hs⟩
    · exact .inr ⟨shorter, mem_sharedEnds_of_mem_longEnds hrest hmem, rfl⟩

theorem wellFormed_withSharedEnds (h : g.WellFormed) {names after : FreshNames}
    (hcovers : names.Covers g) (hdraws : names.Draws added after)
    (hlength : added.length = g.sharedEnds.length) : (g.withSharedEnds added).WellFormed := by
  have hrows := h.length_rows
  have hstart := h.start_lt
  refine h.extend hcovers hdraws rfl rfl (by simp [withSharedEnds, hrows, hlength])
    (by simp only [withSharedEnds, List.length_append]; omega) ?_
  refine forall_mem_rows_iff.2 fun head body hrule s hs => ?_
  rcases mem_of_hasRule_withSharedEnds h hrule hs with ⟨i, old, hold, hs⟩ | ⟨rest, hrest, rfl⟩
  · cases s with
    | terminal t => exact h.terminal_lt hold hs
    | nonterminal index =>
      have := h.nonterminal_lt hold hs
      simp only [Declares, withSharedEnds, List.length_append]
      omega
  · have := endPosition_lt h hrest
    simp only [Declares, withSharedEnds, List.length_append, hlength]
    omega

/-- **The step keeps a grammar well-formed,** if all its names are taken. -/
theorem exists_withSharedEnds (h : g.WellFormed) {names : FreshNames} (hcovers : names.Covers g)
    (config : NormalFormNames) :
    ∃ added after, g.withBinaryBodies names config = .ok (g.withSharedEnds added, after) ∧
      (g.withSharedEnds added).WellFormed ∧ after.Covers (g.withSharedEnds added) := by
  obtain ⟨added, after, hstep, hlength, hdraws⟩ := exists_withBinaryBodies h names config
  exact ⟨added, after, hstep, wellFormed_withSharedEnds h hcovers hdraws hlength,
    hcovers.extend hdraws rfl rfl⟩

theorem startUnused_withSharedEnds (h : g.WellFormed) (hunused : g.StartUnused) :
    (g.withSharedEnds added).StartUnused := by
  intro head body hrule hmem
  have hstart : (g.withSharedEnds added).start = g.start := rfl
  rw [hstart] at hmem
  rcases mem_of_hasRule_withSharedEnds h hrule hmem with ⟨i, old, hold, hs⟩ | ⟨rest, -, heq⟩
  · exact hunused i old hold hs
  · have := h.start_lt
    rw [SymbolId.nonterminal.injEq, endPosition] at heq
    omega

theorem length_le_two_of_hasRule_withSharedEnds (h : g.WellFormed) {head : Nat} {body : Body}
    (hrule : (g.withSharedEnds added).HasRule head body) : body.length ≤ 2 := by
  rcases (hasRule_withSharedEnds_iff h).1 hrule with ⟨old, -, rfl⟩ | ⟨rest, -, -, rfl⟩
  · exact length_shorten_le old
  · exact length_shorten_le rest

/-! ### Grammars that pass the check -/

/-- **The step cuts all bodies to two symbols and keeps the words of all nonterminals.** The old
nonterminals stay in their places. The added ones come after them, one for each proper end of two or
more symbols that a body of more than two has. Each has one body, and the words of its end. -/
theorem withBinaryBodies_keeps_words (h : g.validate = .ok ()) {names : FreshNames}
    (hcovers : names.Covers g) (config : NormalFormNames) :
    ∃ (r : Grammar) (after : FreshNames) (added : List String) (ends : List Body),
      g.withBinaryBodies names config = .ok (r, after) ∧ r.validate = .ok () ∧
      r.nonterminals = g.nonterminals ++ added ∧ added.length = ends.length ∧
      r.terminals = g.terminals ∧ r.start = g.start ∧ r.acceptsEmpty = g.acceptsEmpty ∧
      (∀ row ∈ r.rows, ∀ body ∈ row, body.length ≤ 2) ∧
      (∀ index < g.nonterminals.length, ∀ word, r.Derives index word ↔ g.Derives index word) ∧
      ends.Nodup ∧
      (∀ rest, rest ∈ ends ↔ 2 ≤ rest.length ∧
        ∃ head body, g.HasRule head body ∧ 2 < body.length ∧ rest <:+ body ∧ rest ≠ body) ∧
      ∀ k rest, ends[k]? = some rest →
        (∃ body, r.rows[g.nonterminals.length + k]? = some [body]) ∧
        ∀ word, r.Derives (g.nonterminals.length + k) word ↔ g.Yields rest word := by
  have hg := validate_eq_ok_iff.1 h
  obtain ⟨added, after, hstep, hlength, hdraws⟩ := exists_withBinaryBodies hg names config
  have hextends : (g.withSharedEnds added).Extends g g.sharedEnds := extends_withSharedEnds hg
  refine ⟨g.withSharedEnds added, after, added, g.sharedEnds, hstep,
    validate_eq_ok_iff.2 (wellFormed_withSharedEnds hg hcovers hdraws hlength), rfl, hlength, rfl,
    rfl, rfl, forall_mem_rows_iff.2 fun _ _ => length_le_two_of_hasRule_withSharedEnds hg,
    fun index hlt word => hextends.derives_iff_of_lt (hg.length_rows ▸ hlt), nodup_eraseDups _,
    fun rest => mem_sharedEnds_iff_suffix, fun k rest hrest => ⟨?_, fun word => ?_⟩⟩
  · rw [← endPosition_of_getElem? hrest]
    exact ⟨_, getElem?_rows_endPosition hg (List.mem_of_getElem? hrest)⟩
  · rw [← hg.length_rows, hextends.derives_add_iff, hrest, yields_iff_reads]
    simp

/-- Two long bodies with a common end, and a third that is this end. -/
def commonEnds : Grammar where
  nonterminals := ["S", "A", "B"]
  terminals := ["a", "b"]
  start := 0
  rows := [[[.nonterminal 1, .nonterminal 2, .terminal 0, .nonterminal 2],
      [.terminal 1, .nonterminal 2, .terminal 0, .nonterminal 2],
      [.nonterminal 2, .terminal 0, .nonterminal 2]],
    [[.terminal 0], []],
    [[.terminal 1], [.nonterminal 0]]]

/-- Of the names asked for, two are taken. -/
theorem withBinaryBodies_keeps_words_commonEnds :
    commonEnds.validate = .ok () ∧ FreshNames.Covers { taken := ["S", "A", "B", "a", "b", "B0"] }
      commonEnds ∧
    ∃ (r : Grammar) (after : FreshNames) (added : List String) (ends : List Body),
      commonEnds.withBinaryBodies { taken := ["S", "A", "B", "a", "b", "B0"] } {} = .ok (r, after) ∧
      r.nonterminals = ["S", "A", "B"] ++ added ∧ added.length = ends.length ∧
      (∀ row ∈ r.rows, ∀ body ∈ row, body.length ≤ 2) ∧
      (∀ index < 3, ∀ word, r.Derives index word ↔ commonEnds.Derives index word) ∧
      ∀ k rest, ends[k]? = some rest → (∃ body, r.rows[3 + k]? = some [body]) ∧
        ∀ word, r.Derives (3 + k) word ↔ commonEnds.Yields rest word := by
  have hcovers : FreshNames.Covers { taken := ["S", "A", "B", "a", "b", "B0"] } commonEnds := by
    rintro name (hname | hname)
    · exact List.mem_append_left ["a", "b", "B0"] hname
    · exact List.mem_append_right ["S", "A", "B"] (List.mem_append_left ["B0"] hname)
  obtain ⟨r, after, added, ends, hstep, -, hnames, hlength, -, -, -, hshort, hold, -, -, hends⟩ :=
    withBinaryBodies_keeps_words (g := commonEnds) (by decide) hcovers {}
  exact ⟨by decide, hcovers, r, after, added, ends, hstep, hnames, hlength, hshort, hold, hends⟩

end Grammar

end ChomskyChart
