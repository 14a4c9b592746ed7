import ChomskyChart.NormalForm.Epsilon
import ChomskyChart.Proofs.Language.Generating
import ChomskyChart.Proofs.NormalForm.Binary

/-!
# Words without the empty one

A variant of a body leaves out symbols that may derive nothing, so its words are words of the body.
Conversely a word of the body comes from parts, one per symbol, and if the symbols with an empty
part are left out, then what remains is a variant with that word in which no part is empty.

## Main definitions

* `Drops`: a body and its variants
* `Grammar.DropsEpsilon`: a grammar and what the step makes of it

## Main results

* `drops_cons_iff`, `exists_variants`: the variants of a body, and that they are computed
* `exists_withoutEpsilon`: the step succeeds
* `DropsEpsilon.derives_iff`: the words afterwards
* `DropsEpsilon.wellFormed`, `DropsEpsilon.bodiesBinary`, `DropsEpsilon.startUnused`: the form of
  the grammar afterwards
* `withoutEpsilon_keeps_nonempty_words`: what the step does to a grammar that passes the check
-/

namespace ChomskyChart

/-! ### Variants -/

/-- The second body is the first one without some of its nonterminals in `N`. -/
inductive Drops (N : Nat → Prop) : Body → Body → Prop where
  | nil : Drops N [] []
  | keep {s : SymbolId} {body variant : Body} (h : Drops N body variant) :
      Drops N (s :: body) (s :: variant)
  | drop {index : Nat} {body variant : Body} (hindex : N index) (h : Drops N body variant) :
      Drops N (.nonterminal index :: body) variant

theorem Drops.sublist {N : Nat → Prop} {body variant : Body} (h : Drops N body variant) :
    variant.Sublist body := by
  induction h with
  | nil => exact List.Sublist.slnil
  | keep _ ih => exact ih.cons_cons _
  | drop _ _ ih => exact ih.cons _

theorem drops_congr {N N' : Nat → Prop} (hN : ∀ index, N index ↔ N' index) {body variant : Body} :
    Drops N body variant ↔ Drops N' body variant := by
  rw [show N = N' from funext fun index => propext (hN index)]

theorem drops_nil_iff {N : Nat → Prop} {variant : Body} : Drops N [] variant ↔ variant = [] := by
  constructor
  · intro h
    cases h
    rfl
  · rintro rfl
    exact .nil

/-- The first symbol is kept, or it is a nonterminal that may be left out. -/
theorem drops_cons_iff {N : Nat → Prop} {s : SymbolId} {rest variant : Body} :
    Drops N (s :: rest) variant ↔
      (∃ index, s = .nonterminal index ∧ N index) ∧ Drops N rest variant ∨
        ∃ tail, Drops N rest tail ∧ s :: tail = variant := by
  constructor
  · intro h
    cases h with
    | keep h => exact .inr ⟨_, h, rfl⟩
    | drop hindex h => exact .inl ⟨⟨_, rfl, hindex⟩, h⟩
  · rintro (⟨⟨index, rfl, hindex⟩, h⟩ | ⟨tail, h, rfl⟩)
    · exact .drop hindex h
    · exact .keep h

theorem exists_isOptional {nullable : List Bool} {s : SymbolId}
    (hs : ∀ index, s = .nonterminal index → index < nullable.length) :
    ∃ flag, isOptional nullable s = .ok flag ∧
      (flag = true ↔ ∃ index, s = .nonterminal index ∧ nullable[index]? = some true) := by
  cases s with
  | terminal t => exact ⟨false, rfl, by simp⟩
  | nonterminal index =>
    have hlt := hs index rfl
    exact ⟨nullable[index], lookUp_of_lt hlt, by simp [List.getElem?_eq_getElem hlt]⟩

/-- The variants of a body whose nonterminals have flags are computed. -/
theorem exists_variants {nullable : List Bool} {body : Body}
    (hbody : ∀ index, .nonterminal index ∈ body → index < nullable.length) :
    ∃ bodies, variants nullable body = .ok bodies ∧
      ∀ variant, variant ∈ bodies ↔
        Drops (fun index => nullable[index]? = some true) body variant := by
  induction body with
  | nil => exact ⟨[[]], rfl, fun variant => by rw [List.mem_singleton, drops_nil_iff]⟩
  | cons s rest ih =>
    obtain ⟨ends, hends, hmem⟩ := ih fun index hindex => hbody index (List.mem_cons_of_mem _ hindex)
    obtain ⟨flag, hflag, hoptional⟩ :=
      exists_isOptional fun index hs => hbody index (hs ▸ List.mem_cons_self)
    have hkept : ∀ variant, variant ∈ ends.map (s :: ·) ↔
        ∃ tail, Drops (fun index => nullable[index]? = some true) rest tail ∧
          s :: tail = variant := by
      intro variant
      simp only [List.mem_map, hmem]
    refine ⟨if flag then ends ++ ends.map (s :: ·) else ends.map (s :: ·), ?_, fun variant => ?_⟩
    · simp only [variants_cons, hflag, hends, bind, Except.bind]
      rfl
    · rw [drops_cons_iff, ← hoptional, ← hkept]
      cases flag with
      | true => rw [if_pos rfl, List.mem_append, hmem, eq_self_iff_true, true_and]
      | false => rw [if_neg Bool.false_ne_true, or_iff_right fun h => Bool.false_ne_true h.1]

section

variable {terminals : List String} {S S' : Interpretation} {N : Nat → Prop}

/-- What is left out derives the empty word, so a variant has no new words. -/
theorem Drops.reads {body variant : Body} (h : Drops N body variant)
    (hN : ∀ index, N index → S index []) {word : List String}
    (hword : Reads terminals S variant word) : Reads terminals S body word := by
  induction h generalizing word with
  | nil => exact hword
  | @keep s body variant _ ih =>
    rw [reads_cons_iff] at hword ⊢
    obtain ⟨first, tail, rfl, hfirst, htail⟩ := hword
    exact ⟨first, tail, rfl, hfirst, ih htail⟩
  | @drop index body variant hindex _ ih =>
    exact ⟨[], word, rfl, hN index hindex, ih hword⟩

/-- Every word of a body is a word of a variant, with no empty parts. -/
theorem exists_drops {body : Body} {word : List String} (hword : Reads terminals S body word)
    (hempty : ∀ index, S index [] → N index)
    (hS : ∀ index word, S index word → word ≠ [] → S' index word) :
    ∃ variant, Drops N body variant ∧ Reads terminals S' variant word := by
  induction body generalizing word with
  | nil => exact ⟨[], .nil, hword⟩
  | cons s rest ih =>
    cases s with
    | terminal t =>
      obtain ⟨name, tail, rfl, hname, htail⟩ := hword
      obtain ⟨variant, hdrops, hvariant⟩ := ih htail
      exact ⟨_, .keep hdrops, name, tail, rfl, hname, hvariant⟩
    | nonterminal index =>
      obtain ⟨first, tail, rfl, hfirst, htail⟩ := hword
      obtain ⟨variant, hdrops, hvariant⟩ := ih htail
      by_cases hnil : first = []
      · subst hnil
        exact ⟨variant, .drop (hempty index hfirst) hdrops, hvariant⟩
      · exact ⟨_, .keep hdrops, first, tail, rfl, hS index first hfirst hnil, hvariant⟩

/-- A body with a symbol has no empty word if no nonterminal has one. -/
theorem Reads.ne_nil {body : Body} {word : List String} (h : Reads terminals S body word)
    (hbody : body ≠ []) (hS : ∀ index word, S index word → word ≠ []) : word ≠ [] := by
  rintro rfl
  obtain ⟨s, rest, rfl⟩ := List.exists_cons_of_ne_nil hbody
  obtain ⟨index, -, hindex⟩ := reads_empty_iff.1 h s List.mem_cons_self
  exact hS index [] hindex rfl

end

namespace Grammar

/-! ### The step -/

/-- The rules of `r` are the nonempty variants of the rules of `g`, and `r` records whether the
empty word was in the language. -/
structure DropsEpsilon (r g : Grammar) : Prop where
  nonterminals_eq : r.nonterminals = g.nonterminals
  terminals_eq : r.terminals = g.terminals
  start_eq : r.start = g.start
  length_rows_eq : r.rows.length = g.rows.length
  acceptsEmpty_iff : r.acceptsEmpty = true ↔ g.InLanguage []
  hasRule_iff : ∀ head body, r.HasRule head body ↔
    body ≠ [] ∧ ∃ old, g.HasRule head old ∧ Drops (fun index => g.Derives index []) old body
  nodup_of_mem_rows : ∀ row ∈ r.rows, row.Nodup

variable {g r : Grammar}

/-- The step on one row. -/
private theorem exists_rowWithoutEpsilon {nullable : List Bool} {row : Row}
    (hrow : ∀ old ∈ row, ∀ index, .nonterminal index ∈ old → index < nullable.length) :
    ∃ bodies : Row, (do
        let found ← row.mapM (variants nullable)
        return (found.flatten.filter fun body => !body.isEmpty).eraseDups) = Except.ok bodies ∧
      bodies.Nodup ∧ ∀ body, body ∈ bodies ↔
        body ≠ [] ∧ ∃ old ∈ row, Drops (fun index => nullable[index]? = some true) old body := by
  obtain ⟨F, hF, hmem⟩ := exists_mapM fun old hold => exists_variants (hrow old hold)
  refine ⟨_, by rw [hF]; rfl, nodup_eraseDups _, fun body => ?_⟩
  simp only [List.mem_eraseDups, List.mem_filter, List.mem_flatten, List.mem_map]
  rw [and_comm]
  refine and_congr (by simp) ?_
  constructor
  · rintro ⟨_, ⟨old, hold, rfl⟩, hbody⟩
    exact ⟨old, hold, (hmem old hold body).1 hbody⟩
  · rintro ⟨old, hold, hdrops⟩
    exact ⟨_, ⟨old, hold, rfl⟩, (hmem old hold body).2 hdrops⟩

/-- **On a well-formed grammar the step succeeds.** -/
theorem exists_withoutEpsilon (h : g.WellFormed) :
    ∃ r, g.withoutEpsilon = .ok r ∧ r.DropsEpsilon g := by
  obtain ⟨nullable, hnullable, hlength, hflags⟩ := exists_nullable h
  have hrow : ∀ row ∈ g.rows, ∀ old ∈ row, ∀ index, .nonterminal index ∈ old →
      index < nullable.length := by
    intro row hrow old hold index hindex
    obtain ⟨head, hhead⟩ := List.getElem?_of_mem hrow
    exact hlength ▸ h.nonterminal_lt ⟨row, hhead, hold⟩ hindex
  obtain ⟨F, hF, hrows⟩ := exists_mapM fun row hmem => exists_rowWithoutEpsilon (hrow row hmem)
  have hstart : g.start < nullable.length := by
    rw [hlength, h.length_rows]
    exact h.start_lt
  refine ⟨{ g with
      rows := g.rows.map F
      acceptsEmpty := g.acceptsEmpty || nullable[g.start] },
    ?_, rfl, rfl, rfl, List.length_map _, ?_, fun head body => ?_, fun row hrow => ?_⟩
  · simp only [withoutEpsilon, hnullable, bind, Except.bind] at hF ⊢
    rw [hF]
    cases haccepts : g.acceptsEmpty <;> simp [lookUp_of_lt hstart, pure, Except.pure]
  · rw [Bool.or_eq_true, or_comm]
    refine or_congr ?_ (by simp)
    rw [← hflags, List.getElem?_eq_getElem hstart, Option.some.injEq]
  · simp only [HasRule, List.getElem?_map, Option.map_eq_some_iff]
    constructor
    · rintro ⟨_, ⟨row, hrow, rfl⟩, hbody⟩
      obtain ⟨hne, old, hold, hdrops⟩ := ((hrows row (List.mem_of_getElem? hrow)).2 body).1 hbody
      exact ⟨hne, old, ⟨row, hrow, hold⟩, (drops_congr hflags).1 hdrops⟩
    · rintro ⟨hne, old, ⟨row, hrow, hold⟩, hdrops⟩
      refine ⟨F row, ⟨row, hrow, rfl⟩, ((hrows row (List.mem_of_getElem? hrow)).2 body).2 ?_⟩
      exact ⟨hne, old, hold, (drops_congr hflags).2 hdrops⟩
  · obtain ⟨old, hold, rfl⟩ := List.mem_map.1 hrow
    exact (hrows old hold).1

/-! ### Words -/

/-- **Every nonterminal keeps its words except the empty one.** -/
theorem DropsEpsilon.derives_iff (h : r.DropsEpsilon g) {index : Nat} {word : List String} :
    r.Derives index word ↔ word ≠ [] ∧ g.Derives index word := by
  constructor
  · intro hword
    refine hword.of_closed (S := fun index word => word ≠ [] ∧ g.Derives index word)
      fun head body word hrule hbody => ?_
    rw [h.terminals_eq] at hbody
    obtain ⟨hne, old, hold, hdrops⟩ := (h.hasRule_iff head body).1 hrule
    refine ⟨hbody.ne_nil hne fun _ _ hpart => hpart.1, g.closed_derives hold ?_⟩
    exact hdrops.reads (fun _ => id) (hbody.mono fun _ _ _ hpart => hpart.2)
  · rintro ⟨hne, hword⟩
    refine (hword.of_closed
      (S := fun index word => g.Derives index word ∧ (word ≠ [] → r.Derives index word))
      fun head body word hrule hbody => ?_).2 hne
    refine ⟨g.closed_derives hrule (hbody.mono fun _ _ _ hpart => hpart.1), fun hne => ?_⟩
    obtain ⟨variant, hdrops, hvariant⟩ := exists_drops (N := fun index => g.Derives index []) hbody
      (fun _ hpart => hpart.1) fun _ _ hpart => hpart.2
    refine r.closed_derives ((h.hasRule_iff head variant).2 ⟨?_, body, hrule, hdrops⟩)
      (h.terminals_eq ▸ hvariant)
    rintro rfl
    exact hne hvariant

/-! ### Form -/

theorem DropsEpsilon.wellFormed (h : r.DropsEpsilon g) (hg : g.WellFormed) : r.WellFormed := by
  refine hg.of_symbols h.nonterminals_eq h.terminals_eq h.start_eq h.length_rows_eq ?_
  intro head body hrule s hs
  obtain ⟨-, old, hold, hdrops⟩ := (h.hasRule_iff head body).1 hrule
  exact ⟨head, old, hold, hdrops.sublist.subset hs⟩

theorem DropsEpsilon.startUnused (h : r.DropsEpsilon g) (hunused : g.StartUnused) :
    r.StartUnused := by
  intro head body hrule hmem
  obtain ⟨-, old, hold, hdrops⟩ := (h.hasRule_iff head body).1 hrule
  rw [h.start_eq] at hmem
  exact hunused head old hold (hdrops.sublist.subset hmem)

theorem DropsEpsilon.bodiesBinary (h : r.DropsEpsilon g) (hbinary : g.BodiesBinary) :
    r.BodiesBinary := by
  intro head body hrule
  obtain ⟨-, old, hold, hdrops⟩ := (h.hasRule_iff head body).1 hrule
  obtain ⟨hlength, htwo⟩ := hbinary head old hold
  have hle := hdrops.sublist.length_le
  refine ⟨Nat.le_trans hle hlength, fun hbody t ht => ?_⟩
  exact htwo (by omega) t (hdrops.sublist.subset ht)

theorem DropsEpsilon.ne_nil (h : r.DropsEpsilon g) {head : Nat} {body : Body}
    (hrule : r.HasRule head body) : body ≠ [] :=
  ((h.hasRule_iff head body).1 hrule).1

/-! ### Grammars that pass the check -/

/-- **The step takes the empty word from every nonterminal, and nothing else.** No body is empty
afterwards and no row repeats one. That the start symbol had the empty word is kept beside the
table. -/
theorem withoutEpsilon_keeps_nonempty_words (h : g.validate = .ok ()) :
    ∃ r, g.withoutEpsilon = .ok r ∧
      r.nonterminals = g.nonterminals ∧ r.terminals = g.terminals ∧ r.start = g.start ∧
      (∀ row ∈ r.rows, [] ∉ row ∧ row.Nodup) ∧
      (∀ index word, r.Derives index word ↔ word ≠ [] ∧ g.Derives index word) ∧
      (r.acceptsEmpty = true ↔ g.acceptsEmpty = true ∨ g.Derives g.start []) := by
  obtain ⟨r, hr, hdrops⟩ := exists_withoutEpsilon (validate_eq_ok_iff.1 h)
  have hne : ∀ row ∈ r.rows, ∀ body ∈ row, body ≠ [] :=
    forall_mem_rows_iff.2 fun _ _ => hdrops.ne_nil
  refine ⟨r, hr, hdrops.nonterminals_eq, hdrops.terminals_eq, hdrops.start_eq,
    fun row hrow => ⟨fun hnil => hne row hrow [] hnil rfl, hdrops.nodup_of_mem_rows row hrow⟩,
    fun _ _ => hdrops.derives_iff, ?_⟩
  rw [hdrops.acceptsEmpty_iff, InLanguage, or_comm, eq_self_iff_true, true_and]

/-- Two nonterminals that are nullable by way of each other, and bodies with the same variants. -/
def nullableCycle : Grammar where
  nonterminals := ["S", "A", "B"]
  terminals := ["a"]
  start := 0
  rows := [[[.nonterminal 1, .terminal 0, .nonterminal 1], [.nonterminal 1, .nonterminal 2]],
    [[.nonterminal 2], [.terminal 0, .nonterminal 0], [.terminal 0]],
    [[.nonterminal 1, .nonterminal 2, .nonterminal 2], [], [.nonterminal 1]]]

theorem withoutEpsilon_keeps_nonempty_words_nullableCycle :
    nullableCycle.validate = .ok () ∧
    ∃ r, nullableCycle.withoutEpsilon = .ok r ∧
      r.nonterminals = ["S", "A", "B"] ∧ r.terminals = ["a"] ∧ r.start = 0 ∧
      (∀ row ∈ r.rows, [] ∉ row ∧ row.Nodup) ∧
      (∀ index word, r.Derives index word ↔ word ≠ [] ∧ nullableCycle.Derives index word) ∧
      (r.acceptsEmpty = true ↔ false = true ∨ nullableCycle.Derives 0 []) :=
  ⟨by decide, withoutEpsilon_keeps_nonempty_words (by decide)⟩

end Grammar

end ChomskyChart
