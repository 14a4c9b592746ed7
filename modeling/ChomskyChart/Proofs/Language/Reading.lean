import ChomskyChart.Grammar.Language
import ChomskyChart.Grammar.Validate

/-!
# Readings

A step of the normal form changes rows and nonterminals, and what it does to words is seen best one
body at a time. So the words of a body are described here relative to an *interpretation*, which
says for each nonterminal what words it is taken to have. Nothing is assumed of an interpretation.

The words that a grammar derives are the least interpretation that its rules agree with. Both
halves of that are used all the time: the derived words satisfy the rules (`derives_iff_reads`), and
to show that all derived words have some property it is enough that the rules keep it
(`Derives.of_closed`). No proof beyond this file is an induction on `Yields`.

## Main definitions

* `Reads`: the words of a body under an interpretation
* `Grammar.HasRule`: the rules of a grammar, one at a time
* `Grammar.Closed`: the interpretations that the rules of a grammar agree with

## Main results

* `yields_iff_reads`, `derives_iff_reads`: derivations read bodies under the derived words
* `Derives.of_closed`: every closed interpretation holds all derived words
-/

namespace ChomskyChart

/-- What words each nonterminal is taken to have. -/
abbrev Interpretation : Type :=
  Nat → List String → Prop

/-- The word consists of one part per symbol: the name of a terminal, or a word that a nonterminal
has under the interpretation. -/
def Reads (terminals : List String) (S : Interpretation) : Body → List String → Prop
  | [], word => word = []
  | .terminal index :: rest, word =>
    ∃ name tail, word = name :: tail ∧ terminals[index]? = some name ∧ Reads terminals S rest tail
  | .nonterminal index :: rest, word =>
    ∃ first tail, word = first ++ tail ∧ S index first ∧ Reads terminals S rest tail

section

variable {terminals : List String} {S S' : Interpretation}

/-! ### Readings of sequences -/

@[simp] theorem reads_nil_iff {word : List String} : Reads terminals S [] word ↔ word = [] :=
  Iff.rfl

theorem reads_append_iff {left right : Body} {word : List String} :
    Reads terminals S (left ++ right) word ↔
      ∃ first tail, word = first ++ tail ∧
        Reads terminals S left first ∧ Reads terminals S right tail := by
  induction left generalizing word with
  | nil =>
    simp only [List.nil_append, reads_nil_iff]
    exact ⟨fun h => ⟨[], word, rfl, rfl, h⟩, fun ⟨_, _, hword, hfirst, h⟩ => by simp_all⟩
  | cons s left ih =>
    cases s with
    | terminal index =>
      simp only [List.cons_append, Reads, ih]
      constructor
      · rintro ⟨name, _, rfl, hname, first, tail, rfl, hleft, hright⟩
        exact ⟨name :: first, tail, rfl, ⟨name, first, rfl, hname, hleft⟩, hright⟩
      · rintro ⟨_, tail, rfl, ⟨name, first, rfl, hname, hleft⟩, hright⟩
        exact ⟨name, first ++ tail, rfl, hname, first, tail, rfl, hleft, hright⟩
    | nonterminal index =>
      simp only [List.cons_append, Reads, ih]
      constructor
      · rintro ⟨first, _, rfl, hfirst, middle, tail, rfl, hleft, hright⟩
        exact ⟨first ++ middle, tail, (List.append_assoc ..).symm,
          ⟨first, middle, rfl, hfirst, hleft⟩, hright⟩
      · rintro ⟨_, tail, rfl, ⟨first, middle, rfl, hfirst, hleft⟩, hright⟩
        exact ⟨first, middle ++ tail, List.append_assoc .., hfirst,
          middle, tail, rfl, hleft, hright⟩

/-- The first symbol and the rest of a body are read one after the other. -/
theorem reads_cons_iff {s : SymbolId} {rest : Body} {word : List String} :
    Reads terminals S (s :: rest) word ↔
      ∃ first tail, word = first ++ tail ∧
        Reads terminals S [s] first ∧ Reads terminals S rest tail := by
  rw [← List.singleton_append, reads_append_iff]

theorem reads_terminal_iff {index : Nat} {word : List String} :
    Reads terminals S [.terminal index] word ↔
      ∃ name, terminals[index]? = some name ∧ word = [name] := by
  constructor
  · rintro ⟨name, tail, rfl, hname, rfl⟩
    exact ⟨name, hname, rfl⟩
  · rintro ⟨name, hname, rfl⟩
    exact ⟨name, [], rfl, hname, rfl⟩

theorem reads_nonterminal_iff {index : Nat} {word : List String} :
    Reads terminals S [.nonterminal index] word ↔ S index word := by
  constructor
  · rintro ⟨first, tail, rfl, hfirst, rfl⟩
    simpa using hfirst
  · intro h
    exact ⟨word, [], (List.append_nil _).symm, h, rfl⟩

theorem reads_pair_iff {left right : Nat} {word : List String} :
    Reads terminals S [.nonterminal left, .nonterminal right] word ↔
      ∃ first tail, word = first ++ tail ∧ S left first ∧ S right tail := by
  rw [reads_cons_iff]
  simp only [reads_nonterminal_iff]

/-- Only the nonterminals of the body matter. -/
theorem Reads.mono {body : Body} {word : List String} (h : Reads terminals S body word)
    (hS : ∀ index, .nonterminal index ∈ body → ∀ word, S index word → S' index word) :
    Reads terminals S' body word := by
  induction body generalizing word with
  | nil => exact h
  | cons s rest ih =>
    have hrest : ∀ index, .nonterminal index ∈ rest → ∀ word, S index word → S' index word :=
      fun index hmem => hS index (List.mem_cons_of_mem _ hmem)
    cases s with
    | terminal index =>
      obtain ⟨name, tail, rfl, hname, htail⟩ := h
      exact ⟨name, tail, rfl, hname, ih htail hrest⟩
    | nonterminal index =>
      obtain ⟨first, tail, rfl, hfirst, htail⟩ := h
      exact ⟨first, tail, rfl, hS index List.mem_cons_self _ hfirst, ih htail hrest⟩

theorem reads_congr {body : Body} {word : List String}
    (hS : ∀ index, .nonterminal index ∈ body → ∀ word, S index word ↔ S' index word) :
    Reads terminals S body word ↔ Reads terminals S' body word :=
  ⟨fun h => h.mono fun index hmem word => (hS index hmem word).1,
    fun h => h.mono fun index hmem word => (hS index hmem word).2⟩

/-- Every nonterminal of a body that has a word has a word itself. -/
theorem Reads.exists_of_mem {body : Body} {word : List String} (h : Reads terminals S body word)
    {index : Nat} (hmem : .nonterminal index ∈ body) : ∃ part, S index part := by
  obtain ⟨before, after, rfl⟩ := List.append_of_mem hmem
  obtain ⟨_, _, rfl, -, first, _, rfl, hfirst, -⟩ := reads_append_iff.1 h
  exact ⟨first, hfirst⟩

/-- A body has a word as soon as all its symbols have one. -/
theorem exists_reads {body : Body}
    (hterminal : ∀ index, .terminal index ∈ body → index < terminals.length)
    (hnonterminal : ∀ index, .nonterminal index ∈ body → ∃ word, S index word) :
    ∃ word, Reads terminals S body word := by
  induction body with
  | nil => exact ⟨[], rfl⟩
  | cons s rest ih =>
    obtain ⟨tail, htail⟩ := ih (fun index hmem => hterminal index (List.mem_cons_of_mem _ hmem))
      fun index hmem => hnonterminal index (List.mem_cons_of_mem _ hmem)
    cases s with
    | terminal index =>
      have hlt := hterminal index List.mem_cons_self
      exact ⟨terminals[index] :: tail, _, tail, rfl, List.getElem?_eq_getElem hlt, htail⟩
    | nonterminal index =>
      obtain ⟨first, hfirst⟩ := hnonterminal index List.mem_cons_self
      exact ⟨first ++ tail, first, tail, rfl, hfirst, htail⟩

/-- A body reads the empty word exactly if it consists of nonterminals that have it. -/
theorem reads_empty_iff {body : Body} :
    Reads terminals S body [] ↔ ∀ s ∈ body, ∃ index, s = .nonterminal index ∧ S index [] := by
  induction body with
  | nil => simp
  | cons s rest ih =>
    rw [List.forall_mem_cons, ← ih]
    cases s with
    | terminal index =>
      constructor
      · rintro ⟨_, _, hword, -⟩
        exact nomatch hword
      · rintro ⟨⟨_, hs, -⟩, -⟩
        exact nomatch hs
    | nonterminal index =>
      constructor
      · rintro ⟨first, tail, hword, hfirst, htail⟩
        obtain ⟨rfl, rfl⟩ := List.append_eq_nil_iff.1 hword.symm
        exact ⟨⟨index, rfl, hfirst⟩, htail⟩
      · rintro ⟨⟨_, ⟨⟩, hfirst⟩, htail⟩
        exact ⟨[], [], rfl, hfirst, htail⟩

end

/-! ### Rules -/

namespace Grammar

variable {g : Grammar}

/-- The row of the nonterminal has the body. -/
def HasRule (g : Grammar) (head : Nat) (body : Body) : Prop :=
  ∃ row, g.rows[head]? = some row ∧ body ∈ row

/-- The rules of a nonterminal, where a missing row has none. -/
theorem mem_getD_rows_iff {head : Nat} {body : Body} :
    body ∈ g.rows[head]?.getD [] ↔ g.HasRule head body := by
  rw [HasRule]
  cases g.rows[head]? <;> simp

theorem HasRule.lt_length_rows {head : Nat} {body : Body} (h : g.HasRule head body) :
    head < g.rows.length := by
  obtain ⟨row, hrow, -⟩ := h
  exact (List.getElem?_eq_some_iff.1 hrow).1

/-- Rows that are put after the others keep the rules of those. -/
theorem hasRule_append_iff {rows more : List Row} (hrows : g.rows = rows ++ more) {head : Nat}
    {body : Body} :
    g.HasRule head body ↔ (∃ row, rows[head]? = some row ∧ body ∈ row) ∨
      ∃ k row, head = rows.length + k ∧ more[k]? = some row ∧ body ∈ row := by
  rw [HasRule, hrows]
  rcases Nat.lt_or_ge head rows.length with hlt | hge
  · rw [List.getElem?_append_left hlt]
    constructor
    · exact .inl
    · rintro (h | ⟨k, _, rfl, -, -⟩)
      · exact h
      · omega
  · rw [List.getElem?_append_right hge]
    constructor
    · rintro ⟨row, hrow, hbody⟩
      exact .inr ⟨head - rows.length, row, by omega, hrow, hbody⟩
    · rintro (⟨row, hrow, -⟩ | ⟨k, row, rfl, hrow, hbody⟩)
      · have := (List.getElem?_eq_some_iff.1 hrow).1
        omega
      · exact ⟨row, by simpa using hrow, hbody⟩

/-- A statement on all rules of the table, as it is made on rows and as it is made on rules. -/
theorem forall_mem_rows_iff {P : Body → Prop} :
    (∀ row ∈ g.rows, ∀ body ∈ row, P body) ↔ ∀ head body, g.HasRule head body → P body := by
  constructor
  · rintro h head body ⟨row, hrow, hbody⟩
    exact h row (List.mem_of_getElem? hrow) body hbody
  · intro h row hrow body hbody
    obtain ⟨head, hhead⟩ := List.getElem?_of_mem hrow
    exact h head body ⟨row, hhead, hbody⟩

theorem WellFormed.nonterminal_lt (h : g.WellFormed) {head index : Nat} {body : Body}
    (hrule : g.HasRule head body) (hmem : .nonterminal index ∈ body) : index < g.rows.length := by
  have hdeclares := forall_mem_rows_iff.1 h.declares head body hrule _ hmem
  exact h.length_rows ▸ hdeclares

theorem WellFormed.terminal_lt (h : g.WellFormed) {head index : Nat} {body : Body}
    (hrule : g.HasRule head body) (hmem : .terminal index ∈ body) : index < g.terminals.length :=
  forall_mem_rows_iff.1 h.declares head body hrule _ hmem

/-- The symbols of a rule to two nonterminals have names. -/
theorem WellFormed.pair_lt (h : g.WellFormed) {head left right : Nat}
    (hrule : g.HasRule head [.nonterminal left, .nonterminal right]) :
    left < g.nonterminals.length ∧ right < g.nonterminals.length := by
  have hdeclares := forall_mem_rows_iff.1 h.declares head _ hrule
  exact ⟨hdeclares _ List.mem_cons_self,
    hdeclares _ (List.mem_cons_of_mem _ List.mem_cons_self)⟩

/-- A table of the same size, with no symbols but those of the old one, fits the same alphabets. -/
theorem WellFormed.of_symbols {r : Grammar} (h : g.WellFormed)
    (hnonterminals : r.nonterminals = g.nonterminals) (hterminals : r.terminals = g.terminals)
    (hstart : r.start = g.start) (hlength : r.rows.length = g.rows.length)
    (hsymbols : ∀ head body, r.HasRule head body → ∀ s ∈ body,
      ∃ i old, g.HasRule i old ∧ s ∈ old) : r.WellFormed where
  length_rows := by rw [hlength, hnonterminals, h.length_rows]
  start_lt := by rw [hstart, hnonterminals]; exact h.start_lt
  nodup_nonterminals := hnonterminals ▸ h.nodup_nonterminals
  nodup_terminals := hterminals ▸ h.nodup_terminals
  disjoint := by rw [hnonterminals, hterminals]; exact h.disjoint
  declares := by
    refine forall_mem_rows_iff.2 fun head body hrule s hs => ?_
    obtain ⟨i, old, hold, hmem⟩ := hsymbols head body hrule s hs
    have hdeclares := forall_mem_rows_iff.1 h.declares i old hold s hmem
    cases s <;> simpa only [Declares, hterminals, hnonterminals] using hdeclares

/-! ### Derived words -/

/-- The rules of the grammar lead from words of the interpretation to words of the
interpretation. -/
def Closed (g : Grammar) (S : Interpretation) : Prop :=
  ∀ ⦃head body word⦄, g.HasRule head body → Reads g.terminals S body word → S head word

theorem yields_iff_reads {body : Body} {word : List String} :
    g.Yields body word ↔ Reads g.terminals g.Derives body word := by
  induction body generalizing word with
  | nil => simp
  | cons s rest ih =>
    cases s with
    | terminal index => simp only [yields_terminal_cons_iff, Reads, ih]
    | nonterminal index => simp only [yields_nonterminal_cons_iff, Reads, ih]

/-- A nonterminal derives what its bodies read. -/
theorem derives_iff_reads {index : Nat} {word : List String} :
    g.Derives index word ↔
      ∃ body, g.HasRule index body ∧ Reads g.terminals g.Derives body word := by
  simp only [derives_iff, yields_iff_reads, HasRule]
  constructor
  · rintro ⟨row, hrow, body, hmem, hbody⟩
    exact ⟨body, ⟨row, hrow, hmem⟩, hbody⟩
  · rintro ⟨body, ⟨row, hrow, hmem⟩, hbody⟩
    exact ⟨row, hrow, body, hmem, hbody⟩

theorem closed_derives (g : Grammar) : g.Closed g.Derives :=
  fun _ body _ hrule hbody => derives_iff_reads.2 ⟨body, hrule, hbody⟩

/-- Bodies are read under every closed interpretation as they are read in the grammar. This is the
one induction on derivations. -/
theorem Yields.reads {S : Interpretation} (hS : g.Closed S) {body : Body} {word : List String}
    (h : g.Yields body word) : Reads g.terminals S body word := by
  induction h with
  | nil => rfl
  | terminal hname _ ih => exact ⟨_, _, rfl, hname, ih⟩
  | nonterminal hrow hmem _ _ ihbody ihrest =>
    exact ⟨_, _, rfl, hS ⟨_, hrow, hmem⟩ ihbody, ihrest⟩

/-- **The derived words are the least closed interpretation.** -/
theorem Derives.of_closed {S : Interpretation} (hS : g.Closed S) {index : Nat} {word : List String}
    (h : g.Derives index word) : S index word :=
  reads_nonterminal_iff.1 (h.reads hS)

theorem Derives.lt_length_rows {index : Nat} {word : List String} (h : g.Derives index word) :
    index < g.rows.length := by
  obtain ⟨_, hrule, -⟩ := derives_iff_reads.1 h
  exact hrule.lt_length_rows

end Grammar

end ChomskyChart
