import Mathlib.Data.List.Forall2
import Mathlib.Data.List.Induction
import ChomskyChart.Grammar.Declare
import ChomskyChart.Kept.Basic
import ChomskyChart.Proofs.Forest.Trees
import ChomskyChart.Proofs.Grammar.Occurrences
import ChomskyChart.Proofs.Language.Naming

/-!
# What a declaration makes

A declaration goes through if all that it uses is declared, each symbol with its own kind, and no
name with both. The grammar that it makes is read back here: its productions are the given ones,
without the spellings of the empty word and without repetitions. Two productions may become equal
only when the spellings go, and then the first of them stays.

A symbol of a body is looked up by its name and read back by its position. As long as no name is
listed twice, each of the two undoes the other. All that is said about bodies comes from this.

## Main definitions

* `Register`: names that are entered one by one
* `Production.stripped`: a production without the spellings of the empty word
* `WellDeclared`: what a declaration has to fulfil
* `KeptGrammar.NonterminalsCurrent`: the positions of nonterminals that are kept are current

## Main results

* `Register.Exact.enter`, `Register.exact_ofNames`: what an entry and a run of entries keep
* `Register.find?_ofNames`: positions of names, given out one by one or read off the list
* `Grammar.exists_declare_iff`: when a declaration goes through
* `Grammar.production_of_resolveProduction`: a table entry and the production that it stands for
* `Grammar.exists_row_of_declare`, `Grammar.wellFormed_of_declare`: the table, and the other parts
* `KeptGrammar.declare_correct`: all that a declaration makes
-/

namespace ChomskyChart

/-! ### Names entered one by one -/

theorem getElem?_concat_eq_some_iff {α : Type} {xs : List α} {x y : α} {i : Nat} :
    (xs ++ [x])[i]? = some y ↔ xs[i]? = some y ∨ i = xs.length ∧ x = y := by
  rcases Nat.lt_trichotomy i xs.length with hlt | rfl | hgt
  · rw [List.getElem?_append_left hlt]
    simp [Nat.ne_of_lt hlt]
  · simp
  · rw [List.getElem?_eq_none (by simpa using Nat.succ_le_of_lt hgt),
      List.getElem?_eq_none (Nat.le_of_lt hgt)]
    simp [Nat.ne_of_gt hgt]

/-- Names in the order in which they came, and the position that each of them got. -/
structure Register where
  names : List String := []
  positions : List (String × Nat) := []
deriving DecidableEq, Repr, Inhabited

namespace Register

/-- The position that a name got. -/
def find? (r : Register) (name : String) : Option Nat :=
  r.positions.lookup name

/-- Enters a name at the end. A name that is there already keeps its position. -/
def enter (r : Register) (name : String) : Register :=
  match r.find? name with
  | some _ => r
  | none => { names := r.names ++ [name], positions := (name, r.names.length) :: r.positions }

/-- The register of a list of names. -/
def ofNames (names : List String) : Register :=
  names.foldl enter {}

/-- Names are found at the positions where they stand, and nothing else is found. -/
def Exact (r : Register) : Prop :=
  ∀ name i, r.find? name = some i ↔ r.names[i]? = some name

variable {r : Register} {name : String}

theorem Exact.mem_iff (h : r.Exact) : name ∈ r.names ↔ ∃ i, r.find? name = some i := by
  simp only [h name, List.mem_iff_getElem?]

theorem Exact.enter_of_mem (h : r.Exact) (hmem : name ∈ r.names) : r.enter name = r := by
  obtain ⟨i, hi⟩ := h.mem_iff.1 hmem
  rw [enter, hi]

theorem Exact.enter_of_not_mem (h : r.Exact) (hmem : name ∉ r.names) :
    r.enter name =
      { names := r.names ++ [name], positions := (name, r.names.length) :: r.positions } := by
  have hnone : r.find? name = none :=
    Option.eq_none_iff_forall_ne_some.2 fun i hi => hmem (h.mem_iff.2 ⟨i, hi⟩)
  rw [enter, hnone]

/-- **An entry leaves the positions right.** No position changes, and only a new name gets one. -/
theorem Exact.enter (h : r.Exact) : (r.enter name).Exact := by
  by_cases hmem : name ∈ r.names
  · rwa [h.enter_of_mem hmem]
  rw [h.enter_of_not_mem hmem]
  intro other i
  rw [getElem?_concat_eq_some_iff, ← h other i, find?, List.lookup_cons]
  by_cases heq : other = name
  · subst heq
    have hnew : r.find? other ≠ some i := fun hi => hmem (h.mem_iff.2 ⟨i, hi⟩)
    simp [hnew, eq_comm]
  · have hother : (other == name) = false := beq_eq_false_iff_ne.2 heq
    simp [hother, find?, Ne.symm heq]

theorem ofNames_concat (front : List String) (name : String) :
    ofNames (front ++ [name]) = (ofNames front).enter name := by
  rw [ofNames, List.foldl_concat, ofNames]

theorem exact_ofNames (names : List String) : (ofNames names).Exact := by
  induction names using List.reverseRecOn with
  | nil => intro name i; simp [ofNames, find?]
  | append_singleton front name ih => exact ofNames_concat front name ▸ ih.enter

/-- The names of the register are the first occurrences. -/
theorem names_ofNames (names : List String) : (ofNames names).names = names.eraseDups := by
  induction names using List.reverseRecOn with
  | nil => rfl
  | append_singleton front name ih =>
    have hexact := exact_ofNames front
    have hmem : name ∈ (ofNames front).names ↔ name ∈ front := by rw [ih, List.mem_eraseDups]
    rw [ofNames_concat]
    by_cases hold : name ∈ front
    · rw [hexact.enter_of_mem (hmem.2 hold), ih, eraseDups_append_of_subset (by simpa using hold)]
    · rw [hexact.enter_of_not_mem (mt hmem.1 hold), ih, eraseDups_concat_of_not_mem hold]

/-- **Entering names one by one** gives each of them the position that it has among the names
without repetitions. -/
theorem find?_ofNames (names : List String) :
    (ofNames names).find? = (NameIndex.ofNames names.eraseDups).find? := by
  funext name
  refine Option.ext fun i => ?_
  rw [exact_ofNames names name i, names_ofNames,
    NameIndex.locates_ofNames (nodup_eraseDups names) name i]

end Register

/-! ### Symbols and productions -/

/-- The symbol is declared, and with its own kind. -/
def Symbol.DeclaredIn (nonterminals terminals : List String) : Symbol → Prop
  | .terminal name => name ∈ terminals
  | .nonterminal name => name ∈ nonterminals

/-- The production without the spellings of the empty word. -/
def Production.stripped (p : Production) : Production :=
  { p with body := p.body.filter fun s => !s.isEpsilon }

theorem exists_mapM_eq_ok_iff {α β : Type} {f : α → Except Failure β} {xs : List α} :
    (∃ ys, xs.mapM f = .ok ys) ↔ ∀ x ∈ xs, ∃ y, f x = .ok y := by
  refine ⟨?_, exists_mapM_eq_ok⟩
  rintro ⟨ys, hys⟩
  have hall := mapM_eq_ok_iff.1 hys
  clear hys
  induction hall with
  | nil => simp
  | cons hx _ ih => exact List.forall_mem_cons.2 ⟨⟨_, hx⟩, ih⟩

namespace Grammar

/-! ### When a declaration goes through -/

section

variable {nonterminals terminals : List String}

theorem exists_resolveSymbol_iff {head : String} {s : Symbol} :
    (∃ id, resolveSymbol (.ofNames nonterminals) (.ofNames terminals) head s = .ok id) ↔
      s.DeclaredIn nonterminals terminals := by
  cases s with
  | terminal name =>
    refine Iff.trans ?_ (@NameIndex.find?_isSome_iff (.ofNames terminals) name)
    cases hfound : (NameIndex.ofNames terminals).find? name <;> simp [resolveSymbol, hfound, refuse]
  | nonterminal name =>
    refine Iff.trans ?_ (@NameIndex.find?_isSome_iff (.ofNames nonterminals) name)
    cases hfound : (NameIndex.ofNames nonterminals).find? name <;>
      simp [resolveSymbol, hfound, refuse]

theorem resolveProduction_eq_ok_iff {ni ti : NameIndex} {p : Production} {head : Nat}
    {body : Body} :
    resolveProduction ni ti p = .ok (head, body) ↔
      ni.find? p.head = some head ∧
        p.stripped.body.mapM (resolveSymbol ni ti p.head) = .ok body := by
  rw [resolveProduction]
  cases ni.find? p.head with
  | none => simp [refuse]
  | some found =>
    simp only [bind_eq_ok_iff, pure, Except.pure]
    simp [Production.stripped, and_comm]

theorem exists_resolveProduction_iff {p : Production} :
    (∃ entry, resolveProduction (.ofNames nonterminals) (.ofNames terminals) p = .ok entry) ↔
      p.head ∈ nonterminals ∧
        ∀ s ∈ p.body, s.isEpsilon = false → s.DeclaredIn nonterminals terminals := by
  simp only [Prod.exists, resolveProduction_eq_ok_iff, exists_and_left, exists_and_right,
    exists_mapM_eq_ok_iff, exists_resolveSymbol_iff]
  refine and_congr ?_ ?_
  · rw [← Option.isSome_iff_exists]
    exact NameIndex.find?_isSome_iff
  · simp [Production.stripped]

theorem declaredTerminals_eq_ok_iff {names found : List String} :
    declaredTerminals nonterminals names = .ok found ↔
      (∀ name ∈ names, isEpsilonName name = false → name ∉ nonterminals) ∧
        (names.filter fun name => !isEpsilonName name).eraseDups = found := by
  have hnone : (names.filter fun name => !isEpsilonName name).find? nonterminals.contains = none ↔
      ∀ name ∈ names, isEpsilonName name = false → name ∉ nonterminals := by
    simp
  rw [← hnone, declaredTerminals]
  cases (names.filter fun name => !isEpsilonName name).find? nonterminals.contains with
  | none => simp
  | some name => simp [refuse]

/-- The start symbol, the heads and the bodies use what is declared, and nothing is declared as both
kinds. -/
structure WellDeclared (start : String) (nonterminals terminals : List String)
    (productions : List Production) : Prop where
  disjoint : ∀ name ∈ terminals, isEpsilonName name = false → name ∉ nonterminals
  start_mem : start ∈ nonterminals
  head_mem : ∀ p ∈ productions, p.head ∈ nonterminals
  body_declared : ∀ p ∈ productions, ∀ s ∈ p.body, s.isEpsilon = false →
    s.DeclaredIn nonterminals terminals

variable {start : String} {productions : List Production} {g : Grammar}

/-- The parts of the grammar that is made. -/
theorem declare_eq_ok_iff :
    declare start nonterminals terminals productions = .ok g ↔
      (∀ name ∈ terminals, isEpsilonName name = false → name ∉ nonterminals) ∧
      g.nonterminals = nonterminals.eraseDups ∧
      g.terminals = (terminals.filter fun name => !isEpsilonName name).eraseDups ∧
      (NameIndex.ofNames g.nonterminals).find? start = some g.start ∧ g.acceptsEmpty = false ∧
      ∃ entries,
        productions.mapM (resolveProduction (.ofNames g.nonterminals) (.ofNames g.terminals)) =
          .ok entries ∧
        g.rows = tableOf g.nonterminals.length entries := by
  simp only [declare, bind_eq_ok_iff, declaredTerminals_eq_ok_iff, List.mem_eraseDups, and_assoc,
    exists_and_left, exists_eq_left']
  refine and_congr_right fun _ => ?_
  constructor
  · intro h
    cases hstart : (NameIndex.ofNames nonterminals.eraseDups).find? start with
    | none => simp [hstart, refuse] at h
    | some found =>
      simp only [hstart, bind_eq_ok_iff, pure, Except.pure, Except.ok.injEq] at h
      obtain ⟨entries, hentries, rfl⟩ := h
      exact ⟨rfl, rfl, hstart, rfl, entries, hentries, rfl⟩
  · rintro ⟨hnon, hter, hstart, haccepts, entries, hentries, hrows⟩
    rw [hnon] at hstart hentries hrows
    rw [hter] at hentries
    rw [hstart]
    refine bind_eq_ok_iff.2 ⟨entries, hentries, congrArg Except.ok ?_⟩
    rw [← hrows, ← hter, ← hnon, ← haccepts]

theorem declaredIn_eraseDups_iff {s : Symbol} (hs : s.isEpsilon = false) :
    s.DeclaredIn nonterminals.eraseDups
      (terminals.filter fun name => !isEpsilonName name).eraseDups ↔
      s.DeclaredIn nonterminals terminals := by
  cases s with
  | terminal name =>
    have hname : isEpsilonName name = false := hs
    simp [Symbol.DeclaredIn, hname]
  | nonterminal name => simp [Symbol.DeclaredIn]

/-- **A declaration goes through** if it uses only what is declared. -/
theorem exists_declare_iff :
    (∃ g, declare start nonterminals terminals productions = .ok g) ↔
      WellDeclared start nonterminals terminals productions := by
  have hproductions :
      (∃ entries, productions.mapM (resolveProduction (.ofNames nonterminals.eraseDups)
        (.ofNames (terminals.filter fun name => !isEpsilonName name).eraseDups)) = .ok entries) ↔
      ∀ p ∈ productions, p.head ∈ nonterminals ∧
        ∀ s ∈ p.body, s.isEpsilon = false → s.DeclaredIn nonterminals terminals := by
    rw [exists_mapM_eq_ok_iff]
    refine forall₂_congr fun p _ => ?_
    rw [exists_resolveProduction_iff, List.mem_eraseDups]
    exact and_congr_right fun _ => forall₂_congr fun s _ =>
      forall_congr' fun hs => declaredIn_eraseDups_iff hs
  have hstart : (∃ i, (NameIndex.ofNames nonterminals.eraseDups).find? start = some i) ↔
      start ∈ nonterminals := by
    rw [← Option.isSome_iff_exists, NameIndex.find?_isSome_iff]
    exact List.mem_eraseDups
  constructor
  · rintro ⟨g, hg⟩
    obtain ⟨hdisjoint, hnon, hter, hfound, -, entries, hentries, -⟩ := declare_eq_ok_iff.1 hg
    rw [hnon] at hfound hentries
    rw [hter] at hentries
    have hall := hproductions.1 ⟨entries, hentries⟩
    exact ⟨hdisjoint, hstart.1 ⟨_, hfound⟩, fun p hp => (hall p hp).1, fun p hp => (hall p hp).2⟩
  · rintro ⟨hdisjoint, hmem, hheads, hbodies⟩
    obtain ⟨i, hi⟩ := hstart.2 hmem
    obtain ⟨entries, hentries⟩ := hproductions.2 fun p hp => ⟨hheads p hp, hbodies p hp⟩
    exact ⟨⟨_, _, i, tableOf nonterminals.eraseDups.length entries, false⟩,
      declare_eq_ok_iff.2 ⟨hdisjoint, rfl, rfl, hi, rfl, entries, hentries, rfl⟩⟩

end

/-! ### Positions and names -/

section

variable {g : Grammar} (hnon : g.nonterminals.Nodup) (hter : g.terminals.Nodup)
include hnon hter

/-- A symbol is found at the position where it stands. -/
theorem resolveSymbol_eq_ok_iff (head : String) {s : Symbol} {id : SymbolId} :
    resolveSymbol (.ofNames g.nonterminals) (.ofNames g.terminals) head s = .ok id ↔
      g.symbol id = .ok s := by
  cases s with
  | terminal name =>
    simp only [symbol_eq_terminal_iff, ← NameIndex.locates_ofNames hter name]
    cases hfound : (NameIndex.ofNames g.terminals).find? name <;>
      simp [resolveSymbol, hfound, refuse, eq_comm]
  | nonterminal name =>
    simp only [symbol_eq_nonterminal_iff, ← NameIndex.locates_ofNames hnon name]
    cases hfound : (NameIndex.ofNames g.nonterminals).find? name <;>
      simp [resolveSymbol, hfound, refuse, eq_comm]

/-- No two positions have the same symbol. -/
theorem leftUnique_symbol : Relator.LeftUnique fun id s => g.symbol id = .ok s := by
  intro id s id' h h'
  rw [← resolveSymbol_eq_ok_iff hnon hter ""] at h h'
  exact Except.ok.inj (h.symm.trans h')

/-- No two bodies stand for the same production. -/
theorem biUnique_production (head : Nat) :
    Relator.BiUnique fun body p => g.production head body = .ok p := by
  refine ⟨fun body p body' h h' => ?_, fun body p p' h h' => Except.ok.inj (h.symm.trans h')⟩
  exact (leftUnique_symbol hnon hter).forall₂ (production_eq_ok_iff.1 h).2
    (production_eq_ok_iff.1 h').2

/-- **The entry of a production stands for it,** less the spellings of the empty word. -/
theorem production_of_resolveProduction {p : Production} {entry : Nat × Body}
    (h : resolveProduction (.ofNames g.nonterminals) (.ofNames g.terminals) p = .ok entry) :
    g.production entry.1 entry.2 = .ok p.stripped := by
  obtain ⟨hhead, hbody⟩ := resolveProduction_eq_ok_iff.1 h
  refine production_eq_ok_iff.2 ⟨(NameIndex.locates_ofNames hnon _ _).1 hhead, ?_⟩
  rw [mapM_eq_ok_iff] at hbody
  exact (hbody.imp fun s id hid => (resolveSymbol_eq_ok_iff hnon hter p.head).1 hid).flip

omit hter in
/-- The entries for a nonterminal stand for the productions that have its name at their head. -/
theorem forall₂_entriesAt {productions : List Production} {entries : List (Nat × Body)}
    (h : List.Forall₂ (fun p entry => g.production entry.1 entry.2 = .ok p.stripped)
      productions entries)
    {v : Nat} {name : String} (hname : g.nonterminals[v]? = some name) :
    List.Forall₂ (fun body p => g.production v body = .ok p) (entriesAt entries v)
      ((productions.filter fun p => p.head = name).map Production.stripped) := by
  induction h with
  | nil => exact .nil
  | @cons p entry productions entries hp _ ih =>
    have hhead : g.nonterminals[entry.1]? = some p.head := (production_eq_ok_iff.1 hp).1
    -- no name is listed twice, so the entry is for this row if its head has this name
    have hiff : entry.1 = v ↔ p.head = name := by
      constructor
      · rintro rfl
        exact Option.some.inj (hhead.symm.trans hname)
      · intro heq
        rw [← NameIndex.locates_ofNames hnon] at hhead hname
        exact Option.some.inj ((heq ▸ hhead).symm.trans hname)
    rw [entriesAt_cons]
    by_cases heq : entry.1 = v
    · rw [if_pos heq, List.filter_cons_of_pos (by simpa using hiff.1 heq), List.map_cons]
      exact .cons (heq ▸ hp) ih
    · rw [if_neg heq, List.filter_cons_of_neg (by simpa using mt hiff.2 heq)]
      exact ih

end

/-! ### The grammar that is made -/

section

variable {start : String} {nonterminals terminals : List String} {productions : List Production}
  {g : Grammar} (h : declare start nonterminals terminals productions = .ok g)
include h

theorem nodup_of_declare : g.nonterminals.Nodup ∧ g.terminals.Nodup := by
  obtain ⟨-, hnon, hter, -⟩ := declare_eq_ok_iff.1 h
  rw [hnon, hter]
  exact ⟨(firstOccurrences_eraseDups _).nodup, (firstOccurrences_eraseDups _).nodup⟩

/-- **The row of a nonterminal** stands for the productions that have its name at their head. Of
equal bodies the first one stays, and so it does of equal productions. -/
theorem exists_row_of_declare {v : Nat} {name : String} (hname : g.nonterminals[v]? = some name) :
    ∃ row, g.rows[v]? = some row ∧ row.mapM (g.production v) =
      .ok ((productions.filter fun p => p.head = name).map Production.stripped).eraseDups := by
  obtain ⟨hnon, hter⟩ := nodup_of_declare h
  obtain ⟨-, -, -, -, -, entries, hentries, hrows⟩ := declare_eq_ok_iff.1 h
  have hproductions : List.Forall₂
      (fun p entry => g.production entry.1 entry.2 = .ok p.stripped) productions entries :=
    (mapM_eq_ok_iff.1 hentries).imp fun _ _ => production_of_resolveProduction hnon hter
  have hrow : g.rows[v]? = some (entriesAt entries v).eraseDups := by
    rw [hrows, getElem?_tableOf (List.getElem?_eq_some_iff.1 hname).1]
  exact ⟨_, hrow, mapM_eq_ok_iff.2 (forall₂_eraseDups (biUnique_production hnon hter v)
    (forall₂_entriesAt hnon hproductions hname))⟩

/-- **The parts fit together.** -/
theorem wellFormed_of_declare : g.WellFormed := by
  obtain ⟨hnon, hter⟩ := nodup_of_declare h
  obtain ⟨hdisjoint, hnames, hletters, hstart, -, entries, -, hrows⟩ := declare_eq_ok_iff.1 h
  have hlength : g.rows.length = g.nonterminals.length := by rw [hrows, length_tableOf]
  refine ⟨hlength, ?_, hnon, hter, fun name hter hnon => ?_, ?_⟩
  · exact (List.getElem?_eq_some_iff.1 ((NameIndex.locates_ofNames hnon start g.start).1 hstart)).1
  · rw [hletters, List.mem_eraseDups, List.mem_filter, Bool.not_eq_true'] at hter
    rw [hnames, List.mem_eraseDups] at hnon
    exact hdisjoint name hter.1 hter.2 hnon
  · refine forall_mem_rows_iff.2 fun head body hrule => ?_
    have hlt : head < g.nonterminals.length := hlength ▸ hrule.lt_length_rows
    obtain ⟨row, hrow, hproductions⟩ := exists_row_of_declare h (List.getElem?_eq_getElem hlt)
    obtain ⟨row', hrow', hbody⟩ := hrule
    obtain rfl : row' = row := Option.some.inj (hrow'.symm.trans hrow)
    obtain ⟨p, hp⟩ := exists_mapM_eq_ok_iff.1 ⟨_, hproductions⟩ body hbody
    by_contra hstray
    exact nomatch hp.symm.trans (production_eq_fault fun hnames => hstray hnames.2)

end

end Grammar

namespace KeptGrammar

/-! ### Positions that are kept -/

section

variable {k : KeptGrammar}

/-- No positions of nonterminals are kept, or they are those of the grammar as it is. -/
def NonterminalsCurrent (k : KeptGrammar) : Prop :=
  ∀ index, k.nonterminalIndex = some index →
    ∀ name, index.find? name = (NameIndex.ofNames k.grammar.nonterminals).find? name

theorem nonterminalsCurrent_of_known
    (h : k.nonterminalIndex = some (.ofNames k.grammar.nonterminals)) : k.NonterminalsCurrent := by
  intro index hindex name
  rw [Option.some.inj (hindex.symm.trans h)]

theorem nonterminalsCurrent_declared (g : Grammar) : (declared g).NonterminalsCurrent :=
  nonterminalsCurrent_of_known rfl

/-- The productions of a nonterminal, where the positions are up to date. -/
theorem NonterminalsCurrent.fst_productionsOf (h : k.NonterminalsCurrent) (name : String) :
    (productionsOf name k).1 =
      match (NameIndex.ofNames k.grammar.nonterminals).find? name with
      | none => .ok []
      | some head =>
        lookUp k.grammar.rows head >>= fun row => row.mapM (k.grammar.production head) := by
  rw [productionsOf, Query.bind_apply]
  cases hindex : k.nonterminalIndex with
  | none =>
    rw [nonterminalPositions_of_unknown hindex]
    simp only
    cases (NameIndex.ofNames k.grammar.nonterminals).find? name <;> rfl
  | some index =>
    rw [nonterminalPositions_of_known hindex]
    simp only [h index hindex name]
    cases (NameIndex.ofNames k.grammar.nonterminals).find? name <;> rfl

end

/-! ### The kept grammar that is made -/

/-- **A declaration goes through** if it uses only what is declared, as there are always indices. -/
theorem exists_declare_iff {start : String} {nonterminals terminals : List String}
    {productions : List Production} :
    (∃ k, declare start nonterminals terminals productions = .ok k) ↔
      Grammar.WellDeclared start nonterminals terminals productions := by
  rw [← Grammar.exists_declare_iff]
  constructor
  · rintro ⟨k, hk⟩
    exact ⟨k.grammar, (declare_eq_ok_iff.1 hk).1⟩
  · rintro ⟨g, hg⟩
    exact ⟨declared g, declare_eq_ok_iff.2 ⟨hg, rfl, rfl, rfl⟩⟩

/-- **What a declaration makes.** It goes through if what it uses is declared, and then the grammar
passes the check, has the declared names without repetitions, keeps their positions, and has the
given productions, in the given order. -/
theorem declare_correct (start : String) (nonterminals terminals : List String)
    (productions : List Production) :
    ((∃ k, declare start nonterminals terminals productions = .ok k) ↔
      Grammar.WellDeclared start nonterminals terminals productions) ∧
    ∀ k, declare start nonterminals terminals productions = .ok k →
      k.grammar.validate = .ok () ∧ k.grammar.startName = .ok start ∧
      k.grammar.acceptsEmpty = false ∧
      FirstOccurrences k.grammar.nonterminals nonterminals ∧
      FirstOccurrences k.grammar.terminals (terminals.filter fun name => !isEpsilonName name) ∧
      (∃ index, k.nonterminalIndex = some index ∧ (nonterminalPositions k).1 = .ok index ∧
        (nonterminalPositions { grammar := k.grammar }).1 = .ok index ∧
        index.Locates k.grammar.nonterminals ∧
        index.find? = (Register.ofNames nonterminals).find?) ∧
      (∃ index, k.terminalIndex = some index ∧ (terminalPositions k).1 = .ok index ∧
        (terminalPositions { grammar := k.grammar }).1 = .ok index ∧
        index.Locates k.grammar.terminals ∧
        index.find? =
          (Register.ofNames (terminals.filter fun name => !isEpsilonName name)).find?) ∧
      ∀ name, ∃ list, (productionsOf name k).1 = .ok list ∧
        FirstOccurrences list
          ((productions.filter fun p => p.head = name).map Production.stripped) := by
  refine ⟨exists_declare_iff, fun k hk => ?_⟩
  obtain ⟨h, hterminalIndex, hnonterminalIndex, -⟩ := declare_eq_ok_iff.1 hk
  obtain ⟨hnon, hter⟩ := Grammar.nodup_of_declare h
  obtain ⟨-, hnames, hletters, hstart, haccepts, -⟩ := Grammar.declare_eq_ok_iff.1 h
  refine ⟨Grammar.validate_eq_ok_iff.2 (Grammar.wellFormed_of_declare h), ?_, haccepts, ?_, ?_,
    ⟨_, hnonterminalIndex, ?_, rfl, NameIndex.locates_ofNames hnon, ?_⟩,
    ⟨_, hterminalIndex, ?_, rfl, NameIndex.locates_ofNames hter, ?_⟩, fun name => ?_⟩
  · exact lookUp_eq_ok_iff.2 ((NameIndex.locates_ofNames hnon start _).1 hstart)
  · exact hnames ▸ firstOccurrences_eraseDups nonterminals
  · exact hletters ▸ firstOccurrences_eraseDups _
  · rw [nonterminalPositions_of_known hnonterminalIndex]
  · rw [hnames, Register.find?_ofNames]
  · rw [terminalPositions_of_known hterminalIndex]
  · rw [hletters, Register.find?_ofNames]
  · rw [(nonterminalsCurrent_of_known hnonterminalIndex).fst_productionsOf]
    cases hfound : (NameIndex.ofNames k.grammar.nonterminals).find? name with
    | none =>
      have hnone : productions.filter (fun p => p.head = name) = [] := by
        refine List.filter_eq_nil_iff.2 fun p hp heq => NameIndex.find?_eq_none_iff.1 hfound ?_
        have hhead := (Grammar.exists_declare_iff.1 ⟨_, h⟩).head_mem p hp
        rw [← of_decide_eq_true heq]
        exact hnames ▸ List.mem_eraseDups.2 hhead
      exact ⟨[], rfl, by rw [hnone]; exact firstOccurrences_eraseDups []⟩
    | some head =>
      obtain ⟨row, hrow, hproductions⟩ :=
        Grammar.exists_row_of_declare h ((NameIndex.locates_ofNames hnon name head).1 hfound)
      refine ⟨_, ?_, firstOccurrences_eraseDups _⟩
      exact bind_eq_ok_iff.2 ⟨row, lookUp_eq_ok_iff.2 hrow, hproductions⟩

/-- The first two productions are equal once the spellings of the empty word are gone, and so are
the third and the fourth. The nonterminal with such a spelling is one like any other. -/
def dollarProductions : List Production := [
  ⟨"S", [.nonterminal "$", .terminal "a"]⟩,
  ⟨"S", [.terminal "ε", .nonterminal "$", .terminal "$", .terminal "a"]⟩,
  ⟨"$", [.terminal "$"]⟩,
  ⟨"$", []⟩,
  ⟨"S", [.terminal "b"]⟩,
  ⟨"$", [.nonterminal "$", .terminal "epsilon"]⟩]

/-- The grammar of these productions. -/
def dollarGrammar : Grammar where
  nonterminals := ["S", "$"]
  terminals := ["a", "b"]
  start := 0
  rows := [[[.nonterminal 1, .terminal 0], [.terminal 1]], [[], [.nonterminal 1]]]

theorem declare_correct_dollarGrammar :
    declare "S" ["S", "$", "S"] ["a", "$", "b", "a", "ε"] dollarProductions =
      .ok (declared dollarGrammar) ∧
    Grammar.WellDeclared "S" ["S", "$", "S"] ["a", "$", "b", "a", "ε"] dollarProductions ∧
    dollarGrammar.validate = .ok () ∧ dollarGrammar.startName = .ok "S" ∧
    FirstOccurrences dollarGrammar.nonterminals ["S", "$", "S"] ∧
    FirstOccurrences dollarGrammar.terminals
      (["a", "$", "b", "a", "ε"].filter fun name => !isEpsilonName name) ∧
    ∀ name, ∃ list, (productionsOf name (declared dollarGrammar)).1 = .ok list ∧
      FirstOccurrences list
        ((dollarProductions.filter fun p => p.head = name).map Production.stripped) := by
  have hdeclare : declare "S" ["S", "$", "S"] ["a", "$", "b", "a", "ε"] dollarProductions =
      .ok (declared dollarGrammar) := by decide
  obtain ⟨hiff, hall⟩ :=
    declare_correct "S" ["S", "$", "S"] ["a", "$", "b", "a", "ε"] dollarProductions
  obtain ⟨hvalid, hstart, -, hnonterminals, hterminals, -, -, hproductions⟩ :=
    hall (declared dollarGrammar) hdeclare
  exact ⟨hdeclare, hiff.1 ⟨_, hdeclare⟩, hvalid, hstart, hnonterminals, hterminals, hproductions⟩

end KeptGrammar

end ChomskyChart
