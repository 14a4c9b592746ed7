import ChomskyChart.Proofs.Grammar.RuleText
import ChomskyChart.Proofs.Kept.Declaration

/-!
# Printed grammars are read back

A grammar is printed with one line of rules for each nonterminal, between a line for the start
symbol and a line for the terminals. The lines in between are rule text, and they write the rules of
the table down in one of the ways that there are. So reading them gives a grammar with the same
rules.

## What is not the same

Reading numbers the names in the order in which they come up, and terminals that occur in no body do
not come up at all. So the two grammars are compared by names. Bodies are printed bare, so the names
have to be such that they can be read where they stand bare, and a nonterminal without bodies would
be read as one with the empty body.

## Main definitions

* `PrintsNonterminal`, `PrintsTerminal`: names that are read back where they stand bare
* `Grammar.Printable`: what a grammar has to fulfil so that its text says what it is
* `Grammar.writtenRules`: the table as rules in names
* `innerLines`: the lines of a text but the first and the last one

## Main results

* `Grammar.ruleLines_eq`, `Grammar.productions_eq`: what is printed, and the productions behind it
* `Grammar.Printable.exists_text`: the lines between the first and the last one are rule text
* `Grammar.exists_ofProductions_iff`: when productions make a grammar
* `Grammar.Printable.exists_rows`: the rows of the grammar that they make
* `KeptGrammar.text_readBack`: the grammar that is read from the text of a grammar
-/

namespace ChomskyChart

/-! ### Names that stand bare -/

/-- A name that is read back as a nonterminal, before an arrow as in a body. -/
structure PrintsNonterminal (name : String) : Prop where
  unbroken : IsUnbroken name.toList
  capital : name.toList.head?.any Text.isUppercase = true
  no_arrow : ¬['-', '>'] <:+: name.toList
  not_epsilon : isEpsilonName name = false

/-- A name that is read back as a terminal. -/
structure PrintsTerminal (name : String) : Prop where
  ne_empty : name ≠ ""
  unbroken : IsUnbroken name.toList
  no_capital : name.toList.head?.any Text.isUppercase = false
  not_epsilon : isEpsilonName name = false
  not_nonterminalQuote : ¬nonterminalQuote <+: name.toList
  not_terminalQuote : ¬terminalQuote <+: name.toList

section

variable {name : String}

instance : Decidable (PrintsNonterminal name) :=
  decidable_of_iff
    (IsUnbroken name.toList ∧ name.toList.head?.any Text.isUppercase = true ∧
      ¬['-', '>'] <:+: name.toList ∧ isEpsilonName name = false)
    ⟨fun ⟨h₁, h₂, h₃, h₄⟩ => ⟨h₁, h₂, h₃, h₄⟩, fun ⟨h₁, h₂, h₃, h₄⟩ => ⟨h₁, h₂, h₃, h₄⟩⟩

instance : Decidable (PrintsTerminal name) :=
  decidable_of_iff
    (name ≠ "" ∧ IsUnbroken name.toList ∧ name.toList.head?.any Text.isUppercase = false ∧
      isEpsilonName name = false ∧ ¬nonterminalQuote <+: name.toList ∧
      ¬terminalQuote <+: name.toList)
    ⟨fun ⟨h₁, h₂, h₃, h₄, h₅, h₆⟩ => ⟨h₁, h₂, h₃, h₄, h₅, h₆⟩,
      fun ⟨h₁, h₂, h₃, h₄, h₅, h₆⟩ => ⟨h₁, h₂, h₃, h₄, h₅, h₆⟩⟩

theorem PrintsNonterminal.ne_empty (h : PrintsNonterminal name) : name ≠ "" := by
  rintro rfl
  exact absurd h.capital (by decide)

/-- A quotation mark is no capital letter. -/
theorem PrintsNonterminal.not_quoted (h : PrintsNonterminal name) (opening : List Char) :
    ¬('"' :: opening) <+: name.toList := by
  rintro ⟨rest, hrest⟩
  have hcapital : Text.isUppercase '"' = true := by
    have := h.capital
    rwa [← hrest] at this
  exact absurd hcapital (by decide)

theorem PrintsNonterminal.spelled (h : PrintsNonterminal name) :
    (Symbol.nonterminal name).Spelled name.toList :=
  .bare h.unbroken h.ne_empty h.not_epsilon (h.not_quoted _) (h.not_quoted _) h.capital.symm

theorem PrintsNonterminal.spelledHead (h : PrintsNonterminal name) :
    SpelledHead name name.toList := by
  have hbar : ¬['|'] <+: name.toList := fun hbar =>
    (h.unbroken '|' (hbar.subset List.mem_cons_self)).2 rfl
  exact .bare ⟨h.ne_empty, fun c hc => (h.unbroken c hc).1, h.no_arrow⟩ hbar (h.not_quoted _)

theorem PrintsTerminal.spelled (h : PrintsTerminal name) :
    (Symbol.terminal name).Spelled name.toList :=
  .bare h.unbroken h.ne_empty h.not_epsilon h.not_nonterminalQuote h.not_terminalQuote
    h.no_capital.symm

theorem IsUnbroken.not_newline {text : List Char} (h : IsUnbroken text) : '\n' ∉ text := fun hmem =>
  absurd (h '\n' hmem).1 (by decide)

end

/-! ### Printed lines -/

/-- The words that are printed for a body. -/
def printedWords (symbols : List Symbol) : List (List Char) :=
  if symbols = [] then [epsilonText.toList] else symbols.map fun s => s.name.toList

/-- A body as it is printed. -/
def printedBody (symbols : List Symbol) : List Char :=
  (printedWords symbols).flatMap (' ' :: ·)

/-- The rules for a head as they are printed. -/
def printedLine (rule : WrittenRule) : List Char :=
  rule.head.toList ++
    ([' '] ++ '-' :: '>' :: List.intercalate [' ', '|'] (rule.alternatives.map printedBody))

section

variable {symbols : List Symbol} {bodies : List (List Symbol)} {rules : List WrittenRule}

theorem writesSymbols_printedWords (h : ∀ s ∈ symbols, s.Spelled s.name.toList) :
    WritesSymbols symbols (printedWords symbols) := by
  rw [printedWords]
  split
  · rename_i hnil
    subst hnil
    exact .epsilon (by decide) .nil
  · clear * - h
    induction symbols with
    | nil => exact .nil
    | cons s symbols ih =>
      obtain ⟨hs, hrest⟩ := List.forall_mem_cons.1 h
      exact .symbol hs (ih hrest)

/-- **The bodies of a rule are printed as alternatives.** The space before a bar belongs to the body
that stands there. -/
theorem writesAlternatives_printedBody
    (h : ∀ symbols ∈ bodies, ∀ s ∈ symbols, s.Spelled s.name.toList) (hne : bodies ≠ []) :
    WritesAlternatives bodies (List.intercalate [' ', '|'] (bodies.map printedBody)) := by
  have hbody : ∀ symbols ∈ bodies, ∀ gap, IsGap gap →
      WritesBody symbols (printedBody symbols ++ gap) := fun symbols hmem gap hgap =>
    ⟨_, writesSymbols_printedWords (h symbols hmem), spaced_flatMap _ hgap⟩
  clear h
  induction bodies with
  | nil => exact absurd rfl hne
  | cons symbols rest ih =>
    obtain ⟨hsymbols, hrest⟩ := List.forall_mem_cons.1 hbody
    cases rest with
    | nil =>
      have hlast := hsymbols [] (by decide)
      rw [List.append_nil] at hlast
      rw [List.map_singleton, List.intercalate_singleton]
      exact .last hlast
    | cons next more =>
      have hmore := ih (List.cons_ne_nil _ _) hrest
      simpa using WritesAlternatives.more (hsymbols [' '] (by decide)) hmore

/-- The parts of a rule can be read back where they stand bare. -/
structure WrittenRule.Bare (rule : WrittenRule) : Prop where
  head : SpelledHead rule.head rule.head.toList
  alternatives_ne_nil : rule.alternatives ≠ []
  alternatives : ∀ symbols ∈ rule.alternatives, ∀ s ∈ symbols, s.Spelled s.name.toList

/-- **Printed lines are rule text.** -/
theorem writesRules_printedLine (h : ∀ rule ∈ rules, rule.Bare) :
    WritesRules rules (rules.map printedLine) := by
  induction rules with
  | nil => exact .nil
  | cons rule rules ih =>
    obtain ⟨hrule, hrest⟩ := List.forall_mem_cons.1 h
    have htext := writesAlternatives_printedBody hrule.alternatives hrule.alternatives_ne_nil
    have hlines := WritesRules.rule (show IsGap [] by decide) hrule.head
      (show IsGap [' '] by decide) htext .nil (ih hrest)
    rwa [List.append_nil] at hlines

end

/-! ### The text of a grammar -/

/-- The lines of a text but the first and the last one. -/
def innerLines (text : String) : String :=
  String.ofList (List.intercalate ['\n'] (Text.fields (· == '\n') text.toList).tail.dropLast)

theorem mem_iff_of_mapM_eq_ok {α β : Type} {f : α → Except Failure β} {xs : List α} {ys : List β}
    (h : xs.mapM f = .ok ys) {y : β} : y ∈ ys ↔ ∃ x ∈ xs, f x = .ok y := by
  have hall := mapM_eq_ok_iff.1 h
  clear h
  induction hall with
  | nil => simp
  | @cons x y' xs ys hx _ ih => simp [ih, hx, eq_comm]

namespace Grammar

variable {g : Grammar} {entry : Row × Nat} {rule : WrittenRule} {rules : List WrittenRule}

/-- A row of the table as a rule. -/
def writtenRule (g : Grammar) (entry : Row × Nat) : Except Failure WrittenRule := do
  let head ← g.nonterminalName entry.2
  return ⟨head, ← entry.1.mapM fun body => body.mapM g.symbol⟩

/-- The table as rules in names. -/
def writtenRules (g : Grammar) : Except Failure (List WrittenRule) :=
  g.rows.zipIdx.mapM g.writtenRule

theorem writtenRule_eq_ok_iff :
    g.writtenRule entry = .ok rule ↔
      g.nonterminals[entry.2]? = some rule.head ∧
        List.Forall₂ (fun body symbols => body.mapM g.symbol = .ok symbols)
          entry.1 rule.alternatives := by
  obtain ⟨head, alternatives⟩ := rule
  simp only [writtenRule, bind_eq_ok_iff, nonterminalName, lookUp_eq_ok_iff, ← mapM_eq_ok_iff]
  simp [pure, Except.pure]

theorem bodyText_eq {body : Body} {symbols : List Symbol}
    (h : body.mapM g.symbol = .ok symbols) :
    g.bodyText body = .ok (String.ofList (printedBody symbols)) := by
  cases body with
  | nil =>
    obtain rfl : [] = symbols := Except.ok.inj h
    rfl
  | cons s rest =>
    have hne : symbols ≠ [] := by
      rintro rfl
      exact nomatch mapM_eq_ok_iff.1 h
    simp only [bodyText, h, bind, Except.bind]
    refine congrArg Except.ok (String.toList_inj.1 ?_)
    simp [printedBody, printedWords, hne, String.toList_join, List.flatMap_map]

/-- **The line for a row** is that of its rule. -/
theorem ruleLine_eq (h : g.writtenRule entry = .ok rule) :
    g.ruleLine entry.2 entry.1 = .ok (String.ofList (printedLine rule)) := by
  obtain ⟨hname, hbodies⟩ := writtenRule_eq_ok_iff.1 h
  have htexts : entry.1.mapM g.bodyText =
      .ok (rule.alternatives.map fun symbols => String.ofList (printedBody symbols)) :=
    mapM_eq_ok_iff.2 (List.forall₂_map_right_iff.2 (hbodies.imp fun _ _ => bodyText_eq))
  simp only [ruleLine, nonterminalName, lookUp_eq_ok_iff.2 hname, htexts, bind, Except.bind]
  refine congrArg Except.ok (String.toList_inj.1 ?_)
  simp [printedLine, String.toList_intercalate, Function.comp_def]

theorem ruleLines_eq (h : g.writtenRules = .ok rules) :
    g.ruleLines = .ok ((rules.map printedLine).map String.ofList) := by
  rw [List.map_map]
  exact mapM_eq_ok_iff.2 (List.forall₂_map_right_iff.2
    ((mapM_eq_ok_iff.1 h).imp fun _ _ => ruleLine_eq))

/-- The productions of a row. -/
theorem productions_writtenRule (h : g.writtenRule entry = .ok rule) :
    (entry.1.map fun body => (entry.2, body)).mapM (fun e => g.production e.1 e.2) =
      .ok rule.productions := by
  obtain ⟨hname, hbodies⟩ := writtenRule_eq_ok_iff.1 h
  refine mapM_eq_ok_iff.2 (List.forall₂_map_left_iff.2 (List.forall₂_map_right_iff.2 ?_))
  exact hbodies.imp fun _ _ hbody => production_eq_ok_iff.2 ⟨hname, mapM_eq_ok_iff.1 hbody⟩

/-- **The productions of a grammar** are those of its rules. -/
theorem productions_eq (h : g.writtenRules = .ok rules) :
    g.productions = .ok (rules.flatMap WrittenRule.productions) := by
  have hall := mapM_eq_ok_iff.1 h
  clear h
  show (g.rows.zipIdx.flatMap fun entry => entry.1.map fun body => (entry.2, body)).mapM
    (fun e => g.production e.1 e.2) = _
  generalize g.rows.zipIdx = entries at hall ⊢
  induction hall with
  | nil => rfl
  | cons hrule _ ih =>
    rw [List.flatMap_cons, List.mapM_append, productions_writtenRule hrule, ih]
    rfl

/-- What makes the text of a grammar say all of it: every nonterminal has bodies, none of them
twice, and names are read back where they stand bare. -/
structure Printable (g : Grammar) : Prop where
  ne_nil : ∀ row ∈ g.rows, row ≠ []
  nodup : ∀ row ∈ g.rows, row.Nodup
  nonterminals : ∀ name ∈ g.nonterminals, PrintsNonterminal name
  terminals : ∀ name ∈ g.terminals, PrintsTerminal name

instance (g : Grammar) : Decidable g.Printable :=
  decidable_of_iff
    ((∀ row ∈ g.rows, row ≠ []) ∧ (∀ row ∈ g.rows, row.Nodup) ∧
      (∀ name ∈ g.nonterminals, PrintsNonterminal name) ∧ ∀ name ∈ g.terminals, PrintsTerminal name)
    ⟨fun ⟨h₁, h₂, h₃, h₄⟩ => ⟨h₁, h₂, h₃, h₄⟩, fun ⟨h₁, h₂, h₃, h₄⟩ => ⟨h₁, h₂, h₃, h₄⟩⟩

theorem WellFormed.exists_writtenRules (h : g.WellFormed) :
    ∃ rules, g.writtenRules = .ok rules := by
  refine exists_mapM_eq_ok fun entry hentry => ?_
  have hrow : g.rows[entry.2]? = some entry.1 := List.mem_zipIdx_iff_getElem?.1 hentry
  have hhead : entry.2 < g.nonterminals.length :=
    h.length_rows ▸ (List.getElem?_eq_some_iff.1 hrow).1
  obtain ⟨bodies, hbodies⟩ := exists_mapM_eq_ok fun body hbody =>
    exists_mapM_eq_ok fun s hs => exists_symbol ((h.hasNames ⟨entry.1, hrow, hbody⟩).2 s hs)
  exact ⟨⟨g.nonterminals[entry.2], bodies⟩,
    writtenRule_eq_ok_iff.2 ⟨List.getElem?_eq_getElem hhead, mapM_eq_ok_iff.1 hbodies⟩⟩

theorem Printable.spelled (h : g.Printable) {id : SymbolId} {s : Symbol}
    (hs : g.symbol id = .ok s) : s.Spelled s.name.toList := by
  cases s with
  | terminal name =>
    obtain ⟨t, -, hname⟩ := symbol_eq_terminal_iff.1 hs
    exact (h.terminals name (List.mem_of_getElem? hname)).spelled
  | nonterminal name =>
    obtain ⟨v, -, hname⟩ := symbol_eq_nonterminal_iff.1 hs
    exact (h.nonterminals name (List.mem_of_getElem? hname)).spelled

theorem Printable.bare (h : g.Printable) (hrules : g.writtenRules = .ok rules) :
    ∀ rule ∈ rules, rule.Bare := by
  intro rule hrule
  obtain ⟨entry, hentry, heq⟩ := (mem_iff_of_mapM_eq_ok hrules).1 hrule
  obtain ⟨hname, hbodies⟩ := writtenRule_eq_ok_iff.1 heq
  have hrow : entry.1 ∈ g.rows := List.mem_of_getElem? (List.mem_zipIdx_iff_getElem?.1 hentry)
  refine ⟨(h.nonterminals _ (List.mem_of_getElem? hname)).spelledHead, ?_, ?_⟩
  · intro hnil
    rw [hnil] at hbodies
    exact h.ne_nil _ hrow (List.forall₂_nil_right_iff.1 hbodies)
  · intro symbols hsymbols s hs
    obtain ⟨body, -, hbody⟩ := (mem_iff_of_mapM_eq_ok (mapM_eq_ok_iff.2 hbodies)).1 hsymbols
    obtain ⟨id, -, hid⟩ := (mem_iff_of_mapM_eq_ok hbody).1 hs
    exact h.spelled hid

theorem innerLines_intercalate {first last : String} {lines : List (List Char)}
    (hfirst : '\n' ∉ first.toList) (hlines : ∀ line ∈ lines, '\n' ∉ line)
    (hlast : '\n' ∉ last.toList) :
    innerLines ("\n".intercalate (first :: lines.map String.ofList ++ [last])) =
      String.ofList (List.intercalate ['\n'] lines) := by
  have hall : ∀ line ∈ first.toList :: (lines ++ [last.toList]), '\n' ∉ line := by
    simpa [or_imp, forall_and] using ⟨hfirst, hlines, hlast⟩
  have htext : ("\n".intercalate (first :: lines.map String.ofList ++ [last])).toList =
      List.intercalate ['\n'] (first.toList :: (lines ++ [last.toList])) := by
    simp [String.toList_intercalate, Function.comp_def]
  rw [innerLines, htext, Text.fields_intercalate (List.cons_ne_nil _ _) hall, List.tail_cons,
    List.dropLast_concat]

/-- **The lines of rules are rule text** for the rules of the table. -/
theorem Printable.exists_text (h : g.Printable) (hvalid : g.WellFormed)
    (hrules : g.writtenRules = .ok rules) :
    ∃ text start, g.text = .ok text ∧ g.startName = .ok start ∧ Writes rules (innerLines text) := by
  obtain ⟨start, hstart⟩ : ∃ start, g.startName = .ok start := ⟨_, lookUp_of_lt hvalid.start_lt⟩
  have hwrites := writesRules_printedLine (h.bare hrules)
  have hfirst : '\n' ∉ ("Start Symbol: " ++ start).toList := by
    have hname := h.nonterminals start (List.mem_of_getElem? (lookUp_eq_ok_iff.1 hstart))
    simpa using hname.unbroken.not_newline
  have hlast : '\n' ∉ ("Terminals:" ++ String.join (g.terminals.map (" " ++ ·))).toList := by
    have hnames : ∀ name ∈ g.terminals, '\n' ∉ name.toList := fun name hname =>
      (h.terminals name hname).unbroken.not_newline
    simpa [String.toList_join] using hnames
  have htext : g.text = .ok ("\n".intercalate (("Start Symbol: " ++ start) ::
      (rules.map printedLine).map String.ofList ++
        ["Terminals:" ++ String.join (g.terminals.map (" " ++ ·))])) := by
    rw [text, hstart, ruleLines_eq hrules]
    rfl
  refine ⟨_, start, htext, hstart, rules.map printedLine, hwrites, ?_⟩
  rw [innerLines_intercalate hfirst hwrites.not_newline hlast, String.toList_ofList]

/-! ### Names in productions -/

section

variable {productions : List Production} {p : Production} {head : Nat} {body : Body} {s : Symbol}
  {name start : String}

theorem mem_terminalsOf_iff : name ∈ terminalsOf p ↔ .terminal name ∈ p.body := by
  rw [terminalsOf, List.mem_filterMap]
  refine ⟨?_, fun h => ⟨_, h, rfl⟩⟩
  rintro ⟨s, hs, hname⟩
  cases s with
  | terminal other => rwa [← Option.some.inj hname]
  | nonterminal other => exact nomatch hname

theorem mem_nonterminalsOf_iff :
    name ∈ nonterminalsOf p ↔ name = p.head ∨ .nonterminal name ∈ p.body := by
  rw [nonterminalsOf, List.mem_cons, List.mem_filterMap]
  refine or_congr_right ⟨?_, fun h => ⟨_, h, rfl⟩⟩
  rintro ⟨s, hs, hname⟩
  cases s with
  | terminal other => exact nomatch hname
  | nonterminal other => rwa [← Option.some.inj hname]

/-- **Productions make a grammar** if the start symbol is in one of them, and no name is used in
both ways. All that they use is declared by them. -/
theorem exists_ofProductions_iff :
    (∃ r, ofProductions start productions = .ok r) ↔
      start ∈ productions.flatMap nonterminalsOf ∧
        ∀ name ∈ productions.flatMap terminalsOf, isEpsilonName name = false →
          name ∉ productions.flatMap nonterminalsOf := by
  rw [ofProductions, exists_declare_iff]
  refine ⟨fun h => ⟨h.start_mem, h.disjoint⟩, fun h => ⟨h.2, h.1, fun p hp => ?_, ?_⟩⟩
  · exact List.mem_flatMap.2 ⟨p, hp, mem_nonterminalsOf_iff.2 (.inl rfl)⟩
  · intro p hp s hs _
    cases s with
    | terminal name => exact List.mem_flatMap.2 ⟨p, hp, mem_terminalsOf_iff.2 hs⟩
    | nonterminal name => exact List.mem_flatMap.2 ⟨p, hp, mem_nonterminalsOf_iff.2 (.inr hs)⟩

theorem mem_body_iff (hp : g.production head body = .ok p) :
    s ∈ p.body ↔ ∃ id ∈ body, g.symbol id = .ok s :=
  mem_iff_of_mapM_eq_ok (mapM_eq_ok_iff.2 (production_eq_ok_iff.1 hp).2)

variable (h : g.productions = .ok productions)
include h

/-- The productions of a grammar are those of its rules, one at a time. -/
theorem mem_productions_iff :
    p ∈ productions ↔ ∃ head body, g.HasRule head body ∧ g.production head body = .ok p := by
  rw [mem_iff_of_mapM_eq_ok h, Prod.exists]
  simp only [mem_headedBodies, HasRule]

theorem exists_production_of_hasRule (hrule : g.HasRule head body) :
    ∃ p ∈ productions, g.production head body = .ok p := by
  obtain ⟨p, hp⟩ := exists_mapM_eq_ok_iff.1 ⟨_, h⟩ (head, body) (mem_headedBodies.2 hrule)
  exact ⟨p, (mem_productions_iff h).2 ⟨head, body, hrule, hp⟩, hp⟩

/-- The symbols in productions are those in bodies. -/
theorem exists_mem_body_iff :
    (∃ p ∈ productions, s ∈ p.body) ↔
      ∃ head body id, g.HasRule head body ∧ id ∈ body ∧ g.symbol id = .ok s := by
  constructor
  · rintro ⟨p, hp, hs⟩
    obtain ⟨head, body, hrule, hp⟩ := (mem_productions_iff h).1 hp
    obtain ⟨id, hid, hsymbol⟩ := (mem_body_iff hp).1 hs
    exact ⟨head, body, id, hrule, hid, hsymbol⟩
  · rintro ⟨head, body, id, hrule, hid, hsymbol⟩
    obtain ⟨p, hmem, hp⟩ := exists_production_of_hasRule h hrule
    exact ⟨p, hmem, (mem_body_iff hp).2 ⟨id, hid, hsymbol⟩⟩

end

/-- A terminal of this name occurs in a body. -/
def UsesTerminal (g : Grammar) (name : String) : Prop :=
  ∃ head body index, g.HasRule head body ∧ .terminal index ∈ body ∧
    g.terminals[index]? = some name

section

variable {productions : List Production} {name : String} (h : g.productions = .ok productions)
include h

/-- The terminals in the productions of a grammar. -/
theorem mem_flatMap_terminalsOf_iff :
    name ∈ productions.flatMap terminalsOf ↔ g.UsesTerminal name := by
  simp only [List.mem_flatMap, mem_terminalsOf_iff, exists_mem_body_iff h, symbol_eq_terminal_iff]
  constructor
  · rintro ⟨head, body, _, hrule, hmem, index, rfl, hname⟩
    exact ⟨head, body, index, hrule, hmem, hname⟩
  · rintro ⟨head, body, index, hrule, hmem, hname⟩
    exact ⟨head, body, _, hrule, hmem, index, rfl, hname⟩

/-- The nonterminals in the productions of a grammar. Each of them is a head, as no row is empty. -/
theorem mem_flatMap_nonterminalsOf_iff (hrows : g.rows.length = g.nonterminals.length)
    (hne : ∀ row ∈ g.rows, row ≠ []) :
    name ∈ productions.flatMap nonterminalsOf ↔ name ∈ g.nonterminals := by
  simp only [List.mem_flatMap, mem_nonterminalsOf_iff]
  constructor
  · rintro ⟨p, hp, rfl | hname⟩
    · obtain ⟨head, body, -, hp⟩ := (mem_productions_iff h).1 hp
      exact List.mem_of_getElem? (production_eq_ok_iff.1 hp).1
    · obtain ⟨-, -, id, -, -, hsymbol⟩ := (exists_mem_body_iff h).1 ⟨p, hp, hname⟩
      obtain ⟨v, -, hv⟩ := symbol_eq_nonterminal_iff.1 hsymbol
      exact List.mem_of_getElem? hv
  · intro hname
    obtain ⟨head, hhead⟩ := List.getElem?_of_mem hname
    have hlt : head < g.rows.length := hrows ▸ (List.getElem?_eq_some_iff.1 hhead).1
    obtain ⟨body, hbody⟩ := List.exists_mem_of_ne_nil _ (hne _ (List.getElem_mem hlt))
    obtain ⟨p, hmem, hp⟩ := exists_production_of_hasRule h
      ⟨_, List.getElem?_eq_getElem hlt, hbody⟩
    have heq : g.nonterminals[head]? = some p.head := (production_eq_ok_iff.1 hp).1
    exact ⟨p, hmem, .inl (Option.some.inj (hhead.symm.trans heq))⟩

end

/-! ### Reading the productions again -/

section

variable {productions : List Production} {start name : String} {r : Grammar}

/-- **The productions of a grammar make a grammar.** -/
theorem Printable.exists_ofProductions (h : g.Printable) (hvalid : g.WellFormed)
    (hproductions : g.productions = .ok productions) (hstart : g.startName = .ok start) :
    ∃ r, ofProductions start productions = .ok r := by
  have hnonterminals : ∀ name, name ∈ productions.flatMap nonterminalsOf ↔ name ∈ g.nonterminals :=
    fun name => mem_flatMap_nonterminalsOf_iff hproductions hvalid.length_rows h.ne_nil
  refine exists_ofProductions_iff.2 ⟨?_, fun name hname _ => ?_⟩
  · exact (hnonterminals start).2 (List.mem_of_getElem? (lookUp_eq_ok_iff.1 hstart))
  · obtain ⟨-, -, index, -, -, hindex⟩ := (mem_flatMap_terminalsOf_iff hproductions).1 hname
    rw [hnonterminals]
    exact hvalid.disjoint name (List.mem_of_getElem? hindex)

/-- It has the nonterminals of the first one, and the terminals that this one uses. -/
theorem Printable.names_ofProductions (h : g.Printable) (hvalid : g.WellFormed)
    (hproductions : g.productions = .ok productions)
    (hr : ofProductions start productions = .ok r) :
    (∀ name, name ∈ r.nonterminals ↔ name ∈ g.nonterminals) ∧
      ∀ name, name ∈ r.terminals ↔ g.UsesTerminal name := by
  obtain ⟨-, hnames, hletters, -⟩ := declare_eq_ok_iff.1 hr
  refine ⟨fun name => ?_, fun name => ?_⟩
  · rw [hnames, List.mem_eraseDups,
      mem_flatMap_nonterminalsOf_iff hproductions hvalid.length_rows h.ne_nil]
  · rw [hletters, List.mem_eraseDups, List.mem_filter, mem_flatMap_terminalsOf_iff hproductions]
    refine and_iff_left_of_imp ?_
    rintro ⟨-, -, index, -, -, hindex⟩
    simpa using (h.terminals name (List.mem_of_getElem? hindex)).not_epsilon

/-- **Reading makes the rows again.** A row that repeats no body stands for the productions that
have its name at their head, in a grammar that is declared with them as in the one that they are
from. -/
theorem Printable.exists_rows {head head' : Nat} (h : g.Printable) (hvalid : g.WellFormed)
    (hproductions : g.productions = .ok productions)
    (hr : ofProductions start productions = .ok r) (hname : g.nonterminals[head]? = some name)
    (hname' : r.nonterminals[head']? = some name) :
    ∃ row row' list, g.rows[head]? = some row ∧ r.rows[head']? = some row' ∧
      row.mapM (g.production head) = .ok list ∧ row'.mapM (r.production head') = .ok list := by
  -- No spelling of the empty word is in a production, so a declaration leaves them as they are.
  have hstripped : ∀ p ∈ productions, p.stripped = p := by
    intro p hp
    have hletters : ∀ s ∈ p.body, (!s.isEpsilon) = true := by
      intro s hs
      obtain ⟨-, -, id, -, -, hsymbol⟩ := (exists_mem_body_iff hproductions).1 ⟨p, hp, hs⟩
      cases s with
      | terminal name =>
        obtain ⟨t, -, ht⟩ := symbol_eq_terminal_iff.1 hsymbol
        have hletter := (h.terminals name (List.mem_of_getElem? ht)).not_epsilon
        simpa [Symbol.isEpsilon] using hletter
      | nonterminal name => rfl
    rw [Production.stripped, List.filter_eq_self.2 hletters]
  have hentries : List.Forall₂ (fun p entry => g.production entry.1 entry.2 = .ok p.stripped)
      productions g.headedBodies :=
    ((List.forall₂_and_left _ _).2 ⟨hstripped, (mapM_eq_ok_iff.1 hproductions).flip⟩).imp
      fun _ _ hp => hp.1.symm ▸ hp.2
  have hlt : head < g.rows.length :=
    hvalid.length_rows ▸ (List.getElem?_eq_some_iff.1 hname).1
  have hrow : g.rows[head]? = some g.rows[head] := List.getElem?_eq_getElem hlt
  have hlist := forall₂_entriesAt hvalid.nodup_nonterminals hentries hname
  rw [entriesAt_headedBodies, hrow, Option.getD_some] at hlist
  have hlist' := forall₂_eraseDups
    (biUnique_production hvalid.nodup_nonterminals hvalid.nodup_terminals head) hlist
  rw [eraseDups_of_nodup (h.nodup _ (List.getElem_mem hlt))] at hlist'
  obtain ⟨row', hrow', hproductions'⟩ := exists_row_of_declare hr hname'
  exact ⟨_, row', _, hrow, hrow', mapM_eq_ok_iff.2 hlist', hproductions'⟩

end

end Grammar

namespace KeptGrammar

variable {k : KeptGrammar}

/-- **A printed grammar is read back.** The lines between the first and the last one of its text are
read as a grammar with the same start symbol, the same nonterminals, the terminals that are in use,
and for each name the same productions in the same order. -/
theorem text_readBack (hvalid : k.grammar.validate = .ok ()) (hcurrent : k.NonterminalsCurrent)
    (hprintable : k.grammar.Printable) :
    ∃ text start r, k.grammar.text = .ok text ∧ k.grammar.startName = .ok start ∧
      ofText (innerLines text) start = .ok r ∧ r.grammar.validate = .ok () ∧
      r.grammar.startName = .ok start ∧
      (∀ name, name ∈ r.grammar.nonterminals ↔ name ∈ k.grammar.nonterminals) ∧
      (∀ name, name ∈ r.grammar.terminals ↔ k.grammar.UsesTerminal name) ∧
      ∀ name, ∃ list, (productionsOf name k).1 = .ok list ∧
        (productionsOf name r).1 = .ok list := by
  have hwell := Grammar.validate_eq_ok_iff.1 hvalid
  obtain ⟨rules, hrules⟩ := hwell.exists_writtenRules
  obtain ⟨text, start, htext, hstart, hwrites⟩ := hprintable.exists_text hwell hrules
  have hproductions := Grammar.productions_eq hrules
  obtain ⟨r, hr⟩ := hprintable.exists_ofProductions hwell hproductions hstart
  have hread : ofText (innerLines text) start = .ok (declared r) := by
    have hgrammar : Grammar.ofText (innerLines text) start = .ok r := by
      rw [Grammar.ofText, hwrites.readRules_eq]
      exact hr
    rw [ofText, hgrammar]
    rfl
  have hwell' := Grammar.wellFormed_of_declare hr
  obtain ⟨-, -, -, hfound, -⟩ := Grammar.declare_eq_ok_iff.1 hr
  have hlocates := NameIndex.locates_ofNames hwell.nodup_nonterminals
  have hlocates' := NameIndex.locates_ofNames hwell'.nodup_nonterminals
  obtain ⟨hnonterminals, hterminals⟩ := hprintable.names_ofProductions hwell hproductions hr
  refine ⟨text, start, declared r, htext, hstart, hread, Grammar.validate_eq_ok_iff.2 hwell',
    lookUp_eq_ok_iff.2 ((hlocates' start r.start).1 hfound), hnonterminals, hterminals,
    fun name => ?_⟩
  rw [hcurrent.fst_productionsOf, (nonterminalsCurrent_declared r).fst_productionsOf,
    declared_grammar]
  by_cases hmem : name ∈ k.grammar.nonterminals
  · obtain ⟨head, hhead⟩ := List.getElem?_of_mem hmem
    obtain ⟨head', hhead'⟩ := List.getElem?_of_mem ((hnonterminals name).2 hmem)
    obtain ⟨row, row', list, hrow, hrow', hlist, hlist'⟩ :=
      hprintable.exists_rows hwell hproductions hr hhead hhead'
    rw [(hlocates name head).2 hhead, (hlocates' name head').2 hhead']
    exact ⟨list, bind_eq_ok_iff.2 ⟨row, lookUp_eq_ok_iff.2 hrow, hlist⟩,
      bind_eq_ok_iff.2 ⟨row', lookUp_eq_ok_iff.2 hrow', hlist'⟩⟩
  · rw [NameIndex.find?_eq_none_iff.2 hmem,
      NameIndex.find?_eq_none_iff.2 (mt (hnonterminals name).1 hmem)]
    exact ⟨[], rfl, rfl⟩

/-- The first body uses the last nonterminal and the last terminal first, so reading numbers both
alphabets in another order. One terminal is an arrow, and another one is in no body. -/
def crossed : Grammar where
  nonterminals := ["S", "T", "Ü"]
  terminals := ["x", "->", "a"]
  start := 0
  rows := [[[.nonterminal 2, .terminal 2, .nonterminal 1], []], [[.terminal 1]],
    [[.nonterminal 0], [.terminal 1, .terminal 2]]]

theorem text_readBack_crossed :
    crossed.validate = .ok () ∧ (declared crossed).NonterminalsCurrent ∧ crossed.Printable ∧
    ∃ text start r, crossed.text = .ok text ∧ crossed.startName = .ok start ∧
      ofText (innerLines text) start = .ok r ∧ r.grammar.validate = .ok () ∧
      r.grammar.startName = .ok start ∧
      (∀ name, name ∈ r.grammar.nonterminals ↔ name ∈ crossed.nonterminals) ∧
      (∀ name, name ∈ r.grammar.terminals ↔ crossed.UsesTerminal name) ∧
      ∀ name, ∃ list, (productionsOf name (declared crossed)).1 = .ok list ∧
        (productionsOf name r).1 = .ok list := by
  have hvalid : crossed.validate = .ok () := by decide
  have hcurrent := nonterminalsCurrent_declared crossed
  have hprintable : crossed.Printable := by decide
  exact ⟨hvalid, hcurrent, hprintable,
    text_readBack (k := declared crossed) hvalid hcurrent hprintable⟩

end KeptGrammar

end ChomskyChart
