import Mathlib.Data.List.Infix
import ChomskyChart.Grammar.Reader
import ChomskyChart.Proofs.Text.Cutting

/-!
# What rule text says

The syntax of rule text is laid down here as a relation between rules and texts, without a word on
how a text is read. A list of rules has many texts: names stand bare or in quotes, spellings of the
empty word may come between symbols, alternatives go on in the same line or in the next ones, and
blanks and blank lines are free. Whichever of these texts is read, the productions are those of the
rules.

## What may be written

A bare name is read as it stands, so it must not look like something else: like a spelling of the
empty word, the beginning of a quoted name, a bar, or a symbol of the other kind. In quotes only
blanks and bars are left to avoid, as these end a word whatever surrounds them. A head is not a word
of a body. It may have bars, even a name that spells the empty word, but no arrow, as a line is cut
at its first one.

## Main definitions

* `Symbol.Spelled`, `SpelledHead`: the words for a symbol and for a head
* `WritesSymbols`, `Spaced`, `WritesBody`: the words of a body, and the blanks around them
* `WritesAlternatives`, `WritesContinuation`, `WritesRules`: lines
* `Writes`: the texts of a list of rules

## Main results

* `Symbol.Spelled.readSymbol_eq`, `SpelledHead.readHead_eq`: words are read back
* `WritesAlternatives.readAlternatives_eq`, `WritesRules.readLines_eq`: so are lines
* `Writes.readRules_eq`: so are texts
* `ofText_of_writes`: the grammar of a text is that of its rules
-/

namespace ChomskyChart

/-! ### Rules as they are written -/

/-- A head with its alternatives. -/
structure WrittenRule where
  head : String
  alternatives : List (List Symbol)
deriving DecidableEq, Repr, Inhabited

/-- One production for each alternative. -/
def WrittenRule.productions (rule : WrittenRule) : List Production :=
  rule.alternatives.map (Production.mk rule.head)

/-- Whether a symbol is a nonterminal. -/
def Symbol.isNonterminal : Symbol → Bool
  | .terminal _ => false
  | .nonterminal _ => true

/-- A name in quotes, after the opening that says its kind. -/
def quote (opening : List Char) (name : String) : List Char :=
  opening ++ (name.toList ++ ['"'])

/-- Characters without blanks and bars. -/
def IsUnbroken (text : List Char) : Prop :=
  ∀ c ∈ text, Text.isBlank c = false ∧ c ≠ '|'

instance (text : List Char) : Decidable (IsUnbroken text) :=
  decidable_of_iff (text.all (fun c => !Text.isBlank c && c != '|') = true) (by simp [IsUnbroken])

/-- The words for a symbol. -/
inductive Symbol.Spelled : Symbol → List Char → Prop where
  | quotedNonterminal {name : String} (hname : IsUnbroken name.toList) :
    Spelled (.nonterminal name) (quote nonterminalQuote name)
  | quotedTerminal {name : String} (hname : IsUnbroken name.toList) :
    Spelled (.terminal name) (quote terminalQuote name)
  | bare {s : Symbol} (hname : IsUnbroken s.name.toList) (hne : s.name ≠ "")
    (hepsilon : isEpsilonName s.name = false) (hnonterminal : ¬nonterminalQuote <+: s.name.toList)
    (hterminal : ¬terminalQuote <+: s.name.toList)
    (hkind : s.isNonterminal = s.name.toList.head?.any Text.isUppercase) :
    Spelled s s.name.toList

/-- A name that may stand before an arrow. -/
structure IsHeadName (name : String) : Prop where
  ne_empty : name ≠ ""
  not_blank : ∀ c ∈ name.toList, Text.isBlank c = false
  no_arrow : ¬['-', '>'] <:+: name.toList

instance (name : String) : Decidable (IsHeadName name) :=
  decidable_of_iff
    (name ≠ "" ∧ name.toList.all (fun c => !Text.isBlank c) = true ∧ ¬['-', '>'] <:+: name.toList)
    ⟨fun h => ⟨h.1, by simpa using h.2.1, h.2.2⟩,
      fun h => ⟨h.ne_empty, by simpa using h.not_blank, h.no_arrow⟩⟩

/-- The ways to write a head. -/
inductive SpelledHead : String → List Char → Prop where
  | quoted {name : String} (hname : IsHeadName name) :
    SpelledHead name (quote nonterminalQuote name)
  | bare {name : String} (hname : IsHeadName name) (hbar : ¬['|'] <+: name.toList)
    (hquote : ¬nonterminalQuote <+: name.toList) : SpelledHead name name.toList

/-- Blanks that do not end the line. A carriage return is one of them. -/
def IsGap (gap : List Char) : Prop :=
  ∀ c ∈ gap, Text.isBlank c = true ∧ c ≠ '\n'

instance (gap : List Char) : Decidable (IsGap gap) :=
  decidable_of_iff (gap.all (fun c => Text.isBlank c && c != '\n') = true) (by simp [IsGap])

/-- The words of a body: those of its symbols, with spellings of the empty word among them. -/
inductive WritesSymbols : List Symbol → List (List Char) → Prop where
  | nil : WritesSymbols [] []
  | epsilon {symbols : List Symbol} {word : List Char} {words : List (List Char)}
    (hword : isEpsilonName (String.ofList word) = true) (hrest : WritesSymbols symbols words) :
    WritesSymbols symbols (word :: words)
  | symbol {s : Symbol} {symbols : List Symbol} {word : List Char} {words : List (List Char)}
    (hword : s.Spelled word) (hrest : WritesSymbols symbols words) :
    WritesSymbols (s :: symbols) (word :: words)

/-- The words stand in the text, with gaps around them. Between two words the gap is not empty. -/
inductive Spaced : List (List Char) → List Char → Prop where
  | nil {gap : List Char} (hgap : IsGap gap) : Spaced [] gap
  | cons {gap word text : List Char} {words : List (List Char)} (hgap : IsGap gap)
    (hnext : words ≠ [] → ∃ c ∈ text.head?, Text.isBlank c = true) (hrest : Spaced words text) :
    Spaced (word :: words) (gap ++ (word ++ text))

/-- The texts of one alternative. -/
def WritesBody (body : List Symbol) (text : List Char) : Prop :=
  ∃ words, WritesSymbols body words ∧ Spaced words text

/-- The texts of some alternatives on one line. -/
inductive WritesAlternatives : List (List Symbol) → List Char → Prop where
  | last {body : List Symbol} {text : List Char} (hbody : WritesBody body text) :
    WritesAlternatives [body] text
  | more {body : List Symbol} {bodies : List (List Symbol)} {text rest : List Char}
    (hbody : WritesBody body text) (hrest : WritesAlternatives bodies rest) :
    WritesAlternatives (body :: bodies) (text ++ '|' :: rest)

/-- The lines that go on with the alternatives of a rule, blank lines among them. -/
inductive WritesContinuation : List (List Symbol) → List (List Char) → Prop where
  | nil : WritesContinuation [] []
  | blank {bodies : List (List Symbol)} {gap : List Char} {lines : List (List Char)}
    (hgap : IsGap gap) (hrest : WritesContinuation bodies lines) :
    WritesContinuation bodies (gap :: lines)
  | bar {bodies more : List (List Symbol)} {gap text : List Char} {lines : List (List Char)}
    (hgap : IsGap gap) (htext : WritesAlternatives bodies text)
    (hrest : WritesContinuation more lines) :
    WritesContinuation (bodies ++ more) ((gap ++ '|' :: text) :: lines)

/-- The lines of a list of rules, blank lines among them. -/
inductive WritesRules : List WrittenRule → List (List Char) → Prop where
  | nil : WritesRules [] []
  | blank {rules : List WrittenRule} {gap : List Char} {lines : List (List Char)}
    (hgap : IsGap gap) (hrest : WritesRules rules lines) : WritesRules rules (gap :: lines)
  | rule {head : String} {bodies more : List (List Symbol)} {rules : List WrittenRule}
    {gap word between text : List Char} {continued lines : List (List Char)}
    (hgap : IsGap gap) (hhead : SpelledHead head word) (hbetween : IsGap between)
    (htext : WritesAlternatives bodies text) (hmore : WritesContinuation more continued)
    (hrest : WritesRules rules lines) :
    WritesRules (⟨head, bodies ++ more⟩ :: rules)
      ((gap ++ (word ++ (between ++ '-' :: '>' :: text))) :: (continued ++ lines))

/-- The texts of a list of rules. -/
def Writes (rules : List WrittenRule) (text : String) : Prop :=
  ∃ lines, WritesRules rules lines ∧ text.toList = List.intercalate ['\n'] lines

/-! ### Words -/

/-- A word that blanks and bars around it leave in one piece. -/
structure IsWord (word : List Char) : Prop where
  ne_nil : word ≠ []
  unbroken : IsUnbroken word

theorem IsWord.not_blank {word : List Char} (h : IsWord word) :
    ∀ c ∈ word, Text.isBlank c = false := fun c hc => (h.unbroken c hc).1

theorem isWord_of_mem_epsilonSpellings :
    ∀ name ∈ epsilonSpellings, name.toList ≠ [] ∧ name.toList.head? ≠ some '"' ∧
      IsUnbroken name.toList := by
  decide

theorem isEpsilonName_iff {name : String} :
    isEpsilonName name = true ↔ name ∈ epsilonSpellings :=
  List.contains_iff_mem

theorem isWord_of_isEpsilonName {word : List Char}
    (h : isEpsilonName (String.ofList word) = true) : IsWord word := by
  have hword := isWord_of_mem_epsilonSpellings _ (isEpsilonName_iff.1 h)
  rw [String.toList_ofList] at hword
  exact ⟨hword.1, hword.2.2⟩

section

variable {name : String} {s : Symbol} {head : String} {word : List Char}

/-- What is in quotes spells no empty word, whatever the name is. -/
theorem isEpsilonName_quoted (rest : List Char) :
    isEpsilonName (String.ofList ('"' :: rest)) = false := by
  refine Bool.eq_false_iff.2 fun h => ?_
  have hword := isWord_of_mem_epsilonSpellings _ (isEpsilonName_iff.1 h)
  rw [String.toList_ofList] at hword
  exact hword.2.1 rfl

theorem isWord_quote {opening : List Char} (hname : IsUnbroken name.toList) (hne : opening ≠ [])
    (hopening : IsUnbroken opening) : IsWord (quote opening name) := by
  refine ⟨List.append_ne_nil_of_left_ne_nil hne _, fun c hc => ?_⟩
  rw [quote, List.mem_append, List.mem_append, List.mem_singleton] at hc
  rcases hc with hc | hc | rfl
  · exact hopening c hc
  · exact hname c hc
  · decide

theorem Symbol.Spelled.isWord (h : s.Spelled word) : IsWord word := by
  cases h with
  | quotedNonterminal hname => exact isWord_quote hname (by decide) (by decide)
  | quotedTerminal hname => exact isWord_quote hname (by decide) (by decide)
  | bare hname hne => exact ⟨mt String.toList_eq_nil_iff.1 hne, hname⟩

theorem Symbol.Spelled.isEpsilonName_eq (h : s.Spelled word) :
    isEpsilonName (String.ofList word) = false := by
  cases h with
  | quotedNonterminal => exact isEpsilonName_quoted _
  | quotedTerminal => exact isEpsilonName_quoted _
  | bare _ _ hepsilon => rwa [String.ofList_toList]

theorem unquote_eq_ok (whole : List Char) (name : String) :
    unquote whole (name.toList ++ ['"']) = .ok name.toList := by
  rw [unquote, List.isSuffixOf?_eq_some_iff_append_eq.2 rfl]

theorem isPrefixOf?_quote (opening : List Char) (name : String) :
    opening.isPrefixOf? (quote opening name) = some (name.toList ++ ['"']) :=
  List.isPrefixOf?_eq_some_iff_append_eq.2 rfl

theorem isPrefixOf?_eq_none {opening word : List Char} (h : ¬opening <+: word) :
    opening.isPrefixOf? word = none := by
  refine Option.eq_none_iff_forall_ne_some.2 fun rest hrest => h ?_
  exact ⟨rest, List.isPrefixOf?_eq_some_iff_append_eq.1 hrest⟩

/-- **A symbol is read back** from each of its words. -/
theorem Symbol.Spelled.readSymbol_eq (h : s.Spelled word) : readSymbol word = .ok s := by
  cases h with
  | @quotedNonterminal name _ =>
    rw [readSymbol, isPrefixOf?_quote]
    simp only [unquote_eq_ok, bind, Except.bind, String.ofList_toList]
    rfl
  | @quotedTerminal name _ =>
    have hkind : nonterminalQuote.isPrefixOf? (quote terminalQuote name) = none := rfl
    rw [readSymbol, hkind, isPrefixOf?_quote]
    simp only [unquote_eq_ok, bind, Except.bind, String.ofList_toList]
    rfl
  | bare _ _ _ hnonterminal hterminal hkind =>
    rw [readSymbol, isPrefixOf?_eq_none hnonterminal, isPrefixOf?_eq_none hterminal]
    simp only [← hkind, String.ofList_toList]
    cases s <;> rfl

/-! ### Heads -/

/-- The word for a head stands before the arrow of its line: it holds none, and it is not blank. -/
theorem SpelledHead.splitArrow_eq (h : SpelledHead head word) : Text.splitArrow word = none := by
  cases h with
  | quoted hname =>
    have hinner : Text.splitArrow (head.toList ++ ['"']) = none := by
      rw [Text.splitArrow_append (Text.splitArrow_eq_none hname.no_arrow) (by decide)]
      rfl
    show Text.splitArrow ('"' :: 'V' :: 'A' :: 'R' :: ':' :: (head.toList ++ ['"'])) = none
    simp [Text.splitArrow, hinner]
  | bare hname => exact Text.splitArrow_eq_none hname.no_arrow

theorem SpelledHead.not_blank (h : SpelledHead head word) :
    ∀ c ∈ word, Text.isBlank c = false := by
  have hopening : IsUnbroken nonterminalQuote := by decide
  intro c hc
  cases h with
  | quoted hname =>
    rw [quote, List.mem_append, List.mem_append, List.mem_singleton] at hc
    rcases hc with hc | hc | rfl
    · exact (hopening c hc).1
    · exact hname.not_blank c hc
    · decide
  | bare hname => exact hname.not_blank c hc

/-- The first character of a head does not make its line one that goes on with another rule. -/
theorem SpelledHead.exists_cons (h : SpelledHead head word) :
    ∃ c rest, word = c :: rest ∧ c ≠ '|' := by
  cases h with
  | quoted => exact ⟨'"', _, rfl, by decide⟩
  | bare hname hbar =>
    have hne : head.toList ≠ [] := mt String.toList_eq_nil_iff.1 hname.ne_empty
    obtain ⟨c, rest, hword⟩ := List.exists_cons_of_ne_nil hne
    refine ⟨c, rest, hword, ?_⟩
    rintro rfl
    exact hbar ⟨rest, hword.symm⟩

theorem SpelledHead.isHeadName (h : SpelledHead head word) : IsHeadName head := by
  cases h with
  | quoted hname => exact hname
  | bare hname => exact hname

/-- **A head is read back** from each of its words. -/
theorem SpelledHead.readHead_eq (h : SpelledHead head word) {gap : List Char} (hgap : IsGap gap)
    (line : List Char) : readHead line (word ++ gap) = .ok head.toList := by
  have htrim := Text.trim_word_append h.not_blank fun c hc => (hgap c hc).1
  have hname := h.isHeadName
  have haccepted : (head.toList.isEmpty || head.toList.any Text.isBlank) = false := by
    simpa [hname.ne_empty] using hname.not_blank
  cases h with
  | quoted =>
    simp only [readHead, htrim, isPrefixOf?_quote, unquote_eq_ok, bind, Except.bind, haccepted]
    rfl
  | bare _ _ hquote =>
    simp only [readHead, htrim, isPrefixOf?_eq_none hquote, bind, Except.bind, haccepted]
    rfl

end

/-! ### Bodies -/

section

variable {symbols body : List Symbol} {bodies more : List (List Symbol)} {words : List (List Char)}
  {text gap : List Char} {lines : List (List Char)} {head : String} {rules : List WrittenRule}

theorem WritesSymbols.isWord (h : WritesSymbols symbols words) : ∀ word ∈ words, IsWord word := by
  induction h with
  | nil => exact fun _ hword => nomatch hword
  | epsilon hword _ ih => exact List.forall_mem_cons.2 ⟨isWord_of_isEpsilonName hword, ih⟩
  | symbol hword _ ih => exact List.forall_mem_cons.2 ⟨hword.isWord, ih⟩

/-- Words that are spaced out are cut again. -/
theorem Spaced.words_eq (h : Spaced words text) (hwords : ∀ word ∈ words, IsWord word) :
    Text.words text = words := by
  induction h with
  | nil hgap => exact Text.words_of_forall_blank fun c hc => (hgap c hc).1
  | @cons gap word text words hgap hnext hrest ih =>
    obtain ⟨hword, hwords⟩ := List.forall_mem_cons.1 hwords
    have hblank : ∀ c ∈ text.head?, Text.isBlank c = true := by
      intro c hc
      cases hrest with
      | nil hlast => exact (hlast c (List.mem_of_mem_head? hc)).1
      | cons =>
        obtain ⟨d, hd, hblank⟩ := hnext (List.cons_ne_nil _ _)
        rwa [← Option.mem_unique hd hc]
    rw [Text.words_blank_append fun c hc => (hgap c hc).1,
      Text.words_append hword.ne_nil hword.not_blank hblank, ih hwords]

/-- Nothing in a spaced text ends a line or an alternative. -/
theorem Spaced.not_mem (h : Spaced words text) (hwords : ∀ word ∈ words, IsWord word) :
    ∀ c ∈ text, c ≠ '\n' ∧ c ≠ '|' := by
  have hgap : ∀ gap, IsGap gap → ∀ c ∈ gap, c ≠ '\n' ∧ c ≠ '|' := by
    rintro gap hgap c hc
    refine ⟨(hgap c hc).2, ?_⟩
    rintro rfl
    exact absurd (hgap '|' hc).1 (by decide)
  have hword : ∀ word, IsWord word → ∀ c ∈ word, c ≠ '\n' ∧ c ≠ '|' := by
    rintro word hword c hc
    refine ⟨?_, (hword.unbroken c hc).2⟩
    rintro rfl
    exact absurd (hword.unbroken '\n' hc).1 (by decide)
  induction h with
  | nil hlast => exact hgap _ hlast
  | cons hfirst _ _ ih =>
    obtain ⟨hhead, hrest⟩ := List.forall_mem_cons.1 hwords
    intro c hc
    rw [List.mem_append, List.mem_append] at hc
    rcases hc with hc | hc | hc
    · exact hgap _ hfirst c hc
    · exact hword _ hhead c hc
    · exact ih hrest c hc

/-- Words may be spaced out with one space before each, and any gap after the last. -/
theorem spaced_flatMap (words : List (List Char)) (hgap : IsGap gap) :
    Spaced words (words.flatMap (' ' :: ·) ++ gap) := by
  induction words with
  | nil => exact .nil hgap
  | cons word words ih =>
    have hspace : IsGap [' '] := by decide
    have hnext : words ≠ [] →
        ∃ c ∈ (words.flatMap (' ' :: ·) ++ gap).head?, Text.isBlank c = true := by
      intro hne
      obtain ⟨next, more, rfl⟩ := List.exists_cons_of_ne_nil hne
      exact ⟨' ', rfl, by decide⟩
    have hspaced : Spaced (word :: words)
        ([' '] ++ (word ++ (words.flatMap (' ' :: ·) ++ gap))) := .cons hspace hnext ih
    simpa using hspaced

theorem WritesBody.not_mem (h : WritesBody body text) : ∀ c ∈ text, c ≠ '\n' ∧ c ≠ '|' := by
  obtain ⟨words, hwords, hspaced⟩ := h
  exact hspaced.not_mem hwords.isWord

/-- The symbols are what is left of the words without the spellings of the empty word. -/
theorem WritesSymbols.mapM_readSymbol (h : WritesSymbols symbols words) :
    (words.filter fun word => !isEpsilonName (String.ofList word)).mapM readSymbol =
      .ok symbols := by
  induction h with
  | nil => rfl
  | epsilon hword _ ih => rwa [List.filter_cons_of_neg (by simp [hword])]
  | symbol hword _ ih =>
    rw [List.filter_cons_of_pos (by simp [hword.isEpsilonName_eq]), List.mapM_cons,
      hword.readSymbol_eq, ih]
    rfl

/-- **A body is read back,** and so it is without the blanks at its end. -/
theorem WritesBody.readBody_eq (h : WritesBody body text) :
    readBody text = .ok body ∧ readBody (text.rdropWhile Text.isBlank) = .ok body := by
  obtain ⟨words, hwords, hspaced⟩ := h
  have hread : readBody text = .ok body := by
    rw [readBody, hspaced.words_eq hwords.isWord]
    exact hwords.mapM_readSymbol
  refine ⟨hread, ?_⟩
  rw [readBody, Text.words_rdropWhile]
  exact hread

/-- **Alternatives are read back.** The end of the line may have been trimmed. -/
theorem WritesAlternatives.readAlternatives_eq (h : WritesAlternatives bodies text)
    (head : String) :
    readAlternatives head (text.rdropWhile Text.isBlank) =
      .ok (bodies.map (Production.mk head)) := by
  have hfields : ∀ text : List Char, (∀ c ∈ text, c ≠ '\n' ∧ c ≠ '|') →
      Text.fields (· == '|') text = [text] := fun text htext =>
    Text.fields_of_forall_not_sep fun c hc => beq_eq_false_iff_ne.2 (htext c hc).2
  induction h with
  | @last body text hbody =>
    have hfront := (List.rdropWhile_prefix Text.isBlank text).subset
    rw [readAlternatives, hfields _ fun c hc => hbody.not_mem c (hfront hc), List.mapM_cons,
      hbody.readBody_eq.2]
    rfl
  | @more body bodies text rest hbody _ ih =>
    have hcut : Text.fields (· == '|') (text ++ '|' :: rest.rdropWhile Text.isBlank) =
        Text.fields (· == '|') text ++ Text.fields (· == '|') (rest.rdropWhile Text.isBlank) :=
      Text.fields_append_cons rfl
    rw [readAlternatives] at ih
    rw [Text.rdropWhile_append_cons (by decide), readAlternatives, hcut,
      hfields _ hbody.not_mem, List.singleton_append, List.mapM_cons, hbody.readBody_eq.1, ih]
    rfl

/-! ### Lines -/

/-- The lines that are not blank, trimmed. -/
def contentOf (lines : List (List Char)) : List (List Char) :=
  (lines.map Text.trim).filter fun line => !line.isEmpty

theorem contentOf_append (front back : List (List Char)) :
    contentOf (front ++ back) = contentOf front ++ contentOf back := by
  rw [contentOf, List.map_append, List.filter_append, contentOf, contentOf]

theorem contentOf_gap_cons (hgap : IsGap gap) : contentOf (gap :: lines) = contentOf lines := by
  rw [contentOf, List.map_cons, Text.trim_of_forall_blank fun c hc => (hgap c hc).1]
  rfl

/-- A line that is not blank begins at its first character that is not. -/
theorem contentOf_cons {c : Char} (hgap : IsGap gap) (hc : Text.isBlank c = false) :
    contentOf ((gap ++ c :: text) :: lines) =
      (c :: text.rdropWhile Text.isBlank) :: contentOf lines := by
  rw [contentOf, List.map_cons, Text.trim_append_cons (fun d hd => (hgap d hd).1) hc]
  rfl

/-- **A line that goes on with a rule is read back.** -/
theorem WritesAlternatives.readLine_bar (h : WritesAlternatives bodies text) (head : String) :
    readLine (some head) ('|' :: text.rdropWhile Text.isBlank) =
      .ok (head, bodies.map (Production.mk head)) := by
  simp only [readLine, splitLine, h.readAlternatives_eq head, bind, Except.bind]
  rfl

/-- **The first line of a rule is cut at its arrow,** which is the first one: a head that ends in a
dash makes no arrow with what comes next. -/
theorem SpelledHead.splitArrow_line_eq {word between : List Char} (h : SpelledHead head word)
    (hbetween : IsGap between) (text : List Char) :
    Text.splitArrow (word ++ (between ++ '-' :: '>' :: text)) = some (word ++ between, text) := by
  have hmark : ∀ c ∈ between, c ≠ '>' := by
    rintro c hc rfl
    exact absurd (hbetween '>' hc).1 (by decide)
  have hgap : Text.splitArrow between = none :=
    Text.splitArrow_eq_none fun harrow => hmark '>' (harrow.subset (by simp)) rfl
  have hafter : Text.splitArrow (between ++ '-' :: '>' :: text) = some (between, text) := by
    rw [Text.splitArrow_append hgap (by simp)]
    simp [Text.splitArrow]
  have hnext : (between ++ '-' :: '>' :: text).head? ≠ some '>' := by
    cases between with
    | nil => simp
    | cons c rest => simpa using hmark c List.mem_cons_self
  rw [Text.splitArrow_append h.splitArrow_eq hnext, hafter]
  rfl

/-- **The first line of a rule is read back.** -/
theorem SpelledHead.readLine_eq {word between : List Char} (h : SpelledHead head word)
    (hbetween : IsGap between) (htext : WritesAlternatives bodies text) (current : Option String) :
    readLine current (word ++ (between ++ '-' :: '>' :: text.rdropWhile Text.isBlank)) =
      .ok (head, bodies.map (Production.mk head)) := by
  have harrow := h.splitArrow_line_eq hbetween (text.rdropWhile Text.isBlank)
  have hread := h.readHead_eq hbetween
  have hsplit : splitLine current
      (word ++ (between ++ '-' :: '>' :: text.rdropWhile Text.isBlank)) =
      .ok (head, text.rdropWhile Text.isBlank) := by
    obtain ⟨c, rest, rfl, hc⟩ := h.exists_cons
    rw [List.cons_append] at harrow ⊢
    rw [splitLine]
    · simp only [harrow, hread, bind, Except.bind, String.ofList_toList]
      rfl
    · rintro _ heq
      exact hc (List.cons.inj heq).1
  simp only [readLine, hsplit, htext.readAlternatives_eq head, bind, Except.bind]
  rfl

/-- A line is read before the lines after it. -/
theorem readLines_cons_eq {current : Option String} {line : List Char}
    {first rest : List Production} (hline : readLine current line = .ok (head, first))
    (hrest : readLines (some head) lines = .ok rest) :
    readLines current (line :: lines) = .ok (first ++ rest) := by
  simp only [readLines, hline, hrest, bind, Except.bind]
  rfl

/-- **The lines that go on with a rule are read back,** and so are the lines after them. -/
theorem WritesContinuation.readLines_eq {rest : List (List Char)} {last : List Production}
    (h : WritesContinuation bodies lines) (hrest : readLines (some head) rest = .ok last) :
    readLines (some head) (contentOf lines ++ rest) =
      .ok (bodies.map (Production.mk head) ++ last) := by
  induction h with
  | nil => exact hrest
  | blank hgap _ ih => rwa [contentOf_gap_cons hgap]
  | bar hgap htext _ ih =>
    rw [contentOf_cons hgap (by decide), List.cons_append, List.map_append, List.append_assoc]
    exact readLines_cons_eq (htext.readLine_bar head) ih

/-- **The lines of rules are read back,** whatever the line before them was. -/
theorem WritesRules.readLines_eq (h : WritesRules rules lines) (current : Option String) :
    readLines current (contentOf lines) = .ok (rules.flatMap WrittenRule.productions) := by
  induction h generalizing current with
  | nil => rfl
  | blank hgap _ ih =>
    rw [contentOf_gap_cons hgap]
    exact ih current
  | @rule head bodies more rules gap word between text continued lines hgap hhead hbetween htext
      hmore _ ih =>
    obtain ⟨c, rest, rfl, -⟩ := hhead.exists_cons
    have hc : Text.isBlank c = false := hhead.not_blank c List.mem_cons_self
    -- Only the blanks at the end of the line are lost, and they stand after the arrow.
    have htrim : (rest ++ (between ++ '-' :: '>' :: text)).rdropWhile Text.isBlank =
        rest ++ (between ++ '-' :: '>' :: text.rdropWhile Text.isBlank) := by
      have hmark := Text.rdropWhile_append_cons (s := rest ++ (between ++ ['-'])) (t := text)
        (p := Text.isBlank) (c := '>') (by decide)
      simpa using hmark
    rw [List.cons_append, contentOf_cons hgap hc, htrim, contentOf_append, List.flatMap_cons,
      WrittenRule.productions, List.map_append, List.append_assoc]
    exact readLines_cons_eq (hhead.readLine_eq hbetween htext current)
      (hmore.readLines_eq (ih (some head)))

/-! ### Texts -/

theorem IsGap.not_newline (h : IsGap gap) : '\n' ∉ gap := fun hmem => (h '\n' hmem).2 rfl

theorem SpelledHead.not_newline {word : List Char} (h : SpelledHead head word) : '\n' ∉ word :=
  fun hmem => absurd (h.not_blank '\n' hmem) (by decide)

theorem WritesAlternatives.not_newline (h : WritesAlternatives bodies text) : '\n' ∉ text := by
  induction h with
  | last hbody => exact fun hmem => (hbody.not_mem '\n' hmem).1 rfl
  | @more _ _ text rest hbody _ ih =>
    have htext : '\n' ∉ text := fun hmem => (hbody.not_mem '\n' hmem).1 rfl
    simp [htext, ih]

theorem WritesContinuation.not_newline (h : WritesContinuation bodies lines) :
    ∀ line ∈ lines, '\n' ∉ line := by
  induction h with
  | nil => exact fun _ hline => nomatch hline
  | blank hgap _ ih => exact List.forall_mem_cons.2 ⟨hgap.not_newline, ih⟩
  | bar hgap htext _ ih =>
    refine List.forall_mem_cons.2 ⟨?_, ih⟩
    simp [hgap.not_newline, htext.not_newline]

theorem WritesRules.not_newline (h : WritesRules rules lines) : ∀ line ∈ lines, '\n' ∉ line := by
  induction h with
  | nil => exact fun _ hline => nomatch hline
  | blank hgap _ ih => exact List.forall_mem_cons.2 ⟨hgap.not_newline, ih⟩
  | rule hgap hhead hbetween htext hmore _ ih =>
    refine List.forall_mem_cons.2 ⟨?_, List.forall_mem_append.2 ⟨hmore.not_newline, ih⟩⟩
    simp [hgap.not_newline, hhead.not_newline, hbetween.not_newline, htext.not_newline]

/-- **A text of rules is read back.** -/
theorem Writes.readRules_eq {text : String} (h : Writes rules text) :
    readRules text = .ok (rules.flatMap WrittenRule.productions) := by
  obtain ⟨lines, hlines, htext⟩ := h
  -- The text of no lines has one line all the same, and it is blank.
  have hcut : linesOf text.toList = contentOf lines := by
    rw [linesOf, htext]
    by_cases hne : lines = []
    · subst hne
      rfl
    · rw [Text.fields_intercalate hne hlines.not_newline]
      rfl
  rw [readRules, hcut]
  exact hlines.readLines_eq none

/-- **The grammar of a text is that of its rules,** in whichever way they are written and whatever
the start symbol is. Where the rules make no grammar the failures are the same, too. -/
theorem ofText_of_writes {text : String} (h : Writes rules text) (start : String) :
    Grammar.ofText text start =
      Grammar.ofProductions start (rules.flatMap WrittenRule.productions) := by
  rw [Grammar.ofText, h.readRules_eq]
  rfl

end

/-- A head that ends in a dash, a terminal that is an arrow, a nonterminal that looks like the empty
word, a terminal with a capital, and alternatives that go on behind a blank line. -/
theorem ofText_of_writes_arrow :
    Writes [⟨"a-", [[.terminal "->", .nonterminal "$"], [], [.terminal "Big"]]⟩,
        ⟨"$", [[.nonterminal "a-"]]⟩]
      "a--> -> \"VAR:$\" ε |$\r\n \n\t| \"TER:Big\"\n\"VAR:$\" -> \"VAR:a-\"" ∧
    Grammar.ofText "a--> -> \"VAR:$\" ε |$\r\n \n\t| \"TER:Big\"\n\"VAR:$\" -> \"VAR:a-\"" "a-" =
      Grammar.ofProductions "a-" [⟨"a-", [.terminal "->", .nonterminal "$"]⟩, ⟨"a-", []⟩,
        ⟨"a-", [.terminal "Big"]⟩, ⟨"$", [.nonterminal "a-"]⟩] := by
  have hnil : IsGap [] := by decide
  have hspace : IsGap [' '] := by decide
  have harrow : (Symbol.terminal "->").Spelled "->".toList :=
    .bare (by decide) (by decide) (by decide) (by decide) (by decide) (by decide)
  have hdollar : (Symbol.nonterminal "$").Spelled "\"VAR:$\"".toList :=
    .quotedNonterminal (by decide)
  have hbig : (Symbol.terminal "Big").Spelled "\"TER:Big\"".toList := .quotedTerminal (by decide)
  have hdash : (Symbol.nonterminal "a-").Spelled "\"VAR:a-\"".toList :=
    .quotedNonterminal (by decide)
  have hfirst : WritesBody [.terminal "->", .nonterminal "$"] " -> \"VAR:$\" ε ".toList :=
    ⟨_, .symbol harrow (.symbol hdollar (.epsilon (by decide) .nil)),
      spaced_flatMap ["->".toList, "\"VAR:$\"".toList, "ε".toList] hspace⟩
  have hsecond : WritesBody [] "$\r".toList :=
    ⟨["$".toList], .epsilon (by decide) .nil,
      .cons hnil (absurd rfl) (.nil (show IsGap ['\r'] by decide))⟩
  have hthird : WritesBody [.terminal "Big"] " \"TER:Big\"".toList :=
    ⟨_, .symbol hbig .nil, spaced_flatMap ["\"TER:Big\"".toList] hnil⟩
  have hlast : WritesBody [.nonterminal "a-"] " \"VAR:a-\"".toList :=
    ⟨_, .symbol hdash .nil, spaced_flatMap ["\"VAR:a-\"".toList] hnil⟩
  have hrules : WritesRules [⟨"a-", [[.terminal "->", .nonterminal "$"], [], [.terminal "Big"]]⟩,
      ⟨"$", [[.nonterminal "a-"]]⟩]
      ["a--> -> \"VAR:$\" ε |$\r".toList, " ".toList, "\t| \"TER:Big\"".toList,
        "\"VAR:$\" -> \"VAR:a-\"".toList] :=
    .rule hnil (.bare (by decide) (by decide) (by decide)) hnil (.more hfirst (.last hsecond))
      (.blank hspace (.bar (show IsGap ['\t'] by decide) (.last hthird) .nil))
      (.rule hnil (.quoted (by decide)) hspace (.last hlast) .nil .nil)
  have hwrites : Writes _
      "a--> -> \"VAR:$\" ε |$\r\n \n\t| \"TER:Big\"\n\"VAR:$\" -> \"VAR:a-\"" :=
    ⟨_, hrules, by decide⟩
  exact ⟨hwrites, ofText_of_writes hwrites "a-"⟩

end ChomskyChart
