import ChomskyChart.Proofs.Kept.Unchecked

/-!
# Grammars with a history

A grammar is put together or declared, it is asked questions, and its parts are edited in between.
What it keeps then comes from various moments of its history. Membership depends on one thing that
is kept, the positions of the terminals, and on that only in normal form: any other grammar is
brought to normal form anew each time.

Questions do not edit, and they keep positions only where none were kept, so an answer is out of
date only if the terminals were edited after their positions were first kept. As long as that does
not happen, membership does not depend on the history.

## Main definitions

* `KeptGrammar.Asked`: what a question leaves behind
* `KeptGrammar.Reached`: the grammars that arise by declarations, questions and certain edits
* `KeptGrammar.KeepsTerminals`: edits that leave kept positions right

## Main results

* `Asked.retains`: questions keep the grammar and the positions of its terminals
* `Reached.terminalsCurrent`: kept positions stay right
* `accepts_eq_fresh`: membership as for a grammar without a history
* `not_accepts_eq_fresh`: not so after edits of the terminals
-/

namespace ChomskyChart

namespace KeptGrammar

variable {k k' k'' : KeptGrammar}

/-! ### What questions leave behind -/

/-- The grammar is the same. If positions of terminals were kept, then so are these, and if none
were, then none are or those of the grammar. -/
def Retains (k k' : KeptGrammar) : Prop :=
  k'.grammar = k.grammar ∧ (k'.terminalIndex = k.terminalIndex ∨
    k.terminalIndex = none ∧ k'.terminalIndex = some (.ofNames k.grammar.terminals))

theorem Retains.refl (k : KeptGrammar) : k.Retains k :=
  ⟨rfl, .inl rfl⟩

theorem Retains.trans (h : k.Retains k') (h' : k'.Retains k'') : k.Retains k'' := by
  obtain ⟨hgrammar, hindex⟩ := h
  obtain ⟨hgrammar', hindex'⟩ := h'
  refine ⟨hgrammar'.trans hgrammar, ?_⟩
  rw [hgrammar] at hindex'
  rcases hindex' with hsame' | ⟨hnone', hsome'⟩
  · rwa [hsame']
  · rcases hindex with hsame | ⟨-, hsome⟩
    · exact .inr ⟨hsame ▸ hnone', hsome'⟩
    · exact nomatch hsome.symm.trans hnone'

end KeptGrammar

namespace Query

open KeptGrammar

variable {α β : Type}

/-- The question leaves the grammar and the positions of its terminals alone. -/
def Retaining (query : Query α) : Prop :=
  ∀ k : KeptGrammar, k.Retains (query k).2

theorem retaining_pure (a : α) : (pure a : Query α).Retaining :=
  Retains.refl

theorem retaining_ofGrammar (answer : Grammar → Except Failure α) : (ofGrammar answer).Retaining :=
  Retains.refl

theorem Retaining.bind {query : Query α} {next : α → Query β} (hquery : query.Retaining)
    (hnext : ∀ a, (next a).Retaining) : (query >>= next).Retaining := by
  intro k
  have hfirst := hquery k
  rw [bind_apply]
  split
  · rename_i heq
    rw [heq] at hfirst
    exact hfirst.trans (hnext _ _)
  · rename_i heq
    rwa [heq] at hfirst

theorem Retaining.mapOutcome {query : Query α} (hquery : query.Retaining)
    (read : Except Failure α → Except Failure β) : (query.mapOutcome read).Retaining :=
  hquery

theorem Retaining.mapM {f : α → Query β} (hf : ∀ a, (f a).Retaining) (xs : List α) :
    (xs.mapM f).Retaining := by
  have hloop : ∀ (xs : List α) (done : List β), (List.mapM.loop f xs done).Retaining := by
    intro xs
    induction xs with
    | nil => exact fun done => retaining_pure done.reverse
    | cons x rest ih => exact fun done => (hf x).bind fun b => ih (b :: done)
  exact hloop xs []

theorem retaining_terminalPositions : terminalPositions.Retaining := by
  intro k
  cases hindex : k.terminalIndex with
  | none =>
    rw [terminalPositions_of_unknown hindex]
    exact ⟨rfl, .inr ⟨hindex, rfl⟩⟩
  | some index =>
    rw [terminalPositions_of_known hindex]
    exact Retains.refl k

/-- A question that keeps something else leaves the terminals alone. -/
theorem retaining_remember {known : KeptGrammar → Option α}
    {store : KeptGrammar → α → KeptGrammar} {answer : Grammar → Except Failure α}
    (hstore : ∀ k a,
      (store k a).grammar = k.grammar ∧ (store k a).terminalIndex = k.terminalIndex) :
    (remember known store answer).Retaining := by
  intro k
  rw [remember]
  split
  · exact Retains.refl k
  · split
    · exact ⟨(hstore k _).1, .inl (hstore k _).2⟩
    · exact Retains.refl k

theorem retaining_nonterminalPositions : nonterminalPositions.Retaining :=
  retaining_remember fun _ _ => ⟨rfl, rfl⟩

theorem retaining_isNormalForm : isNormalForm.Retaining :=
  retaining_remember fun _ _ => ⟨rfl, rfl⟩

theorem retaining_productionsOf (name : String) : (productionsOf name).Retaining := by
  refine retaining_nonterminalPositions.bind fun index => ?_
  split
  · exact retaining_pure []
  · exact retaining_ofGrammar _

theorem retaining_onChart (tokens : List String) (read : Grammar → Chart → Except Failure α) :
    (onChart tokens read).Retaining :=
  (retaining_ofGrammar _).bind fun _ =>
    retaining_terminalPositions.bind fun _ => retaining_ofGrammar _

theorem retaining_onCharts (sentences : List (List String))
    (read : List String → Grammar → Chart → Except Failure α) :
    (onCharts sentences read).Retaining :=
  (retaining_ofGrammar _).bind fun _ => Retaining.mapM (fun _ =>
    retaining_terminalPositions.bind fun _ => retaining_ofGrammar _) sentences

theorem retaining_accepts (tokens : List String) : (accepts tokens).Retaining := by
  refine (retaining_ofGrammar _).bind fun flag => ?_
  split
  · exact (retaining_onChart tokens _).mapOutcome _
  · exact retaining_ofGrammar _

end Query

namespace KeptGrammar

variable {k k' : KeptGrammar}

/-- What is left of a kept grammar by one of the questions after which more may be kept.
Recognizing, parsing and reports are all questions to charts. -/
inductive Asked (k : KeptGrammar) : KeptGrammar → Prop where
  | terminalPositions : Asked k (terminalPositions k).2
  | nonterminalPositions : Asked k (nonterminalPositions k).2
  | isNormalForm : Asked k (isNormalForm k).2
  | productionsOf (name : String) : Asked k (productionsOf name k).2
  | onChart {α : Type} (tokens : List String) (read : Grammar → Chart → Except Failure α) :
      Asked k (onChart tokens read k).2
  | onCharts {α : Type} (sentences : List (List String))
      (read : List String → Grammar → Chart → Except Failure α) :
      Asked k (onCharts sentences read k).2
  | count (tokens : List String) : Asked k (count tokens k).2
  | accepts (tokens : List String) : Asked k (accepts tokens k).2
  | acceptsAll (sentences : List (List String)) : Asked k (acceptsAll sentences k).2

/-- **Questions keep the grammar and the positions of its terminals.** -/
theorem Asked.retains (h : k.Asked k') : k.Retains k' := by
  cases h with
  | terminalPositions => exact Query.retaining_terminalPositions k
  | nonterminalPositions => exact Query.retaining_nonterminalPositions k
  | isNormalForm => exact Query.retaining_isNormalForm k
  | productionsOf name => exact Query.retaining_productionsOf name k
  | onChart tokens read => exact Query.retaining_onChart tokens read k
  | onCharts sentences read => exact Query.retaining_onCharts sentences read k
  | count tokens =>
    exact (Query.retaining_onChart tokens _).bind (fun _ => Query.retaining_pure _) k
  | accepts tokens => exact Query.retaining_accepts tokens k
  | acceptsAll sentences => exact Query.Retaining.mapM Query.retaining_accepts sentences k

/-! ### Histories -/

/-- The kept grammars that arise from parts, from results of a pass and from declarations, by
questions and by the edits that are allowed. A copy keeps what the original keeps, so it has the
same history. -/
inductive Reached (allowed : KeptGrammar → KeptGrammar → Prop) : KeptGrammar → Prop where
  | assembled (g : Grammar) : Reached allowed { grammar := g }
  | declared (g : Grammar) : Reached allowed (declared g)
  | asked {k k' : KeptGrammar} (hk : Reached allowed k) (h : k.Asked k') : Reached allowed k'
  | edited {k k' : KeptGrammar} {e : Edit} (hk : Reached allowed k) (h : k.edit e = .ok k')
      (hallowed : allowed k k') : Reached allowed k'

/-- No positions of terminals are kept, or the terminals stay. -/
def KeepsTerminals (k k' : KeptGrammar) : Prop :=
  k.terminalIndex = none ∨ k'.grammar.terminals = k.grammar.terminals

theorem terminalIndex_of_edit {e : Edit} (h : k.edit e = .ok k') :
    k'.terminalIndex = k.terminalIndex := by
  obtain ⟨g, -, heq⟩ := bind_eq_ok_iff.1 h
  rw [← Except.ok.inj heq]

theorem TerminalsCurrent.of_retains (hcurrent : k.TerminalsCurrent) (h : k.Retains k') :
    k'.TerminalsCurrent := by
  intro index hindex name
  rw [h.1]
  rcases h.2 with hsame | ⟨-, hsome⟩
  · exact hcurrent index (hsame ▸ hindex) name
  · rw [Option.some.inj (hindex.symm.trans hsome)]

theorem TerminalsCurrent.of_edit {e : Edit} (hcurrent : k.TerminalsCurrent)
    (h : k.edit e = .ok k') (hkeeps : k.KeepsTerminals k') : k'.TerminalsCurrent := by
  intro index hindex name
  rw [terminalIndex_of_edit h] at hindex
  rcases hkeeps with hnone | hsame
  · exact nomatch hnone.symm.trans hindex
  · rw [hsame]
    exact hcurrent index hindex name

/-- **Kept positions stay right** as long as the terminals are not edited after they are kept. -/
theorem Reached.terminalsCurrent (h : Reached KeepsTerminals k) : k.TerminalsCurrent := by
  induction h with
  | assembled g => exact fun _ hindex => nomatch hindex
  | declared g => exact terminalsCurrent_declared g
  | asked _ h ih => exact ih.of_retains h.retains
  | edited _ h hkeeps ih => exact ih.of_edit h hkeeps

/-! ### Membership and history -/

theorem fst_accepts_of_not_inNormalForm (hvalid : k.grammar.WellFormed)
    (hnormal : ¬k.grammar.InNormalForm) (tokens : List String) :
    (accepts tokens k).1 = falseIfRefused (k.grammar.recognizeNormalized tokens) := by
  obtain ⟨flag, hcheck, hflag⟩ := hvalid.isNormalForm_eq_ok
  obtain rfl : flag = false := Bool.eq_false_iff.2 fun htrue => hnormal (hflag.1 htrue)
  rw [fst_accepts hcheck, if_neg Bool.false_ne_true]

/-- **Membership does not depend on the history,** if the terminals were not edited after their
positions were kept, or if the grammar is not in normal form: a well-formed grammar answers, and it
answers as the grammar does that has no history. -/
theorem accepts_eq_fresh (h : Reached KeepsTerminals k ∨ ¬k.grammar.InNormalForm)
    (hvalid : k.grammar.validate = .ok ()) (tokens : List String) :
    ∃ flag, (accepts tokens k).1 = .ok flag ∧
      (accepts tokens { grammar := k.grammar }).1 = .ok flag := by
  have hnames := (Grammar.validate_eq_ok_iff.1 hvalid).namesOddRule
  obtain ⟨flag, hfresh, hlanguage⟩ := exists_accepts (k := { grammar := k.grammar }) hnames
    (fun _ hindex => nomatch hindex) tokens
  refine ⟨flag, ?_, hfresh⟩
  rcases h with hreached | hnormal
  · obtain ⟨flag', hkept, hlanguage'⟩ := exists_accepts hnames hreached.terminalsCurrent tokens
    rwa [Bool.eq_iff_iff.2 (hlanguage.trans hlanguage'.symm)]
  · have hwellFormed := Grammar.validate_eq_ok_iff.1 hvalid
    have hanew := fst_accepts_of_not_inNormalForm (k := { grammar := k.grammar }) hwellFormed
      hnormal tokens
    exact (fst_accepts_of_not_inNormalForm hwellFormed hnormal tokens).trans
      (hanew.symm.trans hfresh)

/-- Sequences of one letter after the edit of a body: `S → S S | a`, declared without the pair. -/
def grown : KeptGrammar where
  grammar := { sequences with rows := [[[.terminal 0], [.nonterminal 0, .nonterminal 0]], []] }
  terminalIndex := some (.ofNames ["a", "b"])
  nonterminalIndex := some (.ofNames ["S", "T"])

theorem accepts_eq_fresh_grown :
    Reached KeepsTerminals grown ∧ grown.grammar.validate = .ok () ∧
    ∃ flag, (accepts ["a", "a"] grown).1 = .ok flag ∧
      (accepts ["a", "a"] { grammar := grown.grammar }).1 = .ok flag := by
  have hdeclared : Reached KeepsTerminals
      (declared { sequences with rows := [[[.terminal 0]], []] }) := .declared _
  have hedit : (declared { sequences with rows := [[[.terminal 0]], []] }).edit
      (.pushBody 0 [.nonterminal 0, .nonterminal 0]) = .ok grown := by decide
  have hreached : Reached KeepsTerminals grown := hdeclared.edited hedit (.inr rfl)
  have hvalid : grown.grammar.validate = .ok () := by decide
  exact ⟨hreached, hvalid, accepts_eq_fresh (.inl hreached) hvalid ["a", "a"]⟩

/-- The grammar that is read from `S -> a`, after its terminal is renamed. -/
def renamed : KeptGrammar where
  grammar := { nonterminals := ["S"], terminals := ["b"], start := 0, rows := [[[.terminal 0]]] }
  terminalIndex := some (.ofNames ["a"])
  nonterminalIndex := some (.ofNames ["S"])

/-- **After edits of the terminals membership depends on the history:** the renamed terminal of a
grammar that was read is not known by its new name. -/
theorem not_accepts_eq_fresh :
    (∃ k, ofText "S -> a" "S" = .ok k ∧ k.edit (.renameTerminal 0 "b") = .ok renamed ∧
      renamed.grammar.validate = .ok () ∧ (accepts ["b"] renamed).1 = .ok false ∧
      (accepts ["b"] { grammar := renamed.grammar }).1 = .ok true) ∧
    ¬∀ k, Reached (fun _ _ => True) k → k.grammar.validate = .ok () → ∀ tokens, ∃ flag,
      (accepts tokens k).1 = .ok flag ∧
        (accepts tokens { grammar := k.grammar }).1 = .ok flag := by
  let read := declared { renamed.grammar with terminals := ["a"] }
  have hread : ofText "S -> a" "S" = .ok read := by decide +kernel
  have hedit : read.edit (.renameTerminal 0 "b") = .ok renamed := by decide
  have hvalid : renamed.grammar.validate = .ok () := by decide
  have hno : (accepts ["b"] renamed).1 = .ok false := by decide +kernel
  have hyes : (accepts ["b"] { grammar := renamed.grammar }).1 = .ok true := by decide +kernel
  refine ⟨⟨read, hread, hedit, hvalid, hno, hyes⟩, fun hall => ?_⟩
  have hreached : Reached (fun _ _ => True) read := .declared _
  obtain ⟨flag, hkept, hfresh⟩ := hall renamed (hreached.edited hedit trivial) hvalid ["b"]
  have hflag := Except.ok.inj (hkept.symm.trans hno)
  exact Bool.noConfusion (hflag.symm.trans (Except.ok.inj (hfresh.symm.trans hyes)))

end KeptGrammar

end ChomskyChart
