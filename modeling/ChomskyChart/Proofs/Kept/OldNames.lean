import ChomskyChart.Proofs.Kept.Unchecked

/-!
# Sentences in old names

A grammar in normal form reads a sentence with the positions that it keeps for its terminals. If
they are out of date, then a token counts as the terminal that stands now where it stood when the
positions were kept. So the answer is right for another sentence, that of the present names. If
nothing stands there any more, then there is no answer.

As long as the positions are not out of date, it makes no difference that they are kept: every
question about a sentence has then the outcome that it has for the bare grammar, whatever its parts
are.

## Main definitions

* `KeptGrammar.ReadsAs`: the sentence in present names

## Main results

* `TerminalsCurrent.fst_onChart_eq`, `TerminalsCurrent.fst_accepts_eq`: kept grammars and bare ones
* `accepts_eq_of_readsAs`: the answer is that for the sentence in present names
* `exists_readsAs`: there is such a sentence, unless a position is gone
* `accepts_eq_fault`: no answer if a position is gone
-/

namespace ChomskyChart

/-! ### Positions and charts -/

/-- A run over a list fails if it fails at one of its entries, whatever comes before. -/
theorem foldlM_eq_error {α β : Type} {f : β → α → Except Failure β} {e : Failure} {xs : List α}
    {b : β} {x : α} (hx : x ∈ xs) (hfails : ∀ b, f b x = .error e)
    (hsame : ∀ b, ∀ y ∈ xs, ∀ e', f b y = .error e' → e' = e) : xs.foldlM f b = .error e := by
  induction xs generalizing b with
  | nil => exact nomatch hx
  | cons y rest ih =>
    rw [List.foldlM_cons]
    rcases List.mem_cons.1 hx with rfl | hrest
    · rw [hfails]
      rfl
    · cases hy : f b y with
      | error e' => rw [hsame b y List.mem_cons_self e' hy]; rfl
      | ok b' => exact ih hrest fun b z hz => hsame b z (List.mem_cons_of_mem y hz)

namespace ChartRules

variable {rules : ChartRules} {terminals terminals' : NameIndex} {tokens tokens' : List String}

theorem fillToken_eq_error_iff {c : Chart} {entry : String × Nat} {e : Failure} :
    rules.fillToken terminals c entry = .error e ↔ ∃ t, terminals.find? entry.1 = some t ∧
      rules.terminalHeads.length ≤ t ∧ e = .fault .outOfRange := by
  rw [fillToken]
  cases hfind : terminals.find? entry.1 with
  | none => simp
  | some t =>
    simp only [Option.some.injEq, exists_eq_left', ← lookUp_eq_error_iff]
    cases lookUp rules.terminalHeads t <;> simp [bind, Except.bind, pure, Except.pure]

/-- A chart needs a list of heads for every token that is found. -/
theorem chart_eq_fault {token : String} (hmem : token ∈ tokens) {t : Nat}
    (hfind : terminals.find? token = some t) (hge : rules.terminalHeads.length ≤ t) :
    rules.chart terminals tokens = .error (.fault .outOfRange) := by
  obtain ⟨i, hi⟩ := List.getElem?_of_mem hmem
  have hentry : (token, i) ∈ tokens.zipIdx := List.mem_zipIdx_iff_getElem?.2 hi
  have htokens := foldlM_eq_error (b := Chart.empty tokens.length rules.width) hentry
    (fun c => fillToken_eq_error_iff (c := c).2 ⟨t, hfind, hge, rfl⟩) fun c other _ e he => by
      obtain ⟨_, -, -, heq⟩ := fillToken_eq_error_iff.1 he
      exact heq
  rw [chart, htokens]
  rfl

/-- The chart of a sentence depends on the positions of its tokens only. -/
theorem chart_congr
    (h : List.Forall₂ (fun token token' => terminals.find? token = terminals'.find? token')
      tokens tokens') : rules.chart terminals tokens = rules.chart terminals' tokens' := by
  have hfill : ∀ (first : Nat) (c : Chart),
      (tokens.zipIdx first).foldlM (rules.fillToken terminals) c =
        (tokens'.zipIdx first).foldlM (rules.fillToken terminals') c := by
    induction h with
    | nil => exact fun _ _ => rfl
    | @cons token token' rest rest' hfind _ ih =>
      intro first c
      have hhead : rules.fillToken terminals c (token, first) =
          rules.fillToken terminals' c (token', first) := by
        rw [fillToken, fillToken, hfind]
      rw [List.zipIdx_cons, List.zipIdx_cons, List.foldlM_cons, List.foldlM_cons, hhead]
      simp only [ih]
  rw [chart, chart, hfill, h.length_eq]

end ChartRules

namespace KeptGrammar

variable {k : KeptGrammar} {tokens tokens' : List String}

/-! ### Bare grammars -/

/-- **A chart does not depend on what is kept** as long as that is up to date. -/
theorem TerminalsCurrent.fst_onChart_eq (h : k.TerminalsCurrent) {α : Type} (tokens : List String)
    (read : Grammar → Chart → Except Failure α) :
    (onChart tokens read k).1 = k.grammar.chart tokens >>= read k.grammar := by
  rw [Grammar.chart]
  cases hrules : k.grammar.chartRules with
  | error e => exact fst_onChart_of_chartRules hrules tokens read
  | ok rules =>
    have hchart : rules.chart k.usedIndex tokens =
        rules.chart (.ofNames k.grammar.terminals) tokens :=
      ChartRules.chart_congr (List.forall₂_same.2 fun token _ => h.find?_usedIndex token)
    rw [fst_onChart hrules, hchart]
    rfl

theorem TerminalsCurrent.fst_recognize_eq (h : k.TerminalsCurrent) (tokens : List String) :
    (recognize tokens k).1 = k.grammar.recognize tokens :=
  h.fst_onChart_eq tokens Grammar.acceptsChart

theorem TerminalsCurrent.fst_parse_eq (h : k.TerminalsCurrent) (tokens : List String) :
    (parse tokens k).1 = k.grammar.parse tokens :=
  h.fst_onChart_eq tokens fun g => g.forest? tokens

/-- **Membership is that of the bare grammar,** also where that is a refusal or a fault. -/
theorem TerminalsCurrent.fst_accepts_eq (h : k.TerminalsCurrent) (tokens : List String) :
    (accepts tokens k).1 = k.grammar.accepts tokens := by
  rw [Grammar.accepts]
  cases hcheck : k.grammar.isNormalForm with
  | error e => rw [accepts, Query.bind_apply, Query.ofGrammar_apply, hcheck]; rfl
  | ok normal =>
    rw [fst_accepts hcheck, h.fst_recognize_eq]
    cases normal <;> rfl

/-! ### Present names -/

/-- The tokens of the second sentence stand among the terminals where those of the first stood when
their positions were kept. -/
def ReadsAs (k : KeptGrammar) (tokens tokens' : List String) : Prop :=
  List.Forall₂ (fun token token' =>
    k.usedIndex.find? token = (NameIndex.ofNames k.grammar.terminals).find? token') tokens tokens'

/-- **Every sentence has present names,** if what its tokens stood for is still there. -/
theorem exists_readsAs (hvalid : k.grammar.validate = .ok ())
    (hlt : ∀ token ∈ tokens, ∀ t, k.usedIndex.find? token = some t →
      t < k.grammar.terminals.length) : ∃ tokens', k.ReadsAs tokens tokens' := by
  have hnodup := (Grammar.validate_eq_ok_iff.1 hvalid).nodup_terminals
  have htoken : ∀ token ∈ tokens, ∃ token', k.usedIndex.find? token =
      (NameIndex.ofNames k.grammar.terminals).find? token' := by
    intro token hmem
    cases hfind : k.usedIndex.find? token with
    | none =>
      -- a name that is in use nowhere is no terminal
      refine ⟨((FreshNames.ofGrammar k.grammar).fresh token).1, Eq.symm ?_⟩
      refine NameIndex.find?_eq_none_iff.2 fun hused => ?_
      exact (FreshNames.ofGrammar k.grammar).fresh_not_mem token
        (FreshNames.covers_ofGrammar k.grammar _ (.inr hused))
    | some t =>
      have hat := List.getElem?_eq_getElem (hlt token hmem t hfind)
      exact ⟨_, ((NameIndex.locates_ofNames hnodup _ t).2 hat).symm⟩
  clear hlt
  induction tokens with
  | nil => exact ⟨[], .nil⟩
  | cons token rest ih =>
    obtain ⟨token', htoken'⟩ := htoken token List.mem_cons_self
    obtain ⟨rest', hrest⟩ := ih fun other hmem => htoken other (List.mem_cons_of_mem _ hmem)
    exact ⟨token' :: rest', .cons htoken' hrest⟩

/-! ### Membership -/

/-- In normal form a grammar answers from its own chart. -/
theorem fst_accepts_of_inNormalForm (hvalid : k.grammar.validate = .ok ())
    (hnormal : k.grammar.InNormalForm) (tokens : List String) :
    (accepts tokens k).1 = falseIfRefused (do
      k.grammar.acceptsChart (← k.grammar.sortedRules.chart k.usedIndex tokens)) := by
  have hwf := Grammar.validate_eq_ok_iff.1 hvalid
  obtain ⟨flag, hcheck, hflag⟩ := hwf.isNormalForm_eq_ok
  obtain rfl : flag = true := hflag.2 hnormal
  rw [fst_accepts hcheck, if_pos rfl, recognize,
    fst_onChart (Grammar.chartRules_eq_ok_iff.2 ⟨hwf, hnormal, rfl⟩)]

/-- **A sentence is read in present names:** the answer is that of the grammar without a history for
the sentence in present names. -/
theorem accepts_eq_of_readsAs (hvalid : k.grammar.validate = .ok ())
    (hnormal : k.grammar.InNormalForm) (h : k.ReadsAs tokens tokens') :
    (accepts tokens k).1 = (accepts tokens' { grammar := k.grammar }).1 := by
  rw [fst_accepts_of_inNormalForm hvalid hnormal,
    fst_accepts_of_inNormalForm (k := { grammar := k.grammar }) hvalid hnormal,
    ChartRules.chart_congr h]
  rfl

/-- **Without what a token stood for there is no answer.** -/
theorem accepts_eq_fault (hvalid : k.grammar.validate = .ok ()) (hnormal : k.grammar.InNormalForm)
    {token : String} (hmem : token ∈ tokens) {t : Nat} (hfind : k.usedIndex.find? token = some t)
    (hge : k.grammar.terminals.length ≤ t) :
    (accepts tokens k).1 = .error (.fault .outOfRange) := by
  have hheads : k.grammar.sortedRules.terminalHeads.length ≤ t := by
    rwa [Grammar.sortedRules, List.length_map, List.length_range]
  rw [fst_accepts_of_inNormalForm hvalid hnormal, ChartRules.chart_eq_fault hmem hfind hheads]
  rfl

/-- The grammar `S → a`, declared with a second terminal that was dropped afterwards. -/
def shortened : KeptGrammar where
  grammar := { nonterminals := ["S"], terminals := ["a"], start := 0, rows := [[[.terminal 0]]] }
  terminalIndex := some (.ofNames ["a", "b"])
  nonterminalIndex := some (.ofNames ["S"])

example : (accepts ["b"] shortened).1 = .error (.fault .outOfRange) := by decide +kernel

end KeptGrammar

end ChomskyChart
