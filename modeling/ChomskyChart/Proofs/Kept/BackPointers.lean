import ChomskyChart.Grammar.Table
import ChomskyChart.Proofs.Chart.Entries
import ChomskyChart.Proofs.Kept.Membership

/-!
# The back-pointers of a chart

A derivation of several tokens names its rule by a number only. Numbers are given to the bodies of
two nonterminals, over the rows of the table and within a row in its order, so a number stands for
one place in the table. With this reading of the numbers the cells of a chart are said in terms of
the grammar alone: what a cell lists, how often, and in which order.

## Main definitions

* `isPair`, `Grammar.RuleAt`: the bodies that are numbered, and the rule that has a number
* `Grammar.tokenDerivation?`: what a body yields for a token

## Main results

* `getElem?_flatMap_iff`, `getElem?_filterMap_iff`: where an element of a computed list comes from
* `Grammar.getElem?_binaryRules_iff`: the numbers that a chart uses are those of the table
* `Grammar.derivations_token_eq`: a cell of one token
* `derivations_correct`: all cells
-/

namespace ChomskyChart

/-! ### Places in computed lists -/

section

variable {α β : Type} {xs : List α} {n : Nat} {y : β}

/-- What one entry yields stands behind what the entries before it yield. -/
theorem getElem?_flatMap_iff {f : α → List β} :
    (xs.flatMap f)[n]? = some y ↔
      ∃ p x m, xs[p]? = some x ∧ (f x)[m]? = some y ∧
        n = ((xs.take p).flatMap f).length + m := by
  induction xs generalizing n with
  | nil => simp
  | cons x rest ih =>
    rw [List.flatMap_cons, List.getElem?_append]
    constructor
    · intro hn
      split at hn
      · exact ⟨0, x, n, rfl, hn, by simp⟩
      · obtain ⟨p, x', m, hx', hy, hm⟩ := ih.1 hn
        refine ⟨p + 1, x', m, hx', hy, ?_⟩
        rw [List.take_succ_cons, List.flatMap_cons, List.length_append]
        omega
    · rintro ⟨p, x', m, hx', hy, rfl⟩
      cases p with
      | zero =>
        obtain rfl := Option.some.inj hx'
        have hm := (List.getElem?_eq_some_iff.1 hy).1
        simpa [hm] using hy
      | succ p =>
        rw [List.take_succ_cons, List.flatMap_cons, List.length_append, Nat.add_assoc,
          if_neg (by omega), Nat.add_sub_cancel_left]
        exact ih.2 ⟨p, x', m, hx', hy, rfl⟩

/-- What is kept stands behind what is kept of the entries before it. -/
theorem getElem?_filterMap_iff {f : α → Option β} :
    (xs.filterMap f)[n]? = some y ↔
      ∃ p x, xs[p]? = some x ∧ f x = some y ∧ n = (xs.take p).countP fun x => (f x).isSome := by
  have hlength : ∀ ys : List α,
      (ys.flatMap fun x => (f x).toList).length = ys.countP fun x => (f x).isSome := by
    intro ys
    rw [← List.filterMap_eq_flatMap_toList, List.length_filterMap_eq_countP]
  -- an entry yields one element at most
  have hat : ∀ x m, (f x).toList[m]? = some y ↔ f x = some y ∧ m = 0 := by
    intro x m
    cases f x <;> cases m <;> simp
  rw [List.filterMap_eq_flatMap_toList, getElem?_flatMap_iff]
  constructor
  · rintro ⟨p, x, m, hx, hm, rfl⟩
    obtain ⟨hy, rfl⟩ := (hat x m).1 hm
    exact ⟨p, x, hx, hy, hlength _⟩
  · rintro ⟨p, x, hx, hy, rfl⟩
    exact ⟨p, x, 0, hx, (hat x 0).2 ⟨hy, rfl⟩, (hlength _).symm⟩

end

/-! ### The numbers of rules -/

/-- Whether a body has two nonterminals and nothing else. -/
def isPair : Body → Bool
  | [.nonterminal _, .nonterminal _] => true
  | _ => false

/-- The rule that a body makes, if it has two nonterminals. -/
def pairRule? (head : Nat) : Body → Option BinaryRule
  | [.nonterminal left, .nonterminal right] => some ⟨head, left, right⟩
  | _ => none

theorem pairRule?_eq_some_iff {head head' left right : Nat} {body : Body} :
    pairRule? head body = some ⟨head', left, right⟩ ↔
      body = [.nonterminal left, .nonterminal right] ∧ head = head' := by
  constructor
  · intro heq
    match body, heq with
    | [.nonterminal l, .nonterminal r], heq =>
      obtain ⟨rfl, rfl, rfl⟩ := BinaryRule.mk.inj (Option.some.inj heq)
      exact ⟨rfl, rfl⟩
  · rintro ⟨rfl, rfl⟩
    rfl

theorem isSome_pairRule? (head : Nat) (body : Body) :
    (pairRule? head body).isSome = isPair body := by
  unfold pairRule? isPair
  split <;> rfl

/-- As many rules come from a row as it has pairs, whichever head they get. -/
theorem countP_isSome_pairRule? (head : Nat) (row : Row) :
    (row.countP fun body => (pairRule? head body).isSome) = row.countP isPair := by
  rw [funext (isSome_pairRule? head)]

namespace Grammar

variable {g : Grammar}

/-- The rule `head → left right` has the given number, if the bodies of two nonterminals are
numbered from zero, by their heads and then by their places in the row. -/
def RuleAt (g : Grammar) (number head left right : Nat) : Prop :=
  ∃ row place, g.rows[head]? = some row ∧
    row[place]? = some [.nonterminal left, .nonterminal right] ∧
    number = (g.rows.take head).flatten.countP isPair + (row.take place).countP isPair

/-- The rules of a chart, row by row. -/
theorem binaryRules_eq :
    g.binaryRules = g.rows.zipIdx.flatMap fun entry => entry.1.filterMap (pairRule? entry.2) := by
  rw [binaryRules, headedBodies, List.filterMap_flatMap]
  refine List.flatMap_congr fun entry _ => ?_
  rw [List.filterMap_map]
  rfl

/-- How many rules the first rows have. -/
theorem length_binaryRules_take (p : Nat) :
    ((g.rows.zipIdx.take p).flatMap fun entry => entry.1.filterMap (pairRule? entry.2)).length =
      (g.rows.take p).flatten.countP isPair := by
  have hlength : ∀ entry : Row × Nat,
      (entry.1.filterMap (pairRule? entry.2)).length = entry.1.countP isPair := fun entry =>
    List.length_filterMap_eq_countP.trans (countP_isSome_pairRule? entry.2 entry.1)
  have hrows : (g.rows.zipIdx.take p).map Prod.fst = g.rows.take p := by
    rw [List.map_take, List.zipIdx_map_fst]
  rw [List.length_flatMap, List.countP_flatten, ← hrows, List.map_map]
  exact congrArg List.sum (List.map_congr_left fun entry _ => hlength entry)

/-- **The numbers that a chart uses are those of the table.** -/
theorem getElem?_binaryRules_iff {number head left right : Nat} :
    g.binaryRules[number]? = some ⟨head, left, right⟩ ↔ g.RuleAt number head left right := by
  -- the place of a row is the head of its bodies
  have hentry : ∀ {p i : Nat} {row : Row},
      g.rows.zipIdx[p]? = some (row, i) ↔ g.rows[p]? = some row ∧ p = i := by
    simp [List.getElem?_zipIdx]
  rw [binaryRules_eq, getElem?_flatMap_iff]
  constructor
  · rintro ⟨p, ⟨row, i⟩, m, hzip, hrule, rfl⟩
    obtain ⟨hrow, rfl⟩ := hentry.1 hzip
    obtain ⟨place, body, hbody, hpair, rfl⟩ := getElem?_filterMap_iff.1 hrule
    obtain ⟨rfl, rfl⟩ := pairRule?_eq_some_iff.1 hpair
    exact ⟨row, place, hrow, hbody, by rw [length_binaryRules_take, countP_isSome_pairRule?]⟩
  · rintro ⟨row, place, hrow, hbody, rfl⟩
    refine ⟨head, (row, head), _, hentry.2 ⟨hrow, rfl⟩,
      getElem?_filterMap_iff.2 ⟨place, _, hbody, rfl, rfl⟩, ?_⟩
    rw [length_binaryRules_take, countP_isSome_pairRule?]

/-! ### Cells of one token -/

variable {index : NameIndex} {tokens : List String} {c : Chart} {i j v : Nat} {token : String}

/-- What a body yields for a token: if it is the terminal of that name and nothing else, then the
rule to it. -/
def tokenDerivation? (g : Grammar) (token : String) : Body → Option Derivation
  | [.terminal t] => if g.terminals[t]? = some token then some (.terminal t) else none
  | _ => none

/-- A token is looked up in the index only once, for all bodies. -/
theorem tokenDerivation?_eq (hindex : index.Locates g.terminals) (body : Body) :
    g.tokenDerivation? token body =
      (index.find? token).bind fun t =>
        if body = [.terminal t] then some (.terminal t) else none := by
  unfold tokenDerivation?
  split
  · rename_i t
    split
    · rename_i ht
      rw [(hindex token t).2 ht, Option.bind_some, if_pos rfl]
    · rename_i ht
      cases hfind : index.find? token with
      | none => rfl
      | some t' =>
        rw [Option.bind_some, if_neg]
        rintro ⟨⟩
        exact ht ((hindex token t).1 hfind)
  · rename_i hother
    cases index.find? token with
    | none => rfl
    | some t => rw [Option.bind_some, if_neg (hother t)]

/-- What is found for a token comes from the bodies of the row, in their order. -/
theorem findingsOf_tokenFindings (hindex : index.Locates g.terminals) :
    Chart.findingsOf v (g.sortedRules.tokenFindings index token) =
      (g.rows[v]?.getD []).filterMap (g.tokenDerivation? token) := by
  rw [← entriesAt_headedBodies, ChartRules.tokenFindings]
  simp only [tokenDerivation?_eq hindex]
  cases hfind : index.find? token with
  | none => simp
  | some t =>
    have ht := (List.getElem?_eq_some_iff.1 ((hindex token t).1 hfind)).1
    simp only [getElem?_terminalHeads ht, Option.getD_some, Option.bind_some]
    rw [Chart.findingsOf, headsOf, entriesAt, List.filterMap_map, List.filterMap_filterMap,
      List.filterMap_filterMap]
    -- both sides keep the entries that have the head `v` and the terminal as their body
    refine List.filterMap_congr fun entry _ => ?_
    by_cases hhead : entry.1 = v <;> by_cases hbody : entry.2 = [.terminal t] <;>
      simp [hhead, hbody]

/-! ### Cells -/

/-- Nothing is listed for spans that are not in the sentence, or for positions without a name. -/
theorem derivations_eq_nil (hfills : g.sortedRules.Fills index tokens c)
    (h : j < i ∨ tokens.length ≤ j ∨ g.nonterminals.length ≤ v) : c.derivations i j v = [] := by
  refine Chart.derivations_of_not_covers ?_
  rintro ⟨hij, hj, hv⟩
  rw [hfills.size_eq] at hj
  rw [hfills.width_eq] at hv
  rcases h with hlt | hle | hle
  · exact absurd hij (Nat.not_le.2 hlt)
  · exact absurd hj (Nat.not_lt.2 hle)
  · exact absurd hv (Nat.not_lt.2 hle)

/-- **A cell of one token lists one derivation for each body that is the terminal of its name.** -/
theorem derivations_token_eq (h : g.WellFormed) (hindex : index.Locates g.terminals)
    (hfills : g.sortedRules.Fills index tokens c) (htoken : tokens[i]? = some token) :
    c.derivations i i v = (g.rows[v]?.getD []).filterMap (g.tokenDerivation? token) := by
  rcases Nat.lt_or_ge v g.nonterminals.length with hv | hv
  · rw [hfills.derivations_token i _ htoken v hv, findingsOf_tokenFindings hindex]
  · have hrow : g.rows[v]? = none := List.getElem?_eq_none (h.length_rows.symm ▸ hv)
    rw [derivations_eq_nil hfills (.inr (.inr hv)), hrow]
    rfl

/-- **A cell of several tokens lists the rules and splits whose parts are derived.** -/
theorem mem_derivations_span_iff (h : g.WellFormed) (hnormal : g.InNormalForm)
    (hindex : index.Locates g.terminals) (hfills : g.sortedRules.Fills index tokens c)
    (hij : i < j) (hj : j < tokens.length) {d : Derivation} :
    d ∈ c.derivations i j v ↔
      ∃ split number left right, i ≤ split ∧ split < j ∧ g.RuleAt number v left right ∧
        g.Derives left (segment tokens i split) ∧
        g.Derives right (segment tokens (split + 1) j) ∧
        d = .binary split number left right := by
  rcases Nat.lt_or_ge v g.nonterminals.length with hv | hv
  · rw [mem_derivations_iff hindex hfills (Nat.le_of_lt hij) hj hv,
      or_iff_right fun hself => Nat.ne_of_lt hij hself.1]
    refine exists_congr fun split => exists_congr fun number => exists_congr fun left =>
      exists_congr fun right => and_congr_right fun hfirst => and_congr_right fun hlast => ?_
    rw [getElem?_binaryRules_iff,
      contains_iff_derives h hnormal hindex hfills hfirst (Nat.lt_trans hlast hj),
      contains_iff_derives h hnormal hindex hfills hlast hj]
  · rw [derivations_eq_nil hfills (.inr (.inr hv))]
    refine iff_of_false List.not_mem_nil ?_
    rintro ⟨_, _, _, _, -, -, ⟨row, _, hrow, -⟩, -⟩
    have hlt := (List.getElem?_eq_some_iff.1 hrow).1
    rw [h.length_rows] at hlt
    exact absurd hlt (Nat.not_lt.2 hv)

/-- The derivations of several tokens are in order, also where there are none. -/
theorem pairwise_derivations_span (hfills : g.sortedRules.Fills index tokens c) (hij : i < j)
    (hj : j < tokens.length) : (c.derivations i j v).Pairwise Derivation.Precedes := by
  rcases Nat.lt_or_ge v g.nonterminals.length with hv | hv
  · exact pairwise_derivations hfills hij hj hv
  · rw [derivations_eq_nil hfills (.inr (.inr hv))]
    exact List.Pairwise.nil

end Grammar

/-! ### Charts of kept grammars -/

namespace KeptGrammar

variable {k : KeptGrammar}

/-- **Back-pointers are correct.** In the chart of any sentence, a cell of several tokens lists each
split with each rule whose nonterminals derive the two parts, by the split first and then by the
number of the rule, and nothing comes twice. A cell of one token lists the rules to it, one for each
body. Beyond the sentence nothing is listed. -/
theorem derivations_correct {rules : ChartRules} (hrules : k.grammar.chartRules = .ok rules)
    (hcurrent : k.TerminalsCurrent) (tokens : List String) :
    ∃ c, (onChart tokens (fun _ c => .ok c) k).1 = .ok c ∧
      (∀ i j v, i < j → j < tokens.length →
        (c.derivations i j v).Pairwise Derivation.Precedes ∧
        ∀ d, d ∈ c.derivations i j v ↔
          ∃ split number left right, i ≤ split ∧ split < j ∧
            k.grammar.RuleAt number v left right ∧
            k.grammar.Derives left (segment tokens i split) ∧
            k.grammar.Derives right (segment tokens (split + 1) j) ∧
            d = .binary split number left right) ∧
      (∀ i token v, tokens[i]? = some token →
        c.derivations i i v =
          (k.grammar.rows[v]?.getD []).filterMap (k.grammar.tokenDerivation? token)) ∧
      ∀ i j v, j < i ∨ tokens.length ≤ j → c.derivations i j v = [] := by
  obtain ⟨hvalid, hnormal, -⟩ := Grammar.chartRules_eq_ok_iff.1 hrules
  have hlocates := hcurrent.locates hvalid.nodup_terminals
  obtain ⟨c, hfills, hread⟩ := exists_onChart hrules hcurrent tokens
  refine ⟨c, hread _, fun i j v hij hj => ⟨?_, fun d => ?_⟩, fun i token v htoken => ?_, ?_⟩
  · exact Grammar.pairwise_derivations_span hfills hij hj
  · exact Grammar.mem_derivations_span_iff hvalid hnormal hlocates hfills hij hj
  · exact Grammar.derivations_token_eq hvalid hlocates hfills htoken
  · rintro i j v (hlt | hle)
    · exact Grammar.derivations_eq_nil hfills (.inl hlt)
    · exact Grammar.derivations_eq_nil hfills (.inr (.inl hle))

/-- Sequences of a token, with a body that comes twice and rules over two rows. -/
def repeatedPairs : Grammar where
  nonterminals := ["S", "T"]
  terminals := ["a"]
  start := 0
  rows := [[[.nonterminal 0, .nonterminal 1], [.terminal 0], [.nonterminal 0, .nonterminal 1]],
    [[.nonterminal 1, .nonterminal 1], [.terminal 0], [.terminal 0]]]
  acceptsEmpty := false

theorem derivations_correct_repeatedPairs :
    repeatedPairs.chartRules = .ok repeatedPairs.sortedRules ∧
    (declared repeatedPairs).TerminalsCurrent ∧
    ∃ c, (onChart ["a", "a", "a"] (fun _ c => .ok c) (declared repeatedPairs)).1 = .ok c ∧
      (c.derivations 0 2 0).Pairwise Derivation.Precedes ∧
      (∀ d, d ∈ c.derivations 0 2 0 ↔
        ∃ split number left right, 0 ≤ split ∧ split < 2 ∧
          repeatedPairs.RuleAt number 0 left right ∧
          repeatedPairs.Derives left (segment ["a", "a", "a"] 0 split) ∧
          repeatedPairs.Derives right (segment ["a", "a", "a"] (split + 1) 2) ∧
          d = .binary split number left right) ∧
      c.derivations 1 1 1 = [.terminal 0, .terminal 0] ∧ c.derivations 2 1 0 = [] := by
  have hrules : repeatedPairs.chartRules = .ok repeatedPairs.sortedRules := by decide
  have hcurrent := terminalsCurrent_declared repeatedPairs
  obtain ⟨c, hread, hspans, htokens, hbeyond⟩ :=
    derivations_correct (k := declared repeatedPairs) hrules hcurrent ["a", "a", "a"]
  obtain ⟨horder, hmem⟩ := hspans 0 2 0 (by decide) (by decide)
  exact ⟨hrules, hcurrent, c, hread, horder, hmem, htokens 1 "a" 1 rfl,
    hbeyond 2 1 0 (.inl (by decide))⟩

end KeptGrammar

end ChomskyChart
