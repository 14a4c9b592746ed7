import ChomskyChart.Forest.Basic
import ChomskyChart.Proofs.Chart.Filling
import ChomskyChart.Proofs.Language.Generating
import ChomskyChart.Proofs.Language.NormalShape

/-!
# Charts are right

In normal form a word of two or more tokens is derived by splitting it, and a chart tries all splits
with all rules. So a filled chart has a nonterminal for a span exactly if the nonterminal derives
the tokens of the span, by induction on the length of the span.

## Main definitions

* `segment`: the tokens of a span
* `Grammar.sortedRules`: the rules from which charts are filled
* `NameIndex.Locates`: an index that tells where the names of a list stand

## Main results

* `mem_tokenFindings_iff`, `mem_findings_iff`: what a token and a span yield
* `contains_iff_of_lt`, `derives_segment_iff_of_lt`: several tokens, in the chart and in the grammar
* `contains_iff_derives`: what a filled chart contains
* `exists_acceptsChart`, `exists_forest?`: the answers that are read from it
-/

namespace ChomskyChart

/-! ### Tokens of a span -/

/-- The tokens from position `i` to position `j`, both included. -/
def segment (tokens : List String) (i j : Nat) : List String :=
  (tokens.drop i).take (j + 1 - i)

section

variable {tokens first tail : List String} {i j k : Nat}

theorem segment_self {token : String} (h : tokens[i]? = some token) :
    segment tokens i i = [token] := by
  obtain ⟨hlt, rfl⟩ := List.getElem?_eq_some_iff.1 h
  rw [segment, show i + 1 - i = 1 by omega, List.drop_eq_getElem_cons hlt, List.take_succ_cons,
    List.take_zero]

theorem segment_append (hik : i ≤ k) (hkj : k < j) :
    segment tokens i j = segment tokens i k ++ segment tokens (k + 1) j := by
  rw [segment, show j + 1 - i = (k + 1 - i) + (j + 1 - (k + 1)) by omega, List.take_add,
    List.drop_drop, show i + (k + 1 - i) = k + 1 by omega, segment, segment]

theorem length_segment (hij : i ≤ j) (hj : j < tokens.length) :
    (segment tokens i j).length = j + 1 - i := by
  rw [segment, List.length_take, List.length_drop]
  omega

theorem segment_all {last : Nat} (h : tokens.length = last + 1) :
    segment tokens 0 last = tokens := by
  rw [segment, List.drop_zero, List.take_of_length_le (by omega)]

/-- Two words that make up a segment are segments. -/
theorem exists_split_segment (hij : i ≤ j) (hj : j < tokens.length)
    (h : segment tokens i j = first ++ tail) (hfirst : first ≠ []) (htail : tail ≠ []) :
    ∃ k, i ≤ k ∧ k < j ∧ first = segment tokens i k ∧ tail = segment tokens (k + 1) j := by
  have hlength := congrArg List.length h
  rw [length_segment hij hj, List.length_append] at hlength
  have hfirst := List.length_pos_iff.2 hfirst
  have htail := List.length_pos_iff.2 htail
  have hsplit : segment tokens i j = segment tokens i (i + first.length - 1) ++ _ :=
    segment_append (by omega) (by omega)
  rw [h] at hsplit
  obtain ⟨heq, heq'⟩ := List.append_inj hsplit (by rw [length_segment] <;> omega)
  exact ⟨i + first.length - 1, by omega, by omega, heq, heq'⟩

end

/-! ### Rules of a grammar -/

/-- The index finds the position of each name, and nothing else. -/
def NameIndex.Locates (index : NameIndex) (names : List String) : Prop :=
  ∀ name i, index.find? name = some i ↔ names[i]? = some name

theorem NameIndex.locates_ofNames {names : List String} (h : names.Nodup) :
    (NameIndex.ofNames names).Locates names := by
  intro name i
  rw [find?_eq_some_iff]
  constructor
  · rintro ⟨hat, -⟩
    exact hat
  · intro hat
    refine ⟨hat, fun j hij hat' => ?_⟩
    obtain ⟨hi, heq⟩ := List.getElem?_eq_some_iff.1 hat
    obtain ⟨hj, heq'⟩ := List.getElem?_eq_some_iff.1 hat'
    have := h.getElem_inj_iff.1 (heq.trans heq'.symm)
    omega

namespace Grammar

variable {g : Grammar}

/-- The rules of the grammar, sorted. -/
def sortedRules (g : Grammar) : ChartRules where
  width := g.nonterminals.length
  terminalHeads := (List.range g.terminals.length).map g.headsOf
  binaryRules := g.binaryRules.zipIdx

/-- **Charts are refused exactly to grammars that are not well-formed or not in normal form.** -/
theorem chartRules_eq_ok_iff {rules : ChartRules} :
    g.chartRules = .ok rules ↔ g.WellFormed ∧ g.InNormalForm ∧ g.sortedRules = rules := by
  rw [← validate_eq_ok_iff, ← checkNormalForm_eq_ok_iff, chartRules]
  cases hvalid : g.validate with
  | error e => simp [bind, Except.bind]
  | ok _ =>
    cases hcheck : g.checkNormalForm with
    | error e => simp [bind, Except.bind]
    | ok _ => simp [bind, Except.bind, pure, Except.pure, sortedRules]

theorem mem_headsOf_iff {t head : Nat} : head ∈ g.headsOf t ↔ g.HasRule head [.terminal t] := by
  rw [headsOf, List.mem_filterMap]
  constructor
  · rintro ⟨⟨head', body⟩, hmem, heq⟩
    by_cases hbody : body = [.terminal t]
    · obtain rfl : head' = head := Option.some.inj ((if_pos hbody).symm.trans heq)
      exact hbody ▸ mem_headedBodies.1 hmem
    · exact nomatch (if_neg hbody).symm.trans heq
  · intro hrule
    exact ⟨(head, [.terminal t]), mem_headedBodies.2 hrule, if_pos rfl⟩

theorem mem_binaryRules_iff {head left right : Nat} :
    ⟨head, left, right⟩ ∈ g.binaryRules ↔
      g.HasRule head [.nonterminal left, .nonterminal right] := by
  rw [binaryRules, List.mem_filterMap]
  constructor
  · rintro ⟨⟨head', body⟩, hmem, heq⟩
    match body, heq with
    | [.nonterminal l, .nonterminal r], heq =>
      obtain ⟨rfl, rfl, rfl⟩ := BinaryRule.mk.inj (Option.some.inj heq)
      exact mem_headedBodies.1 hmem
  · intro hrule
    exact ⟨_, mem_headedBodies.2 hrule, rfl⟩

/-! ### What a token and a span yield -/

variable {index : NameIndex} {tokens : List String} {c : Chart} {i j v : Nat} {d : Derivation}

theorem getElem?_terminalHeads {t : Nat} (ht : t < g.terminals.length) :
    g.sortedRules.terminalHeads[t]? = some (g.headsOf t) := by
  rw [sortedRules, List.getElem?_map, List.getElem?_range ht, Option.map_some]

theorem mem_tokenFindings_iff {token : String} (hindex : index.Locates g.terminals) :
    (v, d) ∈ g.sortedRules.tokenFindings index token ↔
      ∃ t, g.terminals[t]? = some token ∧ g.HasRule v [.terminal t] ∧ d = .terminal t := by
  rw [ChartRules.tokenFindings]
  cases hfind : index.find? token with
  | none =>
    constructor
    · intro hmem
      exact absurd hmem List.not_mem_nil
    · rintro ⟨t, ht, -⟩
      exact absurd (((hindex token t).2 ht).symm.trans hfind) (Option.some_ne_none t)
  | some t =>
    have ht := (hindex token t).1 hfind
    have hheads := getElem?_terminalHeads (List.getElem?_eq_some_iff.1 ht).1
    simp only [hheads, Option.getD_some, List.mem_map, Prod.mk.injEq]
    constructor
    · rintro ⟨head, hmem, rfl, rfl⟩
      exact ⟨t, ht, mem_headsOf_iff.1 hmem, rfl⟩
    · rintro ⟨t', ht', hrule, rfl⟩
      obtain rfl : t = t' := Option.some.inj (hfind.symm.trans ((hindex token t').2 ht'))
      exact ⟨v, mem_headsOf_iff.2 hrule, rfl, rfl⟩

theorem mem_findings_iff :
    (v, d) ∈ g.sortedRules.findings c i j ↔
      ∃ k number left right, i ≤ k ∧ k < j ∧ g.binaryRules[number]? = some ⟨v, left, right⟩ ∧
        c.contains i k left = true ∧ c.contains (k + 1) j right = true ∧
        d = .binary k number left right := by
  rw [ChartRules.findings, List.mem_flatMap]
  constructor
  · rintro ⟨p, hp, hmem⟩
    obtain ⟨⟨⟨head, left, right⟩, number⟩, hrule, heq⟩ := List.mem_filterMap.1 hmem
    by_cases hparts : (c.contains i (i + p) left && c.contains (i + p + 1) j right) = true
    · simp only [hparts, if_true, Option.some.injEq, Prod.mk.injEq] at heq
      obtain ⟨rfl, rfl⟩ := heq
      rw [Bool.and_eq_true] at hparts
      rw [List.mem_range] at hp
      exact ⟨i + p, number, left, right, by omega, by omega, List.mem_zipIdx_iff_getElem?.1 hrule,
        hparts.1, hparts.2, rfl⟩
    · exact absurd (heq.symm.trans (if_neg hparts)) (Option.some_ne_none _)
  · rintro ⟨k, number, left, right, hik, hkj, hrule, hleft, hright, rfl⟩
    obtain ⟨p, rfl⟩ := Nat.exists_eq_add_of_le hik
    refine ⟨p, List.mem_range.2 (by omega),
      List.mem_filterMap.2 ⟨(⟨v, left, right⟩, number), ?_, ?_⟩⟩
    · exact List.mem_zipIdx_iff_getElem?.2 hrule
    · simp only [hleft, hright, Bool.and_self, if_true]

/-! ### What the chart contains -/

theorem contains_iff_exists_mem :
    c.contains i j v = true ↔ ∃ d, d ∈ c.derivations i j v := by
  rw [Chart.contains, Bool.not_eq_true', List.isEmpty_eq_false_iff_exists_mem]

/-- A single token is contained as it is derived, by a rule to it. -/
theorem contains_self_iff_derives (hnormal : g.InNormalForm) (hindex : index.Locates g.terminals)
    (hfills : g.sortedRules.Fills index tokens c) (hi : i < tokens.length)
    (hv : v < g.nonterminals.length) :
    c.contains i i v = true ↔ g.Derives v (segment tokens i i) := by
  have htoken := List.getElem?_eq_getElem hi
  rw [contains_iff_exists_mem, hnormal.derives_iff, hfills.derivations_token i _ htoken v hv,
    segment_self htoken]
  simp only [Chart.mem_findingsOf_iff, mem_tokenFindings_iff hindex]
  constructor
  · rintro ⟨d, t, ht, hrule, rfl⟩
    exact .inl ⟨t, _, hrule, ht, rfl⟩
  · rintro (⟨t, name, hrule, hname, heq⟩ | ⟨left, right, -, first, tail, heq, hfirst, htail⟩)
    · obtain rfl := List.singleton_inj.1 heq
      exact ⟨_, t, hname, hrule, rfl⟩
    · -- one token has no two parts
      have hlength := congrArg List.length heq
      have := List.length_pos_iff.2 (hnormal.ne_nil_of_derives hfirst)
      have := List.length_pos_iff.2 (hnormal.ne_nil_of_derives htail)
      rw [List.length_append, List.length_singleton] at hlength
      omega

/-- Several tokens are contained by a split and a rule for it. -/
theorem contains_iff_of_lt (hfills : g.sortedRules.Fills index tokens c) (hij : i < j)
    (hj : j < tokens.length) (hv : v < g.nonterminals.length) :
    c.contains i j v = true ↔
      ∃ k left right, i ≤ k ∧ k < j ∧ g.HasRule v [.nonterminal left, .nonterminal right] ∧
        c.contains i k left = true ∧ c.contains (k + 1) j right = true := by
  rw [contains_iff_exists_mem, hfills.derivations_span i j hij hj v hv]
  simp only [Chart.mem_findingsOf_iff, mem_findings_iff]
  constructor
  · rintro ⟨d, k, number, left, right, hik, hkj, hrule, hleft, hright, -⟩
    exact ⟨k, left, right, hik, hkj, mem_binaryRules_iff.1 (List.mem_of_getElem? hrule), hleft,
      hright⟩
  · rintro ⟨k, left, right, hik, hkj, hrule, hleft, hright⟩
    obtain ⟨number, hnumber⟩ := List.getElem?_of_mem (mem_binaryRules_iff.2 hrule)
    exact ⟨_, k, number, left, right, hik, hkj, hnumber, hleft, hright, rfl⟩

/-- Several tokens are derived by a split and a rule for it. -/
theorem derives_segment_iff_of_lt (hnormal : g.InNormalForm) (hij : i < j)
    (hj : j < tokens.length) :
    g.Derives v (segment tokens i j) ↔
      ∃ k left right, i ≤ k ∧ k < j ∧ g.HasRule v [.nonterminal left, .nonterminal right] ∧
        g.Derives left (segment tokens i k) ∧ g.Derives right (segment tokens (k + 1) j) := by
  rw [hnormal.derives_iff]
  constructor
  · rintro (⟨t, name, -, -, heq⟩ | ⟨left, right, hrule, first, tail, heq, hfirst, htail⟩)
    · have hlength := congrArg List.length heq
      rw [length_segment (Nat.le_of_lt hij) hj, List.length_singleton] at hlength
      omega
    · obtain ⟨k, hik, hkj, rfl, rfl⟩ := exists_split_segment (Nat.le_of_lt hij) hj heq
        (hnormal.ne_nil_of_derives hfirst) (hnormal.ne_nil_of_derives htail)
      exact ⟨k, left, right, hik, hkj, hrule, hfirst, htail⟩
  · rintro ⟨k, left, right, hik, hkj, hrule, hleft, hright⟩
    exact .inr ⟨left, right, hrule, _, _, segment_append hik hkj, hleft, hright⟩

/-- **A filled chart contains a nonterminal exactly where it derives the tokens.** -/
theorem contains_iff_derives (h : g.WellFormed) (hnormal : g.InNormalForm)
    (hindex : index.Locates g.terminals) (hfills : g.sortedRules.Fills index tokens c)
    (hij : i ≤ j) (hj : j < tokens.length) :
    c.contains i j v = true ↔ g.Derives v (segment tokens i j) := by
  induction hn : j - i using Nat.strong_induction_on generalizing i j v with
  | _ n ih =>
    rcases Nat.lt_or_ge v g.nonterminals.length with hv | hv
    · rcases Nat.eq_or_lt_of_le hij with rfl | hlt
      · exact contains_self_iff_derives hnormal hindex hfills hj hv
      · rw [contains_iff_of_lt hfills hlt hj hv, derives_segment_iff_of_lt hnormal hlt hj]
        refine exists_congr fun k => exists_congr fun left => exists_congr fun right => ?_
        refine and_congr_right fun hik => and_congr_right fun hkj => and_congr_right fun _ => ?_
        rw [ih (k - i) (by omega) hik (by omega) rfl, ih (j - (k + 1)) (by omega) hkj hj rfl]
    · have hcovers : ¬c.Covers i j v := by
        rintro ⟨-, -, hlt⟩
        rw [hfills.width_eq] at hlt
        exact absurd hlt (Nat.not_lt.2 hv)
      rw [Chart.contains, Chart.derivations_of_not_covers hcovers]
      refine iff_of_false Bool.false_ne_true fun hword => ?_
      have := hword.lt_length_rows
      rw [h.length_rows] at this
      omega

/-! ### Answers from the chart -/

theorem exists_filledChart (hindex : index.Locates g.terminals) (tokens : List String) :
    ∃ c, g.sortedRules.chart index tokens = .ok c ∧ g.sortedRules.Fills index tokens c := by
  refine ChartRules.exists_chart fun token _ t ht => ?_
  have hlt := (List.getElem?_eq_some_iff.1 ((hindex token t).1 ht)).1
  rwa [sortedRules, List.length_map, List.length_range]

/-- **The answer read from a filled chart is right.** -/
theorem exists_acceptsChart (h : g.WellFormed) (hnormal : g.InNormalForm)
    (hindex : index.Locates g.terminals) (hfills : g.sortedRules.Fills index tokens c) :
    ∃ flag, g.acceptsChart c = .ok flag ∧ (flag = true ↔ g.InLanguage tokens) := by
  rw [acceptsChart, hfills.size_eq]
  cases hlength : tokens.length with
  | zero =>
    obtain rfl := List.eq_nil_of_length_eq_zero hlength
    exact exists_generatesEpsilon h
  | succ last =>
    refine ⟨_, rfl, ?_⟩
    rw [contains_iff_derives h hnormal hindex hfills (Nat.zero_le last) (by omega),
      segment_all hlength, InLanguage, or_iff_left]
    rintro ⟨rfl, -⟩
    exact absurd hlength.symm (Nat.succ_ne_zero last)

theorem exists_forest? (h : g.WellFormed) (hnormal : g.InNormalForm)
    (hindex : index.Locates g.terminals) (hfills : g.sortedRules.Fills index tokens c) :
    ∃ forest, g.forest? tokens c = .ok forest ∧ (forest.isSome = true ↔ g.InLanguage tokens) := by
  obtain ⟨flag, hflag, hlanguage⟩ := exists_acceptsChart h hnormal hindex hfills
  rw [← hlanguage, forest?, hflag]
  cases flag with
  | true => exact ⟨_, rfl, by simp⟩
  | false => exact ⟨none, rfl, by simp⟩

end Grammar

end ChomskyChart
