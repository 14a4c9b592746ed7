import Mathlib.Data.List.Nodup
import ChomskyChart.Chart.Rules
import ChomskyChart.Proofs.Chart.Packing

/-!
# Filled charts

Every span is filled once. What a span is filled with depends on the spans within it, which are
shorter and so were filled before; and what is filled later has other spans. Hence it makes no
difference whether the findings of a span are taken from the chart so far or from the chart in the
end, and the filled chart satisfies an equation that no longer mentions the order of filling.

## Main definitions

* `Chart.fillAll`: filling one span after another
* `ChartRules.tokenFindings`: what the rules yield for a token
* `ChartRules.tokenChart`, `ChartRules.spanChart`: the two parts of filling a chart
* `ChartRules.Fills`: the equation

## Main results

* `derivations_fillAll_of_mem`: a span that is filled once
* `pairwise_longSpans`, `findings_congr`: shorter spans come first, and they are all that matters
* `derivations_spanChart`: the equation for one span
* `exists_chart`: the chart of a sentence is filled, and it satisfies the equation
-/

namespace ChomskyChart

/-! ### One span after another -/

namespace Chart

section

variable {α : Type} {place : α → Nat × Nat} {yielded : Chart → α → List (Nat × Derivation)}
variable {c : Chart} {xs before after : List α} {x : α} {i j v : Nat}

/-- Fills the places of the entries in order, each with what the chart so far yields for it. -/
def fillAll (place : α → Nat × Nat) (yielded : Chart → α → List (Nat × Derivation)) (c : Chart)
    (xs : List α) : Chart :=
  xs.foldl (fun c x => c.pushAll (place x).1 (place x).2 (yielded c x)) c

theorem fillAll_cons :
    fillAll place yielded c (x :: xs) =
      fillAll place yielded (c.pushAll (place x).1 (place x).2 (yielded c x)) xs :=
  rfl

theorem fillAll_append :
    fillAll place yielded c (before ++ after) =
      fillAll place yielded (fillAll place yielded c before) after :=
  List.foldl_append

@[simp] theorem size_fillAll : (fillAll place yielded c xs).size = c.size := by
  induction xs generalizing c with
  | nil => rfl
  | cons x rest ih => rw [fillAll_cons, ih, size_pushAll]

@[simp] theorem width_fillAll : (fillAll place yielded c xs).width = c.width := by
  induction xs generalizing c with
  | nil => rfl
  | cons x rest ih => rw [fillAll_cons, ih, width_pushAll]

theorem derivations_fillAll_of_notMem (h : (i, j) ∉ xs.map place) :
    (fillAll place yielded c xs).derivations i j v = c.derivations i j v := by
  induction xs generalizing c with
  | nil => rfl
  | cons x rest ih =>
    rw [List.map_cons, List.mem_cons, not_or] at h
    rw [fillAll_cons, ih h.2, derivations_pushAll_of_ne _ h.1]

/-- **A span that is filled once** has what was yielded for it when its turn came. -/
theorem derivations_fillAll_of_mem (hnodup : (xs.map place).Nodup) (hxs : xs = before ++ x :: after)
    (hplace : place x = (i, j)) (hcovers : c.Covers i j v) :
    (fillAll place yielded c xs).derivations i j v =
      c.derivations i j v ++ findingsOf v (yielded (fillAll place yielded c before) x) := by
  subst hxs
  rw [List.map_append, List.map_cons, List.nodup_append, List.nodup_cons, hplace] at hnodup
  obtain ⟨-, ⟨hafter, -⟩, hbefore⟩ := hnodup
  have hnotMem : (i, j) ∉ before.map place :=
    fun hmem => hbefore _ hmem _ List.mem_cons_self rfl
  have hcovers' : (fillAll place yielded c before).Covers i j v := by
    rwa [Covers, size_fillAll, width_fillAll]
  rw [fillAll_append, fillAll_cons, derivations_fillAll_of_notMem hafter, hplace,
    derivations_pushAll, if_pos ⟨hcovers', rfl, rfl⟩, derivations_fillAll_of_notMem hnotMem]

end

end Chart

/-! ### The order of the spans -/

theorem mem_longSpans_iff {n i j : Nat} : (i, j) ∈ longSpans n ↔ i < j ∧ j < n := by
  simp only [longSpans, List.mem_flatMap, List.mem_map, List.mem_range, Prod.mk.injEq]
  constructor
  · rintro ⟨d, hd, k, hk, rfl, rfl⟩
    omega
  · rintro ⟨hij, hj⟩
    exact ⟨j - i - 1, by omega, i, by omega, rfl, by omega⟩

/-- Shorter spans come first. -/
theorem pairwise_longSpans (n : Nat) :
    (longSpans n).Pairwise fun a b => a ≠ b ∧ a.2 - a.1 ≤ b.2 - b.1 := by
  rw [longSpans, List.pairwise_flatMap]
  constructor
  · intro d _
    refine List.Pairwise.map _ (fun a b hab => ?_) List.pairwise_lt_range
    refine ⟨fun heq => ?_, by omega⟩
    have := (Prod.mk.inj heq).1
    omega
  · refine List.Pairwise.imp (fun {d d'} hlt => ?_) List.pairwise_lt_range
    intro a ha b hb
    obtain ⟨k, -, rfl⟩ := List.mem_map.1 ha
    obtain ⟨k', -, rfl⟩ := List.mem_map.1 hb
    refine ⟨fun heq => ?_, by omega⟩
    obtain ⟨hfirst, hlast⟩ := Prod.mk.inj heq
    omega

theorem nodup_longSpans (n : Nat) : (longSpans n).Nodup :=
  (pairwise_longSpans n).imp fun h => h.1

namespace ChartRules

variable {rules : ChartRules} {terminals : NameIndex} {tokens : List String} {c c' : Chart}
variable {i j v : Nat}

/-! ### What a span yields -/

/-- Only the spans within matter. -/
theorem findings_congr
    (h : ∀ i' j' v, i ≤ i' → i' ≤ j' → j' ≤ j → j' - i' < j - i →
      c.contains i' j' v = c'.contains i' j' v) : rules.findings c i j = rules.findings c' i j := by
  rw [findings, findings]
  refine List.flatMap_congr fun d hd => ?_
  rw [List.mem_range] at hd
  refine List.filterMap_congr fun ⟨rule, number⟩ _ => ?_
  simp only
  rw [h i (i + d) _ (by omega) (by omega) (by omega) (by omega),
    h (i + d + 1) j _ (by omega) (by omega) (by omega) (by omega)]

/-- What the rules yield for a token: the heads of its rules, if it is a terminal. -/
def tokenFindings (rules : ChartRules) (terminals : NameIndex) (token : String) :
    List (Nat × Derivation) :=
  match terminals.find? token with
  | none => []
  | some t => (rules.terminalHeads[t]?.getD []).map fun head => (head, .terminal t)

theorem fillToken_eq_ok {entry : String × Nat}
    (h : ∀ t, terminals.find? entry.1 = some t → t < rules.terminalHeads.length) :
    rules.fillToken terminals c entry =
      .ok (c.pushAll entry.2 entry.2 (rules.tokenFindings terminals entry.1)) := by
  rw [fillToken, tokenFindings]
  cases hfind : terminals.find? entry.1 with
  | none => rfl
  | some t =>
    have hlt := h t hfind
    simp only [lookUp_of_lt hlt, List.getElem?_eq_getElem hlt, Option.getD_some, Chart.pushAll,
      List.foldl_map]
    rfl

/-! ### The filled chart -/

/-- The chart holds what the rules yield for the tokens and, from the chart itself, for the longer
spans. -/
structure Fills (rules : ChartRules) (terminals : NameIndex) (tokens : List String) (c : Chart) :
    Prop where
  size_eq : c.size = tokens.length
  width_eq : c.width = rules.width
  derivations_token : ∀ i token, tokens[i]? = some token → ∀ v < rules.width,
    c.derivations i i v = Chart.findingsOf v (rules.tokenFindings terminals token)
  derivations_span : ∀ i j, i < j → j < tokens.length → ∀ v < rules.width,
    c.derivations i j v = Chart.findingsOf v (rules.findings c i j)

/-- The chart after the tokens. -/
def tokenChart (rules : ChartRules) (terminals : NameIndex) (tokens : List String) : Chart :=
  Chart.fillAll (fun entry : String × Nat => (entry.2, entry.2))
    (fun _ entry => rules.tokenFindings terminals entry.1)
    (Chart.empty tokens.length rules.width) tokens.zipIdx

theorem size_tokenChart : (rules.tokenChart terminals tokens).size = tokens.length := by
  rw [tokenChart, Chart.size_fillAll, Chart.size_empty]

theorem width_tokenChart : (rules.tokenChart terminals tokens).width = rules.width := by
  rw [tokenChart, Chart.width_fillAll, Chart.width_empty]

theorem derivations_tokenChart {token : String} (htoken : tokens[i]? = some token)
    (hv : v < rules.width) :
    (rules.tokenChart terminals tokens).derivations i i v =
      Chart.findingsOf v (rules.tokenFindings terminals token) := by
  have hi := (List.getElem?_eq_some_iff.1 htoken).1
  have hmem : (token, i) ∈ tokens.zipIdx := List.mem_zipIdx_iff_getElem?.2 htoken
  obtain ⟨before, after, hsplit⟩ := List.append_of_mem hmem
  have hnodup : (tokens.zipIdx.map fun entry => (entry.2, entry.2)).Nodup := by
    have hplaces : (tokens.zipIdx.map fun entry => (entry.2, entry.2)) =
        (tokens.zipIdx.map Prod.snd).map fun k => (k, k) := by
      rw [List.map_map]
      rfl
    rw [hplaces, List.zipIdx_map_snd]
    exact List.Nodup.map (fun a b heq => (Prod.mk.inj heq).1) List.nodup_range'
  rw [tokenChart, Chart.derivations_fillAll_of_mem hnodup hsplit rfl ⟨Nat.le_refl i, hi, hv⟩,
    Chart.derivations_empty, List.nil_append]

theorem derivations_tokenChart_of_lt (hij : i < j) :
    (rules.tokenChart terminals tokens).derivations i j v = [] := by
  rw [tokenChart, Chart.derivations_fillAll_of_notMem, Chart.derivations_empty]
  intro hmem
  obtain ⟨entry, -, heq⟩ := List.mem_map.1 hmem
  obtain ⟨hi, hj⟩ := Prod.mk.inj heq
  omega

/-- The chart after the longer spans. -/
def spanChart (rules : ChartRules) (c : Chart) (n : Nat) : Chart :=
  Chart.fillAll id (fun c span => rules.findings c span.1 span.2) c (longSpans n)

theorem derivations_spanChart_self {n : Nat} :
    (rules.spanChart c n).derivations i i v = c.derivations i i v := by
  rw [spanChart, Chart.derivations_fillAll_of_notMem]
  rw [List.map_id, mem_longSpans_iff]
  omega

/-- **The chart in the end yields for a span what it yielded when the span was filled.** -/
theorem derivations_spanChart {n : Nat} (hij : i < j) (hj : j < n) (hcovers : c.Covers i j v) :
    (rules.spanChart c n).derivations i j v =
      c.derivations i j v ++ Chart.findingsOf v (rules.findings (rules.spanChart c n) i j) := by
  obtain ⟨before, after, hsplit⟩ := List.append_of_mem (mem_longSpans_iff.2 ⟨hij, hj⟩)
  have hnodup : ((longSpans n).map id).Nodup := by
    rw [List.map_id]
    exact nodup_longSpans n
  have hlater : ∀ span ∈ after, j - i ≤ span.2 - span.1 := by
    have hpairwise := hsplit ▸ pairwise_longSpans n
    have hcons := (List.pairwise_append.1 hpairwise).2.1
    exact fun span hspan => ((List.pairwise_cons.1 hcons).1 span hspan).2
  rw [spanChart, Chart.derivations_fillAll_of_mem hnodup hsplit rfl hcovers]
  refine congrArg _ (congrArg _ (findings_congr fun i' j' v' _ _ _ hshort => ?_))
  -- the spans within are not filled again after this one's turn
  have hnotMem : (i', j') ∉ ((i, j) :: after).map id := by
    rw [List.map_id, List.mem_cons, not_or]
    refine ⟨fun heq => ?_, fun hmem => ?_⟩
    · obtain ⟨rfl, rfl⟩ := Prod.mk.inj heq
      exact absurd hshort (Nat.lt_irrefl _)
    · exact absurd (hlater _ hmem) (Nat.not_le.2 hshort)
  rw [Chart.contains, Chart.contains, hsplit, Chart.fillAll_append,
    Chart.derivations_fillAll_of_notMem hnotMem]

theorem chart_eq_ok
    (h : ∀ token ∈ tokens, ∀ t, terminals.find? token = some t → t < rules.terminalHeads.length) :
    rules.chart terminals tokens =
      .ok (rules.spanChart (rules.tokenChart terminals tokens) tokens.length) := by
  have htokens : tokens.zipIdx.foldlM (rules.fillToken terminals)
      (Chart.empty tokens.length rules.width) = .ok (rules.tokenChart terminals tokens) := by
    refine foldlM_eq_ok fun c entry hentry => fillToken_eq_ok fun t ht => ?_
    exact h _ (List.fst_mem_of_mem_zipIdx hentry) t ht
  rw [chart, htokens]
  rfl

/-- **The chart of a sentence is filled,** if every token that is found has a list of heads. -/
theorem exists_chart
    (h : ∀ token ∈ tokens, ∀ t, terminals.find? token = some t → t < rules.terminalHeads.length) :
    ∃ c, rules.chart terminals tokens = .ok c ∧ rules.Fills terminals tokens c := by
  refine ⟨_, chart_eq_ok h, ?_, ?_, fun i token htoken v hv => ?_, fun i j hij hj v hv => ?_⟩
  · rw [spanChart, Chart.size_fillAll, size_tokenChart]
  · rw [spanChart, Chart.width_fillAll, width_tokenChart]
  · rw [derivations_spanChart_self, derivations_tokenChart htoken hv]
  · have hcovers : (rules.tokenChart terminals tokens).Covers i j v := by
      rw [Chart.Covers, size_tokenChart, width_tokenChart]
      exact ⟨Nat.le_of_lt hij, hj, hv⟩
    rw [derivations_spanChart hij hj hcovers, derivations_tokenChart_of_lt hij, List.nil_append]

end ChartRules

end ChomskyChart
