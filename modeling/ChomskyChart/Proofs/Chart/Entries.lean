import ChomskyChart.Proofs.Chart.Correctness

/-!
# What the cells of a chart list

A cell lists the derivations of a nonterminal over a span, one for each choice of a split and a
rule, and it lists them by the split first and then by the number of the rule. Numbers tell rules
apart, so no derivation of two or more tokens comes twice. For a single token it does come twice if
a row has the body twice.

## Main definitions

* `Derivation.Precedes`: the order of the derivations of a longer span

## Main results

* `mem_derivations_iff`: what a cell lists
* `pairwise_derivations`: in which order
* `nodup_derivations`: nothing twice, if no row has a body twice
-/

namespace ChomskyChart

/-- The split is smaller, or it is the same and the rule has a smaller number. -/
def Derivation.Precedes : Derivation → Derivation → Prop
  | .binary split number _ _, .binary split' number' _ _ =>
    split < split' ∨ split = split' ∧ number < number'
  | _, _ => False

theorem Derivation.Precedes.ne {d d' : Derivation} (h : d.Precedes d') : d ≠ d' := by
  rintro rfl
  cases d with
  | terminal t => exact h
  | binary split number left right =>
    rcases h with hlt | ⟨-, hlt⟩
    · exact Nat.lt_irrefl split hlt
    · exact Nat.lt_irrefl number hlt

/-! ### Order -/

/-- The findings of a span come in order, if the rules come in the order of their numbers. -/
theorem ChartRules.pairwise_findings {rules : ChartRules} {c : Chart} {i j : Nat}
    (hnumbers : rules.binaryRules.Pairwise fun a b => a.2 < b.2) :
    (rules.findings c i j).Pairwise fun a b => a.2.Precedes b.2 := by
  have hfinding : ∀ (p : Nat) (a : BinaryRule × Nat) (b : Nat × Derivation),
      (if c.contains i (i + p) a.1.left && c.contains (i + p + 1) j a.1.right then
        some (a.1.head, Derivation.binary (i + p) a.2 a.1.left a.1.right) else none) = some b →
      b.2 = .binary (i + p) a.2 a.1.left a.1.right := by
    intro p a b heq
    split at heq
    · exact Option.some.inj heq ▸ rfl
    · exact nomatch heq
  rw [findings, List.pairwise_flatMap]
  constructor
  · intro p _
    rw [List.pairwise_filterMap]
    refine hnumbers.imp fun {a a'} hlt b hb b' hb' => ?_
    rw [hfinding p a b hb, hfinding p a' b' hb']
    exact .inr ⟨rfl, hlt⟩
  · refine List.Pairwise.imp (fun {p p'} hlt b hb b' hb' => ?_) List.pairwise_lt_range
    obtain ⟨a, -, hb⟩ := List.mem_filterMap.1 hb
    obtain ⟨a', -, hb'⟩ := List.mem_filterMap.1 hb'
    rw [hfinding p a b hb, hfinding p' a' b' hb']
    exact .inl (Nat.add_lt_add_left hlt i)

/-- What is found for one nonterminal comes in the order of all findings. -/
theorem Chart.pairwise_findingsOf {R : Derivation → Derivation → Prop} {v : Nat}
    {findings : List (Nat × Derivation)}
    (h : findings.Pairwise fun a b => a.1 = v → b.1 = v → R a.2 b.2) :
    (findingsOf v findings).Pairwise R := by
  rw [findingsOf, List.pairwise_filterMap]
  refine h.imp fun {a b} hR d hd d' hd' => ?_
  obtain ⟨ha, heq⟩ := Option.ite_none_right_eq_some.1 hd
  obtain ⟨hb, heq'⟩ := Option.ite_none_right_eq_some.1 hd'
  exact Option.some.inj heq ▸ Option.some.inj heq' ▸ hR ha hb

namespace Grammar

variable {g : Grammar} {index : NameIndex} {tokens : List String} {c : Chart} {i j v : Nat}
variable {d : Derivation}

/-! ### Rules without repetition -/

theorem nodup_headedBodies (h : ∀ row ∈ g.rows, row.Nodup) : g.headedBodies.Nodup := by
  rw [headedBodies, List.nodup_iff_pairwise_ne, List.pairwise_flatMap]
  constructor
  · rintro ⟨row, head⟩ hentry
    refine (List.pairwise_map).2 ((h row (List.fst_mem_of_mem_zipIdx hentry)).imp ?_)
    exact fun hne heq => hne (Prod.mk.inj heq).2
  · have hheads : (g.rows.zipIdx.map Prod.snd).Pairwise (· < ·) := by
      rw [List.zipIdx_map_snd]
      exact List.pairwise_lt_range' 1
    refine (List.pairwise_map.1 hheads).imp fun {a b} hlt x hx y hy heq => ?_
    obtain ⟨body, -, rfl⟩ := List.mem_map.1 hx
    obtain ⟨body', -, rfl⟩ := List.mem_map.1 hy
    exact Nat.ne_of_lt hlt (Prod.mk.inj heq).1

theorem nodup_headsOf (h : ∀ row ∈ g.rows, row.Nodup) (t : Nat) : (g.headsOf t).Nodup := by
  refine List.Nodup.filterMap ?_ (nodup_headedBodies h)
  rintro ⟨head, body⟩ ⟨head', body'⟩ found hfound hfound'
  simp only [Option.mem_def, Option.ite_none_right_eq_some, Option.some.injEq] at hfound hfound'
  obtain ⟨rfl, rfl⟩ := hfound
  obtain ⟨rfl, rfl⟩ := hfound'
  rfl

theorem nodup_binaryRules (h : ∀ row ∈ g.rows, row.Nodup) : g.binaryRules.Nodup := by
  refine List.Nodup.filterMap ?_ (nodup_headedBodies h)
  rintro ⟨head, body⟩ ⟨head', body'⟩ rule hrule hrule'
  match body, body', hrule, hrule' with
  | [.nonterminal l, .nonterminal r], [.nonterminal l', .nonterminal r'], hrule, hrule' =>
    obtain rfl := Option.some.inj hrule
    obtain ⟨rfl, rfl, rfl⟩ := BinaryRule.mk.inj (Option.some.inj hrule')
    rfl

/-! ### Cells -/

/-- **A cell lists what its rules yield:** for a token the rules to it, and for several tokens the
rules and splits whose parts are contained. -/
theorem mem_derivations_iff (hindex : index.Locates g.terminals)
    (hfills : g.sortedRules.Fills index tokens c) (hij : i ≤ j) (hj : j < tokens.length)
    (hv : v < g.nonterminals.length) :
    d ∈ c.derivations i j v ↔
      (i = j ∧ ∃ t token, tokens[i]? = some token ∧ g.terminals[t]? = some token ∧
        g.HasRule v [.terminal t] ∧ d = .terminal t) ∨
      ∃ k number left right, i ≤ k ∧ k < j ∧ g.binaryRules[number]? = some ⟨v, left, right⟩ ∧
        c.contains i k left = true ∧ c.contains (k + 1) j right = true ∧
        d = .binary k number left right := by
  rcases Nat.eq_or_lt_of_le hij with rfl | hlt
  · have htoken := List.getElem?_eq_getElem hj
    rw [hfills.derivations_token i _ htoken v hv, Chart.mem_findingsOf_iff,
      mem_tokenFindings_iff hindex]
    constructor
    · rintro ⟨t, ht, hrule, rfl⟩
      exact .inl ⟨rfl, t, _, htoken, ht, hrule, rfl⟩
    · rintro (⟨-, t, token, htoken', ht, hrule, rfl⟩ | ⟨k, _, _, _, hik, hki, -⟩)
      · obtain rfl := Option.some.inj (htoken.symm.trans htoken')
        exact ⟨t, ht, hrule, rfl⟩
      · exact absurd hki (Nat.not_lt.2 hik)
  · rw [hfills.derivations_span i j hlt hj v hv, Chart.mem_findingsOf_iff, mem_findings_iff]
    constructor
    · exact .inr
    · rintro (⟨rfl, -⟩ | h)
      · exact absurd hlt (Nat.lt_irrefl i)
      · exact h

/-- **Derivations of several tokens are in order.** -/
theorem pairwise_derivations (hfills : g.sortedRules.Fills index tokens c) (hij : i < j)
    (hj : j < tokens.length) (hv : v < g.nonterminals.length) :
    (c.derivations i j v).Pairwise Derivation.Precedes := by
  have hnumbers : g.sortedRules.binaryRules.Pairwise fun a b => a.2 < b.2 := by
    rw [sortedRules, ← List.pairwise_map (f := Prod.snd), List.zipIdx_map_snd]
    exact List.pairwise_lt_range' 1
  rw [hfills.derivations_span i j hij hj v hv]
  refine Chart.pairwise_findingsOf ((ChartRules.pairwise_findings hnumbers).imp ?_)
  exact fun hprecedes _ _ => hprecedes

/-- **No derivation is listed twice,** if no row has a body twice. -/
theorem nodup_derivations (hrows : ∀ row ∈ g.rows, row.Nodup)
    (hfills : g.sortedRules.Fills index tokens c) (hij : i ≤ j) (hj : j < tokens.length)
    (hv : v < g.nonterminals.length) : (c.derivations i j v).Nodup := by
  rcases Nat.eq_or_lt_of_le hij with rfl | hlt
  · rw [hfills.derivations_token i _ (List.getElem?_eq_getElem hj) v hv,
      ChartRules.tokenFindings]
    split
    · exact List.nodup_nil
    · rename_i t _
      -- the findings of a token differ in their heads, so there is at most one for `v`
      have hheads : (g.sortedRules.terminalHeads[t]?.getD []).Nodup := by
        rw [sortedRules, List.getElem?_map]
        cases (List.range g.terminals.length)[t]? with
        | none => exact List.nodup_nil
        | some t' => exact nodup_headsOf hrows t'
      refine Chart.pairwise_findingsOf (List.pairwise_map.2 (hheads.imp ?_))
      exact fun hne ha hb => absurd (ha.trans hb.symm) hne
  · exact (pairwise_derivations hfills hlt hj hv).imp Derivation.Precedes.ne

end Grammar

end ChomskyChart
