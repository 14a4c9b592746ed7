import ChomskyChart.Proofs.Forest.Trees

/-!
# The first tree of a forest

The first tree is built without the list of all trees: at every node the first derivation is taken,
and nothing else is looked at. That this does not fail rests on the chart. A derivation is listed
only if its two symbols were found on the two sides of the split, and what was found has a first
derivation again.

The list of all trees varies the root first and the left subtree before the right one, so its head
takes the first derivation everywhere, too.

## Main definitions

* `Forest.firstBy`: the first tree with a given derivation at its root

## Main results

* `exists_treeAt`, `exists_tree`: the first tree is the head of the list of all trees
* `split_of_mem_derivations`: a derivation of a filled chart splits its span within
-/

namespace ChomskyChart

namespace Forest

variable {f : Forest} {i j v : Nat} {d : Derivation} {t : ParseTree}

/-- The first tree of nonterminal `v` over the span from `i` to `j` that chooses the derivation at
the root. -/
def firstBy (f : Forest) (i j v : Nat) : Derivation → Except Failure ParseTree
  | .terminal _ => f.leaf i v
  | .binary split _ left right =>
    if i ≤ split ∧ split < j then do
      let name ← lookUp f.nonterminals v
      return .branch name i j (← f.treeAt i split left) (← f.treeAt (split + 1) j right)
    else
      outOfRange

theorem treeAt_eq (f : Forest) (i j v : Nat) :
    f.treeAt i j v = lookUp (f.chart.derivations i j v) 0 >>= f.firstBy i j v := by
  rw [treeAt]
  refine congrArg (lookUp (f.chart.derivations i j v) 0 >>= ·) (funext fun d => ?_)
  cases d with
  | terminal t => rfl
  | binary split number left right =>
    simp only [firstBy]
    split <;> rfl

/-- The list of all trees starts with those that take the first derivation. -/
theorem exists_treesAt_eq_cons {more : List Derivation} {trees others : List ParseTree}
    (h : f.chart.derivations i j v = d :: more) (hexpand : f.expand i j v d = .ok (t :: others))
    (htrees : f.treesAt i j v = .ok trees) : ∃ rest, trees = t :: rest := by
  rw [treesAt_eq, h, List.mapM_cons, hexpand] at htrees
  cases hmore : more.mapM (f.expand i j v) with
  | error e =>
    rw [hmore] at htrees
    exact nomatch htrees
  | ok lists =>
    rw [hmore] at htrees
    exact ⟨others ++ lists.flatten, (Except.ok.inj htrees).symm⟩

end Forest

namespace Grammar

variable {g : Grammar} {index : NameIndex} {tokens : List String} {c : Chart} {i j v : Nat}

/-- **A derivation of a filled chart splits its span within.** -/
theorem split_of_mem_derivations (hindex : index.Locates g.terminals)
    (hfills : g.sortedRules.Fills index tokens c) {split number left right : Nat}
    (h : .binary split number left right ∈ c.derivations i j v) : i ≤ split ∧ split < j := by
  by_cases hcovers : c.Covers i j v
  · obtain ⟨hij, hj, hv⟩ := hcovers
    rw [hfills.size_eq] at hj
    rw [hfills.width_eq] at hv
    obtain ⟨-, _, _, -, -, -, heq⟩ | ⟨_, _, _, _, hik, hkj, -, -, -, heq⟩ :=
      (mem_derivations_iff hindex hfills hij hj hv).1 h
    · exact nomatch heq
    · obtain ⟨rfl, -⟩ := Derivation.binary.inj heq
      exact ⟨hik, hkj⟩
  · rw [Chart.derivations_of_not_covers hcovers] at h
    exact nomatch h

/-- The first tree and the list of all trees for one derivation, given those of the parts. -/
theorem exists_firstBy (hwf : g.WellFormed) (hindex : index.Locates g.terminals)
    (hfills : g.sortedRules.Fills index tokens c) (hij : i ≤ j) (hj : j < tokens.length)
    (hv : v < g.nonterminals.length) {d : Derivation} (hd : d ∈ c.derivations i j v)
    (ih : ∀ i' j' v', j' - i' < j - i → i' ≤ j' → j' < tokens.length →
      v' < g.nonterminals.length → c.contains i' j' v' = true →
      ∃ t rest, (g.forestOf tokens c).treeAt i' j' v' = .ok t ∧
        (g.forestOf tokens c).treesAt i' j' v' = .ok (t :: rest)) :
    ∃ t rest, (g.forestOf tokens c).firstBy i j v d = .ok t ∧
      (g.forestOf tokens c).expand i j v d = .ok (t :: rest) := by
  have hname : lookUp (g.forestOf tokens c).nonterminals v = .ok g.nonterminals[v] :=
    lookUp_of_lt hv
  obtain ⟨rfl, p, token, htoken, -, -, rfl⟩ |
    ⟨k, number, l, r, hik, hkj, hnumber, hleft, hright, rfl⟩ :=
    (mem_derivations_iff hindex hfills hij hj hv).1 hd
  · have htokens : lookUp (g.forestOf tokens c).tokens i = .ok token := lookUp_eq_ok_iff.2 htoken
    refine ⟨.leaf g.nonterminals[v] token i, [], ?_, ?_⟩
    · rw [Forest.firstBy, Forest.leaf, hname, htokens]
      rfl
    · rw [Forest.expand, Forest.leaf, hname, htokens]
      rfl
  · obtain ⟨hl, hr⟩ := hwf.pair_lt (mem_binaryRules_iff.1 (List.mem_of_getElem? hnumber))
    obtain ⟨left, lefts, htreel, htreesl⟩ := ih i k l (by omega) hik (by omega) hl hleft
    obtain ⟨right, rights, htreer, htreesr⟩ := ih (k + 1) j r (by omega) hkj hj hr hright
    let branch (l r : ParseTree) : ParseTree := .branch g.nonterminals[v] i j l r
    refine ⟨branch left right,
      rights.map (branch left) ++ lefts.flatMap fun l => (right :: rights).map (branch l), ?_, ?_⟩
    · rw [Forest.firstBy, if_pos ⟨hik, hkj⟩, hname, htreel, htreer]
      rfl
    · rw [Forest.expand, if_pos ⟨hik, hkj⟩, hname, htreesl, htreesr]
      rfl

/-- **What was found over a span has a first tree,** which is the head of the list of its trees. -/
theorem exists_treeAt (hwf : g.WellFormed) (hnormal : g.InNormalForm)
    (hindex : index.Locates g.terminals) (hfills : g.sortedRules.Fills index tokens c)
    (hij : i ≤ j) (hj : j < tokens.length) (hv : v < g.nonterminals.length)
    (hfound : c.contains i j v = true) :
    ∃ t rest, (g.forestOf tokens c).treeAt i j v = .ok t ∧
      (g.forestOf tokens c).treesAt i j v = .ok (t :: rest) := by
  induction hn : j - i using Nat.strong_induction_on generalizing i j v with
  | _ n ih =>
    subst hn
    obtain ⟨trees, htrees, -⟩ := exists_treesAt hwf hnormal hindex hfills hij hj hv
    cases hderivations : c.derivations i j v with
    | nil => simp [Chart.contains, hderivations] at hfound
    | cons d more =>
      have hd : d ∈ c.derivations i j v := hderivations ▸ List.mem_cons_self
      obtain ⟨t, others, ht, hexpand⟩ := exists_firstBy hwf hindex hfills hij hj hv hd
        fun i' j' v' hlt hij' hj' hv' hfound' => ih _ hlt hij' hj' hv' hfound' rfl
      have hat : (g.forestOf tokens c).chart.derivations i j v = d :: more := hderivations
      obtain ⟨rest, rfl⟩ := Forest.exists_treesAt_eq_cons hat hexpand htrees
      refine ⟨t, rest, ?_, htrees⟩
      rw [Forest.treeAt_eq, hat]
      exact ht

/-- **An accepted sentence has a first tree,** which is the head of the list of its trees. The empty
sentence has one tree. -/
theorem exists_tree (hwf : g.WellFormed) (hnormal : g.InNormalForm)
    (hindex : index.Locates g.terminals) (hfills : g.sortedRules.Fills index tokens c)
    (haccepted : g.acceptsChart c = .ok true) :
    ∃ t rest, (g.forestOf tokens c).tree = .ok t ∧
      (g.forestOf tokens c).trees = .ok (t :: rest) := by
  have hlength : (g.forestOf tokens c).tokens.length = tokens.length := rfl
  have hstart := hwf.start_lt
  cases hn : tokens.length with
  | zero =>
    have hname : (g.forestOf tokens c).startName = .ok g.nonterminals[g.start] :=
      lookUp_of_lt hstart
    refine ⟨.empty g.nonterminals[g.start], [], ?_, ?_⟩
    · simp only [Forest.tree, hlength, hn, hname, bind, Except.bind]
      rfl
    · simp only [Forest.trees, hlength, hn, hname, bind, Except.bind]
      rfl
  | succ last =>
    have hfound : c.contains 0 last g.start = true := by
      simpa [acceptsChart, hfills.size_eq, hn] using haccepted
    simp only [Forest.tree, Forest.trees, hlength, hn]
    exact exists_treeAt hwf hnormal hindex hfills (Nat.zero_le last) (by omega) hstart hfound

end Grammar

end ChomskyChart
