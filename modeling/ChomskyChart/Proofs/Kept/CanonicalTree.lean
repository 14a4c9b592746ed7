import ChomskyChart.Proofs.Forest.FirstTree
import ChomskyChart.Proofs.Kept.BackPointers

/-!
# The first tree is canonical

A derivation of two or more tokens begins with a choice: where the tokens are split, and by which
rule. Of all choices that can be completed, the first tree of a forest takes at every node the one
with the smallest split, and of the rules for this split the one that comes first in its row. This
is said in terms of the grammar alone. A cell lists the choices by their split and then by the
number of the rule, and within one row the numbers grow with the places.

## Main definitions

* `Grammar.Begins`: a choice with which a derivation can begin
* `Grammar.BeginsFirst`: the first of these choices
* `Grammar.Canonical`: parse trees that take it at every branch

## Main results

* `Begins.mem_derivations`: a cell lists the choices
* `beginsFirst_of_derivations_eq_cons`: and the first of them in front
* `canonical_treeAt`, `canonical_tree`: first trees are canonical
* `parse_tree_canonical`: the first tree of an accepted sentence
-/

namespace ChomskyChart

/-- An entry that counts makes a difference between what is before it and what is before a later
place. -/
theorem countP_take_lt {α : Type} {p : α → Bool} {xs : List α} {x : α} {m n : Nat}
    (hx : xs[m]? = some x) (hp : p x = true) (hmn : m < n) :
    (xs.take m).countP p < (xs.take n).countP p := by
  have hnext : (xs.take (m + 1)).countP p = (xs.take m).countP p + 1 := by
    rw [List.take_add_one, hx, List.countP_append]
    simp [hp]
  have hprefix : (xs.take (m + 1)).countP p ≤ (xs.take n).countP p :=
    (List.take_prefix_take_left (by omega)).sublist.countP_le
  omega

namespace Grammar

/-! ### How a derivation begins -/

/-- A derivation of the tokens from `i` to `j` from nonterminal `v` can begin with the rule at the
given place of its row, whose nonterminals `left` and `right` derive the tokens up to and after
`split`. -/
structure Begins (g : Grammar) (tokens : List String) (i j v split place left right : Nat) :
    Prop where
  rule : ∃ row, g.rows[v]? = some row ∧
    row[place]? = some [.nonterminal left, .nonterminal right]
  first_le : i ≤ split
  lt_last : split < j
  derives_left : g.Derives left (segment tokens i split)
  derives_right : g.Derives right (segment tokens (split + 1) j)

/-- No derivation begins with a smaller split, and none begins with the same split and a rule that
comes earlier in the row. -/
structure BeginsFirst (g : Grammar) (tokens : List String)
    (i j v split place left right : Nat) : Prop where
  begins : g.Begins tokens i j v split place left right
  first : ∀ split' place' left' right', g.Begins tokens i j v split' place' left' right' →
    split < split' ∨ split = split' ∧ place ≤ place'

/-- At every branch of the tree its nonterminal begins with the first choice that can be
completed. -/
def Canonical (g : Grammar) (tokens : List String) : ParseTree → Prop
  | .empty _ => True
  | .leaf _ _ _ => True
  | .branch name i j left right =>
    (∃ v split place l r, g.nonterminals[v]? = some name ∧
      g.Rooted tokens i split l left ∧ g.Rooted tokens (split + 1) j r right ∧
      g.BeginsFirst tokens i j v split place l r) ∧
    g.Canonical tokens left ∧ g.Canonical tokens right

variable {g : Grammar} {index : NameIndex} {tokens : List String} {c : Chart} {t : ParseTree}
variable {i j v split place left right : Nat}

/-! ### Choices and the cells of a chart -/

/-- **A cell lists every choice,** under the number that the table gives to its rule. -/
theorem Begins.mem_derivations (h : g.WellFormed) (hnormal : g.InNormalForm)
    (hindex : index.Locates g.terminals) (hfills : g.sortedRules.Fills index tokens c)
    (hj : j < tokens.length) {row : Row} (hrow : g.rows[v]? = some row)
    (hbegins : g.Begins tokens i j v split place left right) :
    .binary split ((g.rows.take v).flatten.countP isPair + (row.take place).countP isPair) left
      right
      ∈ c.derivations i j v := by
  obtain ⟨⟨row', hrow', hplace⟩, hfirst, hlast, hleft, hright⟩ := hbegins
  obtain rfl := Option.some.inj (hrow.symm.trans hrow')
  exact (mem_derivations_span_iff h hnormal hindex hfills (Nat.lt_of_le_of_lt hfirst hlast) hj).2
    ⟨split, _, left, right, hfirst, hlast, ⟨row, place, hrow, hplace, rfl⟩, hleft, hright, rfl⟩

/-- **The first entry of a cell is the first choice.** All others come after it, so their split is
larger, or it is the same and the number of the rule is not smaller. -/
theorem beginsFirst_of_derivations_eq_cons (h : g.WellFormed) (hnormal : g.InNormalForm)
    (hindex : index.Locates g.terminals) (hfills : g.sortedRules.Fills index tokens c)
    (hij : i < j) (hj : j < tokens.length) {number : Nat} {more : List Derivation}
    (hcell : c.derivations i j v = .binary split number left right :: more) :
    ∃ place, g.BeginsFirst tokens i j v split place left right := by
  have hmem : .binary split number left right ∈ c.derivations i j v :=
    hcell ▸ List.mem_cons_self
  obtain ⟨_, _, _, _, hfirst, hlast, ⟨row, place, hrow, hplace, hnumber⟩, hleft, hright, heq⟩ :=
    (mem_derivations_span_iff h hnormal hindex hfills hij hj).1 hmem
  obtain ⟨rfl, rfl, rfl, rfl⟩ := Derivation.binary.inj heq
  refine ⟨place, ⟨⟨row, hrow, hplace⟩, hfirst, hlast, hleft, hright⟩, ?_⟩
  intro split' place' left' right' hbegins
  have hother := hbegins.mem_derivations h hnormal hindex hfills hj hrow
  have horder := pairwise_derivations_span (v := v) hfills hij hj
  rw [hcell] at hother horder
  have hle : split < split' ∨ split = split' ∧
      (row.take place).countP isPair ≤ (row.take place').countP isPair := by
    rcases List.mem_cons.1 hother with hsame | hlater
    · obtain ⟨rfl, heq, -, -⟩ := Derivation.binary.inj hsame
      exact .inr ⟨rfl, by omega⟩
    · exact ((List.pairwise_cons.1 horder).1 _ hlater).imp_right
        fun ⟨hsplit, hlt⟩ => ⟨hsplit, by omega⟩
  refine hle.imp_right fun ⟨hsplit, hcount⟩ => ⟨hsplit, ?_⟩
  -- an earlier place would have fewer pairs before it
  obtain ⟨row', hrow', hplace'⟩ := hbegins.rule
  obtain rfl := Option.some.inj (hrow.symm.trans hrow')
  refine Nat.le_of_not_lt fun hlt => ?_
  have := countP_take_lt (p := isPair) hplace' rfl hlt
  omega

/-! ### First trees -/

/-- The first tree over a span is one of its derivation trees. -/
theorem rooted_of_treeAt (h : g.WellFormed) (hnormal : g.InNormalForm)
    (hindex : index.Locates g.terminals) (hfills : g.sortedRules.Fills index tokens c)
    (hij : i ≤ j) (hj : j < tokens.length) (hv : v < g.nonterminals.length)
    (htree : (g.forestOf tokens c).treeAt i j v = .ok t) : g.Rooted tokens i j v t := by
  have hfound : c.contains i j v = true := by
    rw [Forest.treeAt_eq] at htree
    obtain ⟨d, hd, -⟩ := bind_eq_ok_iff.1 htree
    exact contains_iff_exists_mem.2 ⟨d, List.mem_of_getElem? (lookUp_eq_ok_iff.1 hd)⟩
  obtain ⟨first, rest, hfirst, htrees⟩ := exists_treeAt h hnormal hindex hfills hij hj hv hfound
  obtain rfl := Except.ok.inj (htree.symm.trans hfirst)
  obtain ⟨trees, htrees', hlists⟩ := exists_treesAt h hnormal hindex hfills hij hj hv
  obtain rfl := Except.ok.inj (htrees.symm.trans htrees')
  exact (hlists.mem_iff t).1 List.mem_cons_self

/-- **The first tree over a span is canonical,** by induction on the span. -/
theorem canonical_treeAt (h : g.WellFormed) (hnormal : g.InNormalForm)
    (hindex : index.Locates g.terminals) (hfills : g.sortedRules.Fills index tokens c)
    (hj : j < tokens.length) (hv : v < g.nonterminals.length)
    (htree : (g.forestOf tokens c).treeAt i j v = .ok t) : g.Canonical tokens t := by
  induction hn : j - i using Nat.strong_induction_on generalizing i j v t with
  | _ n ih =>
    subst hn
    rw [Forest.treeAt_eq] at htree
    obtain ⟨d, hd, htree⟩ := bind_eq_ok_iff.1 htree
    cases d with
    | terminal p =>
      obtain ⟨name, -, htree⟩ := bind_eq_ok_iff.1 htree
      obtain ⟨token, -, htree⟩ := bind_eq_ok_iff.1 htree
      exact Except.ok.inj htree ▸ trivial
    | binary split number l r =>
      rw [Forest.firstBy] at htree
      split at htree
      · rename_i hsplit
        obtain ⟨hfirst, hlast⟩ := hsplit
        obtain ⟨name, hname, htree⟩ := bind_eq_ok_iff.1 htree
        obtain ⟨left, hleft, htree⟩ := bind_eq_ok_iff.1 htree
        obtain ⟨right, hright, htree⟩ := bind_eq_ok_iff.1 htree
        obtain ⟨more, hcell⟩ : ∃ more, c.derivations i j v = .binary split number l r :: more := by
          rw [← List.head?_eq_some_iff, List.head?_eq_getElem?]
          exact lookUp_eq_ok_iff.1 hd
        obtain ⟨place, hbegins⟩ := beginsFirst_of_derivations_eq_cons h hnormal hindex hfills
          (Nat.lt_of_le_of_lt hfirst hlast) hj hcell
        obtain ⟨row, hrow, hplace⟩ := hbegins.begins.rule
        obtain ⟨hl, hr⟩ := h.pair_lt ⟨row, hrow, List.mem_of_getElem? hplace⟩
        rw [← Except.ok.inj htree]
        refine ⟨⟨v, split, place, l, r, lookUp_eq_ok_iff.1 hname, ?_, ?_, hbegins⟩, ?_, ?_⟩
        · exact rooted_of_treeAt h hnormal hindex hfills hfirst (by omega) hl hleft
        · exact rooted_of_treeAt h hnormal hindex hfills (by omega) hj hr hright
        · exact ih _ (by omega) (by omega) hl hleft rfl
        · exact ih _ (by omega) hj hr hright rfl
      · cases htree

/-- **The first tree of a sentence is canonical.** If there are tokens, it is a parse of them. -/
theorem canonical_tree (h : g.WellFormed) (hnormal : g.InNormalForm)
    (hindex : index.Locates g.terminals) (hfills : g.sortedRules.Fills index tokens c)
    (htree : (g.forestOf tokens c).tree = .ok t) :
    g.Canonical tokens t ∧ (tokens ≠ [] → g.IsParseOf tokens t) := by
  have hlength : (g.forestOf tokens c).tokens.length = tokens.length := rfl
  cases hn : tokens.length with
  | zero =>
    simp only [Forest.tree, hlength, hn] at htree
    obtain ⟨name, -, htree⟩ := bind_eq_ok_iff.1 htree
    exact ⟨Except.ok.inj htree ▸ trivial,
      fun hne => absurd (List.eq_nil_of_length_eq_zero hn) hne⟩
  | succ last =>
    simp only [Forest.tree, hlength, hn] at htree
    have hj : last < tokens.length := by omega
    exact ⟨canonical_treeAt h hnormal hindex hfills hj h.start_lt htree, fun _ =>
      (isParseOf_iff_rooted hn).2
        (rooted_of_treeAt h hnormal hindex hfills (Nat.zero_le last) hj h.start_lt htree)⟩

end Grammar

/-! ### The first tree of an accepted sentence -/

namespace KeptGrammar

variable {k : KeptGrammar} {tokens : List String} {rules : ChartRules}

/-- **The first tree exists and is canonical.** For every accepted sentence it is found, since no
cell that it asks is empty, and it is the head of the list of all trees. At each of its branches no
derivation of the same tokens begins with a smaller split, and none begins with the same split and a
rule that comes earlier in the row. -/
theorem parse_tree_canonical (hrules : k.grammar.chartRules = .ok rules)
    (hcurrent : k.TerminalsCurrent) (haccepted : (recognize tokens k).1 = .ok true) :
    ∃ f t rest, (parse tokens k).1 = .ok (some f) ∧ f.tree = .ok t ∧ f.trees = .ok (t :: rest) ∧
      k.grammar.Canonical tokens t ∧ (tokens ≠ [] → k.grammar.IsParseOf tokens t) := by
  obtain ⟨hvalid, hnormal, -⟩ := Grammar.chartRules_eq_ok_iff.1 hrules
  have hlocates := hcurrent.locates hvalid.nodup_terminals
  obtain ⟨c, hfills, hread⟩ := exists_onChart hrules hcurrent tokens
  rw [recognize, hread] at haccepted
  obtain ⟨t, rest, htree, htrees⟩ := Grammar.exists_tree hvalid hnormal hlocates hfills haccepted
  obtain ⟨hcanonical, hparse⟩ := Grammar.canonical_tree hvalid hnormal hlocates hfills htree
  refine ⟨k.grammar.forestOf tokens c, t, rest, ?_, htree, htrees, hcanonical, hparse⟩
  rw [parse, hread, Grammar.forest?, haccepted]
  rfl

/-- Three letters have trees with either split, and with either copy of a repeated body. -/
theorem parse_tree_canonical_repeatedPairs :
    repeatedPairs.chartRules = .ok repeatedPairs.sortedRules ∧
    (declared repeatedPairs).TerminalsCurrent ∧
    (recognize ["a", "a", "a"] (declared repeatedPairs)).1 = .ok true ∧
    ∃ f t rest, (parse ["a", "a", "a"] (declared repeatedPairs)).1 = .ok (some f) ∧
      f.tree = .ok t ∧ f.trees = .ok (t :: rest) ∧
      repeatedPairs.Canonical ["a", "a", "a"] t ∧ repeatedPairs.IsParseOf ["a", "a", "a"] t := by
  have hrules : repeatedPairs.chartRules = .ok repeatedPairs.sortedRules := by decide
  have hcurrent := terminalsCurrent_declared repeatedPairs
  have haccepted : (recognize ["a", "a", "a"] (declared repeatedPairs)).1 = .ok true := by
    decide +kernel
  obtain ⟨f, t, rest, hparse, htree, htrees, hcanonical, hroot⟩ :=
    parse_tree_canonical (k := declared repeatedPairs) hrules hcurrent haccepted
  exact ⟨hrules, hcurrent, haccepted, f, t, rest, hparse, htree, htrees, hcanonical,
    hroot (List.cons_ne_nil _ _)⟩

end KeptGrammar

end ChomskyChart
