import ChomskyChart.Proofs.Forest.Trees
import ChomskyChart.Proofs.NormalForm.Readings

/-!
# The number of parse trees

The parse trees of a sentence are made for grammars in normal form: they speak of names, have no
more than two subtrees to a node and no trees for single terminals. There are as many of them as
there are derivation trees. Both follow the rules for the root, then the cuts of the sentence, so
their numbers agree by induction on the span.

## Main definitions

* `Grammar.treesBy`: the trees over a span that choose a given body at the root

## Main results

* `encard_rooted`: the trees over a span
* `encard_isParseOf`: the parses of a sentence
-/

namespace ChomskyChart

section

variable {tokens : List String} {i j k : Nat}

theorem take_segment (hik : i ≤ k) (hkj : k < j) (hj : j < tokens.length) :
    (segment tokens i j).take (k + 1 - i) = segment tokens i k := by
  rw [segment_append hik hkj]
  exact List.take_left' (length_segment hik (by omega))

theorem drop_segment (hik : i ≤ k) (hkj : k < j) (hj : j < tokens.length) :
    (segment tokens i j).drop (k + 1 - i) = segment tokens (k + 1) j := by
  rw [segment_append hik hkj]
  exact List.drop_left' (length_segment hik (by omega))

/-- The readings of a pair of nonterminals without empty words: the cut lies inside the span. -/
theorem readings_pair_segment {terminals : List String} {M : Multiplicity} {l r : Nat}
    (hij : i ≤ j) (hj : j < tokens.length) (hl : M l [] = 0) (hr : M r [] = 0) :
    readings terminals M [.nonterminal l, .nonterminal r] (segment tokens i j) =
      ∑ p ∈ Finset.range (j - i),
        M l (segment tokens i (i + p)) * M r (segment tokens (i + p + 1) j) := by
  have hlength := length_segment hij hj
  have hlast : (segment tokens i j).drop (j - i + 1) = [] :=
    List.drop_eq_nil_of_le (by omega)
  rw [readings, hlength, show j + 1 - i + 1 = j - i + 1 + 1 by omega, Finset.sum_range_succ,
    Finset.sum_range_succ']
  simp only [readings_singleton, symbolReadings, List.take_zero, hl, hlast, hr, zero_mul, mul_zero,
    add_zero]
  refine Finset.sum_congr rfl fun p hp => ?_
  have hp := Finset.mem_range.1 hp
  rw [show p + 1 = i + p + 1 - i by omega, take_segment (by omega) (by omega) hj,
    drop_segment (by omega) (by omega) hj]

end

namespace Grammar

variable {g : Grammar} {tokens : List String} {t : ParseTree} {i j v : Nat} {name : String}

/-- The derivation trees over the tokens from `i` to `j` that have the given name and body at the
root. -/
def treesBy (g : Grammar) (tokens : List String) (i j : Nat) (name : String) :
    Body → Set ParseTree
  | [.terminal p] => { t | i = j ∧ ∃ token, tokens[i]? = some token ∧
      g.terminals[p]? = some token ∧ t = .leaf name token i }
  | [.nonterminal l, .nonterminal r] => ⋃ p ∈ Finset.range (j - i),
      (fun pair : ParseTree × ParseTree => .branch name i j pair.1 pair.2) ''
        ({ t | g.Rooted tokens i (i + p) l t } ×ˢ { t | g.Rooted tokens (i + p + 1) j r t })
  | _ => ∅

theorem setOf_rooted_eq (hwf : g.WellFormed) (hnormal : g.InNormalForm)
    (hname : g.nonterminals[v]? = some name) :
    { t | g.Rooted tokens i j v t } = ⋃ body ∈ g.bodies v, g.treesBy tokens i j name body := by
  ext t
  simp only [Set.mem_ofPred_eq, Set.mem_iUnion, mem_bodies_iff, exists_prop, rooted_iff hwf hname]
  constructor
  · rintro (⟨hij, p, token, htoken, hp, hrule, rfl⟩ | ⟨k, l, r, left, right, hrule, hl, hr, rfl⟩)
    · exact ⟨_, hrule, hij, token, htoken, hp, rfl⟩
    · have hik := hl.bounds.1
      have hkj := hr.bounds.1
      refine ⟨_, hrule, Set.mem_iUnion₂.2 ⟨k - i, Finset.mem_range.2 (by omega), ?_⟩⟩
      rw [Nat.add_sub_cancel' hik]
      exact ⟨(left, right), ⟨hl, hr⟩, rfl⟩
  · rintro ⟨body, hrule, ht⟩
    rcases hnormal.shape hrule with ⟨p, rfl⟩ | ⟨l, r, rfl⟩
    · obtain ⟨hij, token, htoken, hp, rfl⟩ := ht
      exact .inl ⟨hij, p, token, htoken, hp, hrule, rfl⟩
    · obtain ⟨p, -, ⟨left, right⟩, ⟨hl, hr⟩, rfl⟩ := Set.mem_iUnion₂.1 ht
      exact .inr ⟨i + p, l, r, left, right, hrule, hl, hr, rfl⟩

/-- A tree tells the body at its root. -/
theorem treesBy_unique (hwf : g.WellFormed) (hnormal : g.InNormalForm) {body body' : Body}
    (hbody : g.HasRule v body) (hbody' : g.HasRule v body')
    (ht : t ∈ g.treesBy tokens i j name body) (ht' : t ∈ g.treesBy tokens i j name body') :
    body = body' := by
  rcases hnormal.shape hbody with ⟨p, rfl⟩ | ⟨l, r, rfl⟩ <;>
    rcases hnormal.shape hbody' with ⟨p', rfl⟩ | ⟨l', r', rfl⟩
  · obtain ⟨-, token, htoken, hp, rfl⟩ := ht
    obtain ⟨-, token', htoken', hp', -⟩ := ht'
    obtain rfl := Option.some.inj (htoken.symm.trans htoken')
    obtain ⟨hlt, heq⟩ := List.getElem?_eq_some_iff.1 hp
    obtain ⟨hlt', heq'⟩ := List.getElem?_eq_some_iff.1 hp'
    rw [hwf.nodup_terminals.getElem_inj_iff.1 (heq.trans heq'.symm)]
  · obtain ⟨-, token, -, -, rfl⟩ := ht
    obtain ⟨_, -, _, -, heq⟩ := Set.mem_iUnion₂.1 ht'
    exact nomatch heq
  · obtain ⟨_, -, _, -, rfl⟩ := Set.mem_iUnion₂.1 ht
    obtain ⟨-, token, -, -, heq⟩ := ht'
    exact nomatch heq
  · obtain ⟨_, -, ⟨left, right⟩, ⟨hl, hr⟩, rfl⟩ := Set.mem_iUnion₂.1 ht
    obtain ⟨_, -, ⟨left', right'⟩, ⟨hl', hr'⟩, heq⟩ := Set.mem_iUnion₂.1 ht'
    obtain ⟨-, -, -, rfl, rfl⟩ := ParseTree.branch.inj heq
    rw [hwf.index_eq hl.root hl'.root, hwf.index_eq hr.root hr'.root]

theorem encard_treesBy_terminal (hij : i ≤ j) (hj : j < tokens.length) {p : Nat} :
    (g.treesBy tokens i j name [.terminal p]).encard =
      symbolReadings g.terminals g.treeCount (.terminal p) (segment tokens i j) := by
  rw [symbolReadings]
  split
  · rename_i hword
    have hlength := congrArg List.length hword
    rw [List.length_map, length_segment hij hj, List.length_singleton] at hlength
    obtain rfl : i = j := by omega
    have htoken := List.getElem?_eq_getElem hj
    rw [segment_self htoken] at hword
    rw [Set.encard_eq_one]
    refine ⟨.leaf name tokens[i] i, Set.ext fun t => ?_⟩
    rw [Set.mem_singleton_iff]
    constructor
    · rintro ⟨-, token, htoken', -, rfl⟩
      rw [Option.some.inj (htoken.symm.trans htoken')]
    · rintro rfl
      exact ⟨rfl, _, htoken, List.singleton_inj.1 hword, rfl⟩
  · rename_i hword
    rw [Set.encard_eq_zero, Set.eq_empty_iff_forall_notMem]
    rintro t ⟨rfl, token, htoken, hp, -⟩
    rw [segment_self htoken, hp] at hword
    exact hword rfl

theorem encard_treesBy_pair {l r : Nat} :
    (g.treesBy tokens i j name [.nonterminal l, .nonterminal r]).encard =
      ∑ p ∈ Finset.range (j - i), { t | g.Rooted tokens i (i + p) l t }.encard *
        { t | g.Rooted tokens (i + p + 1) j r t }.encard := by
  rw [treesBy, encard_biUnion_finset]
  · refine Finset.sum_congr rfl fun p _ => ?_
    rw [Set.InjOn.encard_image, Set.encard_prod]
    rintro ⟨left, right⟩ - ⟨left', right'⟩ - heq
    obtain ⟨-, -, -, rfl, rfl⟩ := ParseTree.branch.inj heq
    rfl
  · -- the split shows in the span of the left subtree
    intro p _ p' _ hne
    refine Set.disjoint_left.2 ?_
    rintro _ ⟨⟨left, right⟩, ⟨hl, -⟩, rfl⟩ ⟨⟨left', right'⟩, ⟨hl', -⟩, heq⟩
    obtain ⟨-, -, -, rfl, rfl⟩ := ParseTree.branch.inj heq
    have hspan := hl.span.symm.trans hl'.span
    exact hne (Nat.add_left_cancel (Prod.mk.inj (Option.some.inj hspan)).2)

/-- **There are as many trees over a span as derivation trees of its tokens.** -/
theorem encard_rooted (hwf : g.WellFormed) (hnormal : g.InNormalForm) (hij : i ≤ j)
    (hj : j < tokens.length) (hv : v < g.nonterminals.length) :
    { t | g.Rooted tokens i j v t }.encard = g.treeCount v (segment tokens i j) := by
  induction hn : j - i using Nat.strong_induction_on generalizing i j v with
  | _ n ih =>
    subst hn
    rw [setOf_rooted_eq hwf hnormal (List.getElem?_eq_getElem hv), treeCount_eq,
      encard_biUnion_finset]
    · refine Finset.sum_congr rfl fun body hbody => ?_
      have hrule := mem_bodies_iff.1 hbody
      rcases hnormal.shape hrule with ⟨p, rfl⟩ | ⟨l, r, rfl⟩
      · rw [encard_treesBy_terminal hij hj, readings_singleton]
      · obtain ⟨hl, hr⟩ := hwf.pair_lt hrule
        rw [encard_treesBy_pair, readings_pair_segment hij hj hnormal.proper.treeCount_nil
          hnormal.proper.treeCount_nil]
        refine Finset.sum_congr rfl fun p hp => ?_
        have hp := Finset.mem_range.1 hp
        rw [ih (i + p - i) (by omega) (by omega) (by omega) hl rfl,
          ih (j - (i + p + 1)) (by omega) (by omega) hj hr rfl]
    · intro body hbody body' hbody' hne
      refine Set.disjoint_left.2 fun t ht ht' => hne ?_
      exact treesBy_unique hwf hnormal (mem_bodies_iff.1 hbody) (mem_bodies_iff.1 hbody') ht ht'

/-- **There are as many parses of a sentence as derivation trees.** -/
theorem encard_isParseOf (hwf : g.WellFormed) (hnormal : g.InNormalForm) (htokens : tokens ≠ []) :
    { t | g.IsParseOf tokens t }.encard = g.treeCount g.start tokens := by
  obtain ⟨last, hlength⟩ := Nat.exists_eq_add_of_lt (List.length_pos_iff.2 htokens)
  rw [Nat.zero_add] at hlength
  simp only [isParseOf_iff_rooted hlength]
  rw [encard_rooted hwf hnormal (Nat.zero_le last) (by omega) hwf.start_lt, segment_all hlength]

end Grammar

end ChomskyChart
