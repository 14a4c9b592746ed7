import Mathlib.Data.List.Forall2
import Mathlib.Data.List.Nodup
import ChomskyChart.Forest.Basic
import ChomskyChart.Proofs.Chart.Entries

/-!
# The trees of a forest

A parse tree says of each node by which production it comes about, in names, and which tokens it
covers. Whether that is true can be checked node by node, without a chart and without positions of
symbols: this is `Grammar.Justifies`. The trees that a forest lists are exactly those that pass, and
none is listed twice, by induction on the span.

Soundness and completeness come from what the cells list. That nothing is listed twice rests on
names: the children of a node tell its rule, since no two nonterminals have one name, and the span
of its left child tells its split. Repeated bodies would spoil that, and are excluded.

## Main definitions

* `Grammar.HasProduction`: the rules of a grammar, by name
* `Grammar.Justifies`, `Grammar.IsParseOf`: the derivation trees of a sentence
* `Forest.expand`: the trees that choose a given derivation at the root

## Main results

* `exists_treesAt`: the trees over a span
* `exists_trees`: the trees of a sentence
-/

namespace ChomskyChart

/-! ### Productions by name -/

theorem mapM_eq_ok_iff {α β : Type} {f : α → Except Failure β} {xs : List α} {ys : List β} :
    xs.mapM f = .ok ys ↔ List.Forall₂ (fun x y => f x = .ok y) xs ys := by
  induction xs generalizing ys with
  | nil =>
    rw [List.mapM_nil, List.forall₂_nil_left_iff]
    exact ⟨fun h => (Except.ok.inj h).symm, fun h => h ▸ rfl⟩
  | cons x rest ih =>
    rw [List.mapM_cons, List.forall₂_cons_left_iff]
    cases hx : f x with
    | error e => simp [bind, Except.bind]
    | ok y =>
      simp only [← ih]
      cases rest.mapM f <;> simp [bind, Except.bind, pure, Except.pure, eq_comm]

namespace Grammar

variable {g : Grammar}

/-- One of the productions that the table stands for. -/
def HasProduction (g : Grammar) (p : Production) : Prop :=
  ∃ head body, g.HasRule head body ∧ g.production head body = .ok p

theorem production_eq_ok_iff {head : Nat} {body : Body} {p : Production} :
    g.production head body = .ok p ↔
      g.nonterminals[head]? = some p.head ∧
        List.Forall₂ (fun s symbol => g.symbol s = .ok symbol) body p.body := by
  rw [← lookUp_eq_ok_iff, ← mapM_eq_ok_iff, production, nonterminalName]
  obtain ⟨name, symbols⟩ := p
  cases lookUp g.nonterminals head with
  | error e => simp [bind, Except.bind]
  | ok name' => cases body.mapM g.symbol <;> simp [bind, Except.bind, pure, Except.pure]

theorem symbol_eq_terminal_iff {s : SymbolId} {name : String} :
    g.symbol s = .ok (.terminal name) ↔ ∃ t, s = .terminal t ∧ g.terminals[t]? = some name := by
  cases s with
  | terminal t =>
    simp only [symbol, ← lookUp_eq_ok_iff]
    cases hname : lookUp g.terminals t <;> simp [bind, Except.bind, pure, Except.pure, hname]
  | nonterminal index =>
    rw [symbol]
    cases lookUp g.nonterminals index <;> simp [bind, Except.bind, pure, Except.pure]

theorem symbol_eq_nonterminal_iff {s : SymbolId} {name : String} :
    g.symbol s = .ok (.nonterminal name) ↔
      ∃ index, s = .nonterminal index ∧ g.nonterminals[index]? = some name := by
  cases s with
  | nonterminal index =>
    simp only [symbol, ← lookUp_eq_ok_iff]
    cases hname : lookUp g.nonterminals index <;> simp [bind, Except.bind, pure, Except.pure, hname]
  | terminal t =>
    rw [symbol]
    cases lookUp g.terminals t <;> simp [bind, Except.bind, pure, Except.pure]

theorem hasProduction_terminal_iff {name token : String} :
    g.HasProduction ⟨name, [.terminal token]⟩ ↔
      ∃ v t, g.nonterminals[v]? = some name ∧ g.terminals[t]? = some token ∧
        g.HasRule v [.terminal t] := by
  simp only [HasProduction, production_eq_ok_iff, List.forall₂_cons_right_iff,
    List.forall₂_nil_right_iff, symbol_eq_terminal_iff]
  constructor
  · rintro ⟨v, _, hrule, hname, _, _, ⟨t, rfl, ht⟩, rfl, rfl⟩
    exact ⟨v, t, hname, ht, hrule⟩
  · rintro ⟨v, t, hname, ht, hrule⟩
    exact ⟨v, _, hrule, hname, _, _, ⟨t, rfl, ht⟩, rfl, rfl⟩

theorem hasProduction_pair_iff {name left right : String} :
    g.HasProduction ⟨name, [.nonterminal left, .nonterminal right]⟩ ↔
      ∃ v l r, g.nonterminals[v]? = some name ∧ g.nonterminals[l]? = some left ∧
        g.nonterminals[r]? = some right ∧ g.HasRule v [.nonterminal l, .nonterminal r] := by
  simp only [HasProduction, production_eq_ok_iff, List.forall₂_cons_right_iff,
    List.forall₂_nil_right_iff, symbol_eq_nonterminal_iff]
  constructor
  · rintro ⟨v, _, hrule, hname, _, _, ⟨l, rfl, hl⟩, ⟨_, _, ⟨r, rfl, hr⟩, rfl, rfl⟩, rfl⟩
    exact ⟨v, l, r, hname, hl, hr, hrule⟩
  · rintro ⟨v, l, r, hname, hl, hr, hrule⟩
    exact ⟨v, _, hrule, hname, _, _, ⟨l, rfl, hl⟩, ⟨_, _, ⟨r, rfl, hr⟩, rfl, rfl⟩, rfl⟩

/-! ### Derivation trees -/

/-- Every leaf names a token of the sentence and a production to it. Every branch names a production
to the nonterminals of its two subtrees, and these cover adjacent spans that make up its own. -/
def Justifies (g : Grammar) (tokens : List String) : ParseTree → Prop
  | .empty _ => False
  | .leaf name token position =>
    tokens[position]? = some token ∧ g.HasProduction ⟨name, [.terminal token]⟩
  | .branch name first last left right =>
    g.HasProduction ⟨name, [.nonterminal left.nonterminal, .nonterminal right.nonterminal]⟩ ∧
    (∃ split, left.span = some (first, split) ∧ right.span = some (split + 1, last)) ∧
    g.Justifies tokens left ∧ g.Justifies tokens right

/-- A derivation tree of a sentence with at least one token, from the start symbol. -/
structure IsParseOf (g : Grammar) (tokens : List String) (t : ParseTree) : Prop where
  root : g.startName = .ok t.nonterminal
  span : t.span = some (0, tokens.length - 1)
  justified : g.Justifies tokens t

/-- A derivation tree of the tokens from `i` to `j`, from nonterminal `v`. -/
structure Rooted (g : Grammar) (tokens : List String) (i j v : Nat) (t : ParseTree) : Prop where
  justified : g.Justifies tokens t
  span : t.span = some (i, j)
  root : g.nonterminals[v]? = some t.nonterminal

variable {tokens : List String} {t : ParseTree} {i j v : Nat}

/-- A justified tree covers at least one token, and only tokens of the sentence. -/
theorem Justifies.bounds (h : g.Justifies tokens t) (hspan : t.span = some (i, j)) :
    i ≤ j ∧ j < tokens.length := by
  induction t generalizing i j with
  | empty name => exact h.elim
  | leaf name token position =>
    obtain ⟨rfl, rfl⟩ := Prod.mk.inj (Option.some.inj hspan)
    exact ⟨Nat.le_refl _, (List.getElem?_eq_some_iff.1 h.1).1⟩
  | branch name first last left right ihleft ihright =>
    obtain ⟨rfl, rfl⟩ := Prod.mk.inj (Option.some.inj hspan)
    obtain ⟨-, ⟨split, hleft, hright⟩, hl, hr⟩ := h
    have := ihleft hl hleft
    have := ihright hr hright
    omega

/-- **The leaves of a justified tree are the tokens that it covers.** -/
theorem Justifies.leaves_eq (h : g.Justifies tokens t) (hspan : t.span = some (i, j)) :
    t.leaves = segment tokens i j := by
  induction t generalizing i j with
  | empty name => exact h.elim
  | leaf name token position =>
    obtain ⟨rfl, rfl⟩ := Prod.mk.inj (Option.some.inj hspan)
    exact (segment_self h.1).symm
  | branch name first last left right ihleft ihright =>
    obtain ⟨rfl, rfl⟩ := Prod.mk.inj (Option.some.inj hspan)
    obtain ⟨-, ⟨split, hleft, hright⟩, hl, hr⟩ := h
    have hbefore := hl.bounds hleft
    have hafter := hr.bounds hright
    rw [ParseTree.leaves, ihleft hl hleft, ihright hr hright,
      ← segment_append hbefore.1 (Nat.lt_of_succ_le hafter.1)]

theorem IsParseOf.leaves_eq (h : g.IsParseOf tokens t) : t.leaves = tokens := by
  have hbounds := h.justified.bounds h.span
  rw [h.justified.leaves_eq h.span, segment_all (by omega)]

/-- Names tell positions. -/
theorem WellFormed.index_eq (h : g.WellFormed) {v v' : Nat} {name : String}
    (hv : g.nonterminals[v]? = some name) (hv' : g.nonterminals[v']? = some name) : v = v' := by
  obtain ⟨hlt, heq⟩ := List.getElem?_eq_some_iff.1 hv
  obtain ⟨hlt', heq'⟩ := List.getElem?_eq_some_iff.1 hv'
  exact h.nodup_nonterminals.getElem_inj_iff.1 (heq.trans heq'.symm)

/-! ### One derivation -/

/-- The tree has the derivation at its root. -/
def RootedBy (g : Grammar) (tokens : List String) (i j v : Nat) (t : ParseTree) : Derivation → Prop
  | .terminal _ => ∃ name token, g.nonterminals[v]? = some name ∧ tokens[i]? = some token ∧
      t = .leaf name token i
  | .binary split _ left right => ∃ name l r, g.nonterminals[v]? = some name ∧
      g.Rooted tokens i split left l ∧ g.Rooted tokens (split + 1) j right r ∧
      t = .branch name i j l r

end Grammar

/-- The trees of nonterminal `v` over the span from `i` to `j` that choose the derivation at the
root. -/
def Forest.expand (f : Forest) (i j v : Nat) : Derivation → Except Failure (List ParseTree)
  | .terminal _ => return [← f.leaf i v]
  | .binary split _ left right =>
    if i ≤ split ∧ split < j then do
      let name ← lookUp f.nonterminals v
      let lefts ← f.treesAt i split left
      let rights ← f.treesAt (split + 1) j right
      return lefts.flatMap fun l => rights.map fun r => .branch name i j l r
    else
      return []

theorem Forest.treesAt_eq (f : Forest) (i j v : Nat) :
    f.treesAt i j v =
      (do return (← (f.chart.derivations i j v).mapM (f.expand i j v)).flatten) := by
  rw [treesAt]
  refine congrArg (fun step => (f.chart.derivations i j v).mapM step >>= _) (funext fun d => ?_)
  cases d with
  | terminal t => rfl
  | binary split number left right =>
    simp only [expand]
    split <;> rfl

/-! ### Trees and the cells of a chart -/

namespace Grammar

variable {g : Grammar} {index : NameIndex} {tokens : List String} {c : Chart} {t : ParseTree}
variable {i j v : Nat} {d d' : Derivation}

/-- The forest that reads a chart of the grammar. -/
def forestOf (g : Grammar) (tokens : List String) (c : Chart) : Forest where
  chart := c
  tokens := tokens
  nonterminals := g.nonterminals
  start := g.start

theorem Rooted.bounds (h : g.Rooted tokens i j v t) : i ≤ j ∧ j < tokens.length :=
  h.justified.bounds h.span

/-- **A derivation tree is a leaf by a rule to its token,** or it has two subtrees by a rule to
their nonterminals. -/
theorem rooted_iff (hwf : g.WellFormed) {name : String} (hname : g.nonterminals[v]? = some name) :
    g.Rooted tokens i j v t ↔
      (i = j ∧ ∃ p token, tokens[i]? = some token ∧ g.terminals[p]? = some token ∧
        g.HasRule v [.terminal p] ∧ t = .leaf name token i) ∨
      ∃ k l r left right, g.HasRule v [.nonterminal l, .nonterminal r] ∧
        g.Rooted tokens i k l left ∧ g.Rooted tokens (k + 1) j r right ∧
        t = .branch name i j left right := by
  constructor
  · rintro ⟨hjustified, hspan, hroot⟩
    obtain rfl : name = t.nonterminal := Option.some.inj (hname.symm.trans hroot)
    cases t with
    | empty name => exact hjustified.elim
    | leaf name token position =>
      obtain ⟨rfl, rfl⟩ := Prod.mk.inj (Option.some.inj hspan)
      obtain ⟨htoken, hproduction⟩ := hjustified
      obtain ⟨v', p, hname', hp, hrule⟩ := hasProduction_terminal_iff.1 hproduction
      obtain rfl := hwf.index_eq hname' hroot
      exact .inl ⟨rfl, p, token, htoken, hp, hrule, rfl⟩
    | branch name first last left right =>
      obtain ⟨rfl, rfl⟩ := Prod.mk.inj (Option.some.inj hspan)
      obtain ⟨hproduction, ⟨k, hleft, hright⟩, hl, hr⟩ := hjustified
      obtain ⟨v', l, r, hname', hlname, hrname, hrule⟩ := hasProduction_pair_iff.1 hproduction
      obtain rfl := hwf.index_eq hname' hroot
      exact .inr ⟨k, l, r, left, right, hrule, ⟨hl, hleft, hlname⟩, ⟨hr, hright, hrname⟩, rfl⟩
  · rintro (⟨rfl, p, token, htoken, hp, hrule, rfl⟩ | ⟨k, l, r, left, right, hrule, hl, hr, rfl⟩)
    · exact ⟨⟨htoken, hasProduction_terminal_iff.2 ⟨v, p, hname, hp, hrule⟩⟩, rfl, hname⟩
    · exact ⟨⟨hasProduction_pair_iff.2 ⟨v, l, r, hname, hl.root, hr.root, hrule⟩,
        ⟨k, hl.span, hr.span⟩, hl.justified, hr.justified⟩, rfl, hname⟩

/-- What has a derivation tree is derived. -/
theorem Rooted.derives (hwf : g.WellFormed) (h : g.Rooted tokens i j v t) :
    g.Derives v (segment tokens i j) := by
  induction hn : j - i using Nat.strong_induction_on generalizing i j v t with
  | _ n ih =>
    subst hn
    obtain ⟨rfl, p, token, htoken, hp, hrule, -⟩ | ⟨k, l, r, left, right, hrule, hl, hr, -⟩ :=
      (rooted_iff hwf h.root).1 h
    · rw [segment_self htoken]
      exact derives_iff_reads.2 ⟨_, hrule, reads_terminal_iff.2 ⟨token, hp, rfl⟩⟩
    · have hik := hl.bounds.1
      have hkj := hr.bounds.1
      rw [segment_append hik (Nat.lt_of_succ_le hkj)]
      exact derives_iff_reads.2 ⟨_, hrule, reads_pair_iff.2 ⟨_, _, rfl,
        ih _ (by omega) hl rfl, ih _ (by omega) hr rfl⟩⟩

/-- What is derived has a derivation tree. -/
theorem exists_rooted (hwf : g.WellFormed) (hnormal : g.InNormalForm) (hij : i ≤ j)
    (hj : j < tokens.length) (h : g.Derives v (segment tokens i j)) :
    ∃ t, g.Rooted tokens i j v t := by
  induction hn : j - i using Nat.strong_induction_on generalizing i j v with
  | _ n ih =>
    subst hn
    have hname := List.getElem?_eq_getElem (hwf.length_rows ▸ h.lt_length_rows)
    rcases Nat.eq_or_lt_of_le hij with rfl | hlt
    · have htoken := List.getElem?_eq_getElem hj
      rw [segment_self htoken, hnormal.derives_iff] at h
      obtain ⟨t, token, hrule, ht, heq⟩ | ⟨_, _, -, _, _, heq, hfirst, htail⟩ := h
      · obtain rfl := List.singleton_inj.1 heq
        exact ⟨_, (rooted_iff hwf hname).2 (.inl ⟨rfl, t, _, htoken, ht, hrule, rfl⟩)⟩
      · obtain ⟨rfl, -⟩ | ⟨-, rfl⟩ := List.singleton_eq_append_iff.1 heq
        · exact absurd rfl (hnormal.ne_nil_of_derives hfirst)
        · exact absurd rfl (hnormal.ne_nil_of_derives htail)
    · obtain ⟨split, l, r, hik, hkj, hrule, hleft, hright⟩ :=
        (derives_segment_iff_of_lt hnormal hlt hj).1 h
      obtain ⟨left, hl⟩ := ih _ (by omega) hik (by omega) hleft rfl
      obtain ⟨right, hr⟩ := ih _ (by omega) hkj hj hright rfl
      exact ⟨_, (rooted_iff hwf hname).2 (.inr ⟨split, l, r, left, right, hrule, hl, hr, rfl⟩)⟩

/-- **A derivation tree chooses one of the derivations that its cell lists.** -/
theorem rooted_iff_exists_mem (hwf : g.WellFormed) (hnormal : g.InNormalForm)
    (hindex : index.Locates g.terminals) (hfills : g.sortedRules.Fills index tokens c)
    (hij : i ≤ j) (hj : j < tokens.length) (hv : v < g.nonterminals.length) :
    g.Rooted tokens i j v t ↔ ∃ d ∈ c.derivations i j v, g.RootedBy tokens i j v t d := by
  have hname := List.getElem?_eq_getElem hv
  simp only [rooted_iff hwf hname, mem_derivations_iff hindex hfills hij hj hv]
  constructor
  · rintro (⟨rfl, p, token, htoken, hp, hrule, rfl⟩ | ⟨k, l, r, left, right, hrule, hl, hr, rfl⟩)
    · exact ⟨_, .inl ⟨rfl, p, token, htoken, hp, hrule, rfl⟩, _, token, hname, htoken, rfl⟩
    · obtain ⟨number, hnumber⟩ := List.getElem?_of_mem (mem_binaryRules_iff.2 hrule)
      refine ⟨_, .inr ⟨k, number, l, r, hl.bounds.1, hr.bounds.1, hnumber, ?_, ?_, rfl⟩,
        _, left, right, hname, hl, hr, rfl⟩
      · exact (contains_iff_derives hwf hnormal hindex hfills hl.bounds.1 hl.bounds.2).2
          (hl.derives hwf)
      · exact (contains_iff_derives hwf hnormal hindex hfills hr.bounds.1 hj).2 (hr.derives hwf)
  · rintro ⟨d,
      ⟨rfl, p, token, htoken, hp, hrule, rfl⟩ | ⟨k, number, l, r, -, -, hnumber, -, -, rfl⟩,
      hd⟩
    · obtain ⟨name, token', hname', htoken', rfl⟩ := hd
      obtain rfl := Option.some.inj (hname.symm.trans hname')
      obtain rfl := Option.some.inj (htoken.symm.trans htoken')
      exact .inl ⟨rfl, p, token, htoken, hp, hrule, rfl⟩
    · obtain ⟨name, left, right, hname', hl, hr, rfl⟩ := hd
      obtain rfl := Option.some.inj (hname.symm.trans hname')
      have hrule := mem_binaryRules_iff.1 (List.mem_of_getElem? hnumber)
      exact .inr ⟨k, l, r, left, right, hrule, hl, hr, rfl⟩

/-- **A tree tells the derivation that it chooses,** if no row has a body twice. -/
theorem rootedBy_unique (hwf : g.WellFormed) (hrows : ∀ row ∈ g.rows, row.Nodup)
    (hindex : index.Locates g.terminals) (hfills : g.sortedRules.Fills index tokens c)
    (hij : i ≤ j) (hj : j < tokens.length) (hv : v < g.nonterminals.length)
    (hd : d ∈ c.derivations i j v) (hd' : d' ∈ c.derivations i j v)
    (ht : g.RootedBy tokens i j v t d) (ht' : g.RootedBy tokens i j v t d') : d = d' := by
  rw [mem_derivations_iff hindex hfills hij hj hv] at hd hd'
  obtain ⟨-, p, token, htoken, hp, -, rfl⟩ | ⟨k, number, l, r, -, -, hnumber, -, -, rfl⟩ := hd <;>
    obtain ⟨-, p', token', htoken', hp', -, rfl⟩ |
      ⟨k', number', l', r', -, -, hnumber', -, -, rfl⟩ := hd'
  · obtain rfl := Option.some.inj (htoken.symm.trans htoken')
    have hsame := ((hindex token p).2 hp).symm.trans ((hindex token p').2 hp')
    rw [Option.some.inj hsame]
  · obtain ⟨_, _, -, -, rfl⟩ := ht
    obtain ⟨_, _, _, -, -, -, heq⟩ := ht'
    exact nomatch heq
  · obtain ⟨_, _, _, -, -, -, rfl⟩ := ht
    obtain ⟨_, _, -, -, heq⟩ := ht'
    exact nomatch heq
  · obtain ⟨_, left, right, -, hl, hr, rfl⟩ := ht
    obtain ⟨_, left', right', -, hl', hr', heq⟩ := ht'
    obtain ⟨-, -, -, rfl, rfl⟩ := ParseTree.branch.inj heq
    obtain ⟨-, rfl⟩ := Prod.mk.inj (Option.some.inj (hl.span.symm.trans hl'.span))
    obtain rfl := hwf.index_eq hl.root hl'.root
    obtain rfl := hwf.index_eq hr.root hr'.root
    obtain ⟨hlt, heq⟩ := List.getElem?_eq_some_iff.1 hnumber
    obtain ⟨hlt', heq'⟩ := List.getElem?_eq_some_iff.1 hnumber'
    obtain rfl := (nodup_binaryRules hrows).getElem_inj_iff.1 (heq.trans heq'.symm)
    rfl

/-! ### The lists of trees -/

/-- The list has the trees with the property, and each once if no row has a body twice. -/
structure Lists (g : Grammar) (P : ParseTree → Prop) (trees : List ParseTree) : Prop where
  nodup : (∀ row ∈ g.rows, row.Nodup) → trees.Nodup
  mem_iff : ∀ t, t ∈ trees ↔ P t

/-- The trees that choose one derivation at the root, given those of the parts. -/
theorem exists_expand (hwf : g.WellFormed) (hindex : index.Locates g.terminals)
    (hfills : g.sortedRules.Fills index tokens c) (hij : i ≤ j) (hj : j < tokens.length)
    (hv : v < g.nonterminals.length) (hd : d ∈ c.derivations i j v)
    (ih : ∀ i' j' v', j' - i' < j - i → i' ≤ j' → j' < tokens.length →
      v' < g.nonterminals.length → ∃ trees, (g.forestOf tokens c).treesAt i' j' v' = .ok trees ∧
        g.Lists (g.Rooted tokens i' j' v') trees) :
    ∃ trees, (g.forestOf tokens c).expand i j v d = .ok trees ∧
      g.Lists (g.RootedBy tokens i j v · d) trees := by
  have hname := List.getElem?_eq_getElem hv
  have hlookUp : lookUp (g.forestOf tokens c).nonterminals v = .ok g.nonterminals[v] :=
    lookUp_eq_ok_iff.2 hname
  rw [mem_derivations_iff hindex hfills hij hj hv] at hd
  obtain ⟨rfl, p, token, htoken, -, -, rfl⟩ | ⟨k, number, l, r, hik, hkj, hnumber, -, -, rfl⟩ := hd
  · have htokens : lookUp (g.forestOf tokens c).tokens i = .ok token := lookUp_eq_ok_iff.2 htoken
    refine ⟨[.leaf g.nonterminals[v] token i], ?_, fun _ => List.nodup_singleton _, fun t => ?_⟩
    · rw [Forest.expand, Forest.leaf, hlookUp, htokens]
      rfl
    · rw [List.mem_singleton]
      constructor
      · rintro rfl
        exact ⟨_, token, hname, htoken, rfl⟩
      · rintro ⟨name, token', hname', htoken', rfl⟩
        obtain rfl := Option.some.inj (hname.symm.trans hname')
        obtain rfl := Option.some.inj (htoken.symm.trans htoken')
        rfl
  · obtain ⟨hlt, hrt⟩ := hwf.pair_lt (mem_binaryRules_iff.1 (List.mem_of_getElem? hnumber))
    obtain ⟨lefts, hlefts, hlnodup, hlmem⟩ := ih i k l (by omega) hik (by omega) hlt
    obtain ⟨rights, hrights, hrnodup, hrmem⟩ := ih (k + 1) j r (by omega) hkj hj hrt
    refine ⟨lefts.flatMap fun left => rights.map fun right =>
      .branch g.nonterminals[v] i j left right, ?_, fun hrows => ?_, fun t => ?_⟩
    · rw [Forest.expand, if_pos ⟨hik, hkj⟩, hlookUp, hlefts, hrights]
      rfl
    · refine List.nodup_flatMap.2 ⟨fun left _ => ?_, (hlnodup hrows).imp fun {left left'} hne => ?_⟩
      · exact (hrnodup hrows).map fun right right' heq => (ParseTree.branch.inj heq).2.2.2.2
      · refine List.disjoint_left.2 fun t ht ht' => ?_
        obtain ⟨_, -, rfl⟩ := List.mem_map.1 ht
        obtain ⟨_, -, heq⟩ := List.mem_map.1 ht'
        exact hne (ParseTree.branch.inj heq).2.2.2.1.symm
    · simp only [List.mem_flatMap, List.mem_map, hlmem, hrmem]
      constructor
      · rintro ⟨left, hleft, right, hright, rfl⟩
        exact ⟨_, left, right, hname, hleft, hright, rfl⟩
      · rintro ⟨name, left, right, hname', hleft, hright, rfl⟩
        obtain rfl := Option.some.inj (hname.symm.trans hname')
        exact ⟨left, hleft, right, hright, rfl⟩

/-- **The trees over a span are its derivation trees.** None is listed twice if no row has a body
twice. -/
theorem exists_treesAt (hwf : g.WellFormed) (hnormal : g.InNormalForm)
    (hindex : index.Locates g.terminals) (hfills : g.sortedRules.Fills index tokens c)
    (hij : i ≤ j) (hj : j < tokens.length) (hv : v < g.nonterminals.length) :
    ∃ trees, (g.forestOf tokens c).treesAt i j v = .ok trees ∧
      g.Lists (g.Rooted tokens i j v) trees := by
  induction hn : j - i using Nat.strong_induction_on generalizing i j v with
  | _ n ih =>
    subst hn
    have hexpand : ∀ d ∈ c.derivations i j v, ∃ trees,
        (g.forestOf tokens c).expand i j v d = .ok trees ∧
          g.Lists (g.RootedBy tokens i j v · d) trees :=
      fun d hd => exists_expand hwf hindex hfills hij hj hv hd
        fun i' j' v' hlt hij' hj' hv' => ih _ hlt hij' hj' hv' rfl
    obtain ⟨F, hF, hspec⟩ := exists_mapM hexpand
    refine ⟨((c.derivations i j v).map F).flatten, ?_, fun hrows => ?_, fun t => ?_⟩
    · rw [Forest.treesAt_eq]
      show (do return (← (c.derivations i j v).mapM _).flatten) = _
      rw [hF]
      rfl
    · rw [← List.flatMap_def]
      refine List.nodup_flatMap.2 ⟨fun d hd => (hspec d hd).nodup hrows, ?_⟩
      refine List.Nodup.pairwise_of_forall_ne
        (nodup_derivations hrows hfills hij hj hv) fun d hd d' hd' hne => ?_
      refine List.disjoint_left.2 fun t ht ht' => hne ?_
      exact rootedBy_unique hwf hrows hindex hfills hij hj hv hd hd'
        (((hspec d hd).mem_iff t).1 ht) (((hspec d' hd').mem_iff t).1 ht')
    · rw [rooted_iff_exists_mem hwf hnormal hindex hfills hij hj hv, List.mem_flatten]
      constructor
      · rintro ⟨trees, htrees, ht⟩
        obtain ⟨d, hd, rfl⟩ := List.mem_map.1 htrees
        exact ⟨d, hd, ((hspec d hd).mem_iff t).1 ht⟩
      · rintro ⟨d, hd, ht⟩
        exact ⟨F d, List.mem_map_of_mem hd, ((hspec d hd).mem_iff t).2 ht⟩

/-- A parse of a sentence is a tree over all of its tokens. -/
theorem isParseOf_iff_rooted {last : Nat} (hlength : tokens.length = last + 1) :
    g.IsParseOf tokens t ↔ g.Rooted tokens 0 last g.start t := by
  have hlast : tokens.length - 1 = last := by omega
  constructor
  · rintro ⟨hroot, hspan, hjustified⟩
    exact ⟨hjustified, hlast ▸ hspan, lookUp_eq_ok_iff.1 hroot⟩
  · rintro ⟨hjustified, hspan, hroot⟩
    exact ⟨lookUp_eq_ok_iff.2 hroot, hlast.symm ▸ hspan, hjustified⟩

/-- Exactly the sentences of the language have parses. -/
theorem exists_isParseOf_iff (hwf : g.WellFormed) (hnormal : g.InNormalForm)
    (htokens : tokens ≠ []) :
    (∃ t, g.IsParseOf tokens t) ↔ g.InLanguage tokens := by
  obtain ⟨last, hlength⟩ := Nat.exists_eq_add_of_lt (List.length_pos_iff.2 htokens)
  rw [Nat.zero_add] at hlength
  simp only [isParseOf_iff_rooted hlength, InLanguage, htokens, false_and, or_false]
  constructor
  · rintro ⟨t, ht⟩
    exact segment_all hlength ▸ ht.derives hwf
  · intro h
    refine exists_rooted hwf hnormal (Nat.zero_le last) (by omega) ?_
    rwa [segment_all hlength]

/-- **The trees of a sentence are its parses.** -/
theorem exists_trees (hwf : g.WellFormed) (hnormal : g.InNormalForm)
    (hindex : index.Locates g.terminals) (hfills : g.sortedRules.Fills index tokens c)
    (htokens : tokens ≠ []) :
    ∃ trees, (g.forestOf tokens c).trees = .ok trees ∧ g.Lists (g.IsParseOf tokens) trees := by
  obtain ⟨last, hlength⟩ := Nat.exists_eq_add_of_lt (List.length_pos_iff.2 htokens)
  rw [Nat.zero_add] at hlength
  have hlength' : (g.forestOf tokens c).tokens.length = last + 1 := hlength
  have hparses : g.IsParseOf tokens = g.Rooted tokens 0 last g.start :=
    funext fun t => propext (isParseOf_iff_rooted hlength)
  simp only [hparses, Forest.trees, hlength']
  exact exists_treesAt hwf hnormal hindex hfills (Nat.zero_le last) (by omega) hwf.start_lt

end Grammar

end ChomskyChart
