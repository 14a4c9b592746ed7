import Mathlib.Data.Set.Card.Arithmetic
import Mathlib.Order.CompletePartialOrder
import ChomskyChart.Proofs.Language.Reading

/-!
# Derivation trees and their number

A word may be derived in several ways. The ways are told apart by their trees: below a nonterminal
stands a sequence of trees whose roots make up one of its bodies. Sequences of trees are the type
here, as sequences of symbols are what yields a word, so one recursion does for both.

How many trees there are can be found without looking at trees. For a sequence of symbols the word
is split in all ways, and the numbers for the parts are multiplied; for a nonterminal the numbers
for its bodies are added. So the numbers satisfy equations in which only the rules occur, and that
is how the steps of the normal form can be compared. Numbers of trees are extended natural numbers,
as unit cycles lead to infinitely many.

## Main definitions

* `DerivationTrees`, `Grammar.Admits`: sequences of trees, and those that follow the rules
* `Grammar.treesOver`, `Grammar.derivationTrees`: the trees of a word
* `readings`: in how many ways a body has a word, given how often nonterminals have theirs
* `Grammar.treeCount`: the number of derivation trees

## Main results

* `encard_treesOver`: the trees of a word over a body are its readings
* `treeCount_eq`: the trees of a nonterminal, by its rules
* `treeCount_eq_zero_iff`: what has no tree is not derived
-/

namespace ChomskyChart

/-! ### Sequences of trees -/

/-- A sequence of derivation trees. A tree is a terminal, or a nonterminal with a sequence of trees
below it. -/
inductive DerivationTrees where
  | nil
  | terminal (index : Nat) (rest : DerivationTrees)
  | nonterminal (index : Nat) (below rest : DerivationTrees)
deriving DecidableEq, Repr, Inhabited

namespace DerivationTrees

/-- The symbols at the roots, from left to right. -/
def roots : DerivationTrees → Body
  | nil => []
  | terminal index rest => .terminal index :: rest.roots
  | nonterminal index _ rest => .nonterminal index :: rest.roots

/-- The terminals at the leaves, from left to right. -/
def leaves : DerivationTrees → List Nat
  | nil => []
  | terminal index rest => index :: rest.leaves
  | nonterminal _ below rest => below.leaves ++ rest.leaves

/-- One sequence after the other. -/
def append : DerivationTrees → DerivationTrees → DerivationTrees
  | nil, ts => ts
  | terminal index rest, ts => terminal index (rest.append ts)
  | nonterminal index below rest, ts => nonterminal index below (rest.append ts)

variable {ts us ts' us' : DerivationTrees}

@[simp] theorem roots_append : (ts.append us).roots = ts.roots ++ us.roots := by
  induction ts with
  | nil => rfl
  | terminal index rest ih => rw [append, roots, ih, roots, List.cons_append]
  | nonterminal index below rest _ ih => rw [append, roots, ih, roots, List.cons_append]

@[simp] theorem leaves_append : (ts.append us).leaves = ts.leaves ++ us.leaves := by
  induction ts with
  | nil => rfl
  | terminal index rest ih => rw [append, leaves, ih, leaves, List.cons_append]
  | nonterminal index below rest _ ih => rw [append, leaves, ih, leaves, List.append_assoc]

/-- A sequence is put together in one way only, once it is said where to cut. -/
theorem append_inj (hroots : ts.roots.length = ts'.roots.length)
    (h : ts.append us = ts'.append us') : ts = ts' ∧ us = us' := by
  induction ts generalizing ts' with
  | nil =>
    obtain rfl : ts' = nil := by cases ts' <;> simp [roots] at hroots ⊢
    exact ⟨rfl, h⟩
  | terminal index rest ih =>
    cases ts' with
    | nil => exact nomatch hroots
    | terminal index' rest' =>
      obtain ⟨rfl, hrest⟩ := terminal.inj h
      obtain ⟨rfl, rfl⟩ := ih (Nat.succ.inj hroots) hrest
      exact ⟨rfl, rfl⟩
    | nonterminal index' below' rest' => exact nomatch h
  | nonterminal index below rest _ ih =>
    cases ts' with
    | nil => exact nomatch hroots
    | terminal index' rest' => exact nomatch h
    | nonterminal index' below' rest' =>
      obtain ⟨rfl, rfl, hrest⟩ := nonterminal.inj h
      obtain ⟨rfl, rfl⟩ := ih (Nat.succ.inj hroots) hrest
      exact ⟨rfl, rfl⟩

/-- Where the roots of a sequence are cut, the sequence is cut. -/
theorem exists_append {left right : Body} (h : ts.roots = left ++ right) :
    ∃ first tail : DerivationTrees,
      ts = first.append tail ∧ first.roots = left ∧ tail.roots = right := by
  induction left generalizing ts with
  | nil => exact ⟨nil, ts, rfl, rfl, h⟩
  | cons s left ih =>
    cases ts with
    | nil => exact nomatch h
    | terminal index rest =>
      obtain ⟨rfl, hrest⟩ := List.cons.inj h
      obtain ⟨first, tail, rfl, rfl, rfl⟩ := ih hrest
      exact ⟨terminal index first, tail, rfl, rfl, rfl⟩
    | nonterminal index below rest =>
      obtain ⟨rfl, hrest⟩ := List.cons.inj h
      obtain ⟨first, tail, rfl, rfl, rfl⟩ := ih hrest
      exact ⟨nonterminal index below first, tail, rfl, rfl, rfl⟩

end DerivationTrees

/-! ### Trees of a grammar -/

namespace Grammar

variable {g : Grammar} {ts us : DerivationTrees} {body : Body} {word : List String} {v : Nat}

/-- Below every nonterminal stand the symbols of one of its bodies. -/
def Admits (g : Grammar) : DerivationTrees → Prop
  | .nil => True
  | .terminal _ rest => g.Admits rest
  | .nonterminal index below rest => g.HasRule index below.roots ∧ g.Admits below ∧ g.Admits rest

/-- The leaves are the terminals with the names in the word. -/
def HasYield (g : Grammar) (ts : DerivationTrees) (word : List String) : Prop :=
  ts.leaves.map (g.terminals[·]?) = word.map some

/-- The sequences of derivation trees of a word, with the symbols of a body at their roots. -/
def treesOver (g : Grammar) (body : Body) (word : List String) : Set DerivationTrees :=
  { ts | g.Admits ts ∧ ts.roots = body ∧ g.HasYield ts word }

/-- **The derivation trees of a word** from a nonterminal. -/
def derivationTrees (g : Grammar) (v : Nat) (word : List String) : Set DerivationTrees :=
  g.treesOver [.nonterminal v] word

theorem admits_append_iff : g.Admits (ts.append us) ↔ g.Admits ts ∧ g.Admits us := by
  induction ts with
  | nil => exact (iff_of_eq (true_and _)).symm
  | terminal index rest ih => exact ih
  | nonterminal index below rest _ ih =>
    rw [DerivationTrees.append, Admits, ih, Admits]
    exact ⟨fun ⟨hrule, hbelow, hrest, hus⟩ => ⟨⟨hrule, hbelow, hrest⟩, hus⟩,
      fun ⟨⟨hrule, hbelow, hrest⟩, hus⟩ => ⟨hrule, hbelow, hrest, hus⟩⟩

/-- Leaves and words are put together alike. -/
theorem HasYield.append {first tail : List String} (hts : g.HasYield ts first)
    (hus : g.HasYield us tail) : g.HasYield (ts.append us) (first ++ tail) := by
  rw [HasYield] at hts hus ⊢
  rw [DerivationTrees.leaves_append, List.map_append, List.map_append, hts, hus]

theorem HasYield.length_leaves (h : g.HasYield ts word) : ts.leaves.length = word.length := by
  simpa using congrArg List.length h

/-- A word is cut where its leaves are cut. -/
theorem HasYield.exists_split (h : g.HasYield (ts.append us) word) :
    ts.leaves.length ≤ word.length ∧ g.HasYield ts (word.take ts.leaves.length) ∧
      g.HasYield us (word.drop ts.leaves.length) := by
  have hlength := h.length_leaves
  rw [DerivationTrees.leaves_append, List.length_append] at hlength
  rw [HasYield, DerivationTrees.leaves_append, List.map_append] at h
  refine ⟨by omega, ?_, ?_⟩
  · rw [HasYield, List.map_take, ← h, List.take_left' (List.length_map _)]
  · rw [HasYield, List.map_drop, ← h, List.drop_left' (List.length_map _)]

/-- **Exactly the words of a body have trees over it.** -/
theorem nonempty_treesOver_iff : (g.treesOver body word).Nonempty ↔ g.Yields body word := by
  constructor
  · rintro ⟨ts, hadmits, rfl, hyield⟩
    induction ts generalizing word with
    | nil =>
      obtain rfl : word = [] := by simpa [HasYield, DerivationTrees.leaves] using hyield.symm
      exact .nil
    | terminal index rest ih =>
      cases word with
      | nil => exact nomatch hyield
      | cons name tail =>
        obtain ⟨hname, hrest⟩ := List.cons.inj hyield
        exact .terminal hname (ih hadmits hrest)
    | nonterminal index below rest ihbelow ihrest =>
      obtain ⟨⟨row, hrow, hmem⟩, hbelow, hrest⟩ := hadmits
      have hsplit : g.HasYield (below.append rest) word := by
        rw [HasYield, DerivationTrees.leaves_append]
        exact hyield
      obtain ⟨-, hfirst, htail⟩ := hsplit.exists_split
      rw [← List.take_append_drop below.leaves.length word]
      exact .nonterminal hrow hmem (ihbelow hbelow hfirst) (ihrest hrest htail)
  · intro h
    induction h with
    | nil => exact ⟨.nil, trivial, rfl, rfl⟩
    | @terminal index name rest word hname _ ih =>
      obtain ⟨ts, hadmits, rfl, hyield⟩ := ih
      exact ⟨.terminal index ts, hadmits, rfl, congrArg₂ List.cons hname hyield⟩
    | @nonterminal index row body rest word tail hrow hmem _ _ ihbody ihrest =>
      obtain ⟨below, hbelow, rfl, hfirst⟩ := ihbody
      obtain ⟨ts, hadmits, rfl, htail⟩ := ihrest
      refine ⟨.nonterminal index below ts, ⟨⟨row, hrow, hmem⟩, hbelow, hadmits⟩, rfl, ?_⟩
      have happend := hfirst.append htail
      rw [HasYield, DerivationTrees.leaves_append] at happend
      exact happend

end Grammar

/-! ### Readings -/

/-- How often each nonterminal has each word. -/
abbrev Multiplicity : Type :=
  Nat → List String → ℕ∞

/-- How often a symbol has a word. -/
def symbolReadings (terminals : List String) (M : Multiplicity) : SymbolId → List String → ℕ∞
  | .terminal index, word => if [terminals[index]?] = word.map some then 1 else 0
  | .nonterminal index, word => M index word

/-- In how many ways the word consists of one part per symbol, each counted as often as its symbol
has it. -/
def readings (terminals : List String) (M : Multiplicity) : Body → List String → ℕ∞
  | [], word => if word = [] then 1 else 0
  | s :: rest, word => ∑ k ∈ Finset.range (word.length + 1),
      symbolReadings terminals M s (word.take k) * readings terminals M rest (word.drop k)

section

variable {terminals : List String} {M M' : Multiplicity} {s : SymbolId} {body rest : Body}
variable {word : List String}

@[simp] theorem readings_singleton :
    readings terminals M [s] word = symbolReadings terminals M s word := by
  have hlast : word.length ∈ Finset.range (word.length + 1) := Finset.self_mem_range_succ _
  rw [readings, Finset.sum_eq_single_of_mem _ hlast fun k hk hne => ?_]
  · rw [List.take_length, List.drop_length, readings, if_pos rfl, mul_one]
  · have hlt : k < word.length := by
      have := Finset.mem_range.1 hk
      omega
    rw [readings, if_neg (by simpa using hlt), mul_zero]

/-- Only the symbols of the body matter, and for them only words that are not longer. -/
theorem readings_congr (h : ∀ index, .nonterminal index ∈ body → ∀ part : List String,
    part.length ≤ word.length → M index part = M' index part) :
    readings terminals M body word = readings terminals M' body word := by
  induction body generalizing word with
  | nil => rfl
  | cons s rest ih =>
    refine Finset.sum_congr rfl fun k _ => congrArg₂ (· * ·) ?_ (ih fun index hmem part hpart => ?_)
    · cases s with
      | terminal index => rfl
      | nonterminal index => exact h index List.mem_cons_self _ (List.length_take_le' _ _)
    · refine h index (List.mem_cons_of_mem _ hmem) part ?_
      rw [List.length_drop] at hpart
      omega

/-- The same number of readings for the first symbol and for the rest makes the same number in
all. -/
theorem readings_cons_congr {s' : SymbolId} {rest' : Body}
    (hs : ∀ part, symbolReadings terminals M s part = symbolReadings terminals M s' part)
    (hrest : ∀ part, readings terminals M rest part = readings terminals M rest' part) :
    readings terminals M (s :: rest) word = readings terminals M (s' :: rest') word :=
  Finset.sum_congr rfl fun _ _ => congrArg₂ (· * ·) (hs _) (hrest _)

/-- A body with a nonterminal that has no words has no readings. -/
theorem readings_of_mem {index : Nat} (hmem : .nonterminal index ∈ body)
    (hzero : ∀ part, M index part = 0) : readings terminals M body word = 0 := by
  induction body generalizing word with
  | nil => exact nomatch hmem
  | cons s rest ih =>
    rw [readings]
    refine Finset.sum_eq_zero fun k _ => ?_
    rcases List.mem_cons.1 hmem with rfl | hmem
    · rw [symbolReadings, hzero, zero_mul]
    · rw [ih hmem, mul_zero]

end

/-! ### The number of trees -/

/-- The size of a union of sets that have nothing in common. -/
theorem encard_biUnion_finset {α ι : Type} {s : Finset ι} {f : ι → Set α}
    (h : (s : Set ι).PairwiseDisjoint f) : (⋃ i ∈ s, f i).encard = ∑ i ∈ s, (f i).encard := by
  have hunion := s.finite_toSet.encard_biUnion h
  rw [finsum_mem_coe_finset] at hunion
  exact hunion

namespace Grammar

variable {g : Grammar} {body rest : Body} {word : List String} {s : SymbolId} {v : Nat}

/-- The bodies of a nonterminal, each once. -/
def bodies (g : Grammar) (v : Nat) : Finset Body :=
  (g.rows[v]?.getD []).toFinset

@[simp] theorem mem_bodies_iff : body ∈ g.bodies v ↔ g.HasRule v body := by
  rw [bodies, List.mem_toFinset, mem_getD_rows_iff]

/-- The number of derivation trees of a word from a nonterminal. -/
noncomputable def treeCount (g : Grammar) : Multiplicity :=
  fun v word => (g.derivationTrees v word).encard

theorem encard_treesOver_nil :
    (g.treesOver [] word).encard = if word = [] then 1 else 0 := by
  have hmem : ∀ ts, ts ∈ g.treesOver [] word ↔ ts = .nil ∧ word = [] := by
    intro ts
    constructor
    · rintro ⟨-, hroots, hyield⟩
      obtain rfl : ts = .nil := by cases ts <;> simp [DerivationTrees.roots] at hroots ⊢
      exact ⟨rfl, by simpa [HasYield, DerivationTrees.leaves] using hyield.symm⟩
    · rintro ⟨rfl, rfl⟩
      exact ⟨trivial, rfl, rfl⟩
  split
  · rename_i hword
    rw [Set.encard_eq_one]
    exact ⟨.nil, Set.ext fun ts => by rw [hmem, Set.mem_singleton_iff, and_iff_left hword]⟩
  · rename_i hword
    rw [Set.encard_eq_zero, Set.eq_empty_iff_forall_notMem]
    exact fun ts hts => hword ((hmem ts).1 hts).2

theorem encard_treesOver_terminal {t : Nat} :
    (g.treesOver [.terminal t] word).encard =
      symbolReadings g.terminals g.treeCount (.terminal t) word := by
  have hmem : ∀ ts, ts ∈ g.treesOver [.terminal t] word ↔
      ts = .terminal t .nil ∧ [g.terminals[t]?] = word.map some := by
    intro ts
    constructor
    · rintro ⟨-, hroots, hyield⟩
      obtain rfl : ts = .terminal t .nil := by
        match ts, hroots with
        | .terminal t' .nil, hroots => rw [SymbolId.terminal.inj (List.singleton_inj.1 hroots)]
      exact ⟨rfl, hyield⟩
    · rintro ⟨rfl, hyield⟩
      exact ⟨trivial, rfl, hyield⟩
  rw [symbolReadings]
  split
  · rename_i hword
    rw [Set.encard_eq_one]
    exact ⟨.terminal t .nil,
      Set.ext fun ts => by rw [hmem, Set.mem_singleton_iff, and_iff_left hword]⟩
  · rename_i hword
    rw [Set.encard_eq_zero, Set.eq_empty_iff_forall_notMem]
    exact fun ts hts => hword ((hmem ts).1 hts).2

/-- The trees over a body are made of those over its first symbol and those over the rest, for a cut
of the word. -/
theorem treesOver_cons :
    g.treesOver (s :: rest) word = ⋃ k ∈ Finset.range (word.length + 1),
      (fun pair : DerivationTrees × DerivationTrees => pair.1.append pair.2) ''
        (g.treesOver [s] (word.take k) ×ˢ g.treesOver rest (word.drop k)) := by
  ext ts
  simp only [Set.mem_iUnion, Set.mem_image, Set.mem_prod, Prod.exists, Finset.mem_range]
  constructor
  · rintro ⟨hadmits, hroots, hyield⟩
    obtain ⟨first, tail, rfl, hfirst, htail⟩ :=
      DerivationTrees.exists_append (hroots.trans (List.singleton_append).symm)
    obtain ⟨hlength, hyield, hyield'⟩ := hyield.exists_split
    obtain ⟨hadmits, hadmits'⟩ := admits_append_iff.1 hadmits
    exact ⟨_, Nat.lt_succ_of_le hlength, first, tail,
      ⟨⟨hadmits, hfirst, hyield⟩, hadmits', htail, hyield'⟩, rfl⟩
  · rintro ⟨k, -, first, tail, ⟨⟨hadmits, hfirst, hyield⟩, hadmits', htail, hyield'⟩, rfl⟩
    refine ⟨admits_append_iff.2 ⟨hadmits, hadmits'⟩, ?_, ?_⟩
    · rw [DerivationTrees.roots_append, hfirst, htail, List.singleton_append]
    · simpa only [List.take_append_drop] using hyield.append hyield'

theorem encard_treesOver_cons :
    (g.treesOver (s :: rest) word).encard = ∑ k ∈ Finset.range (word.length + 1),
      (g.treesOver [s] (word.take k)).encard * (g.treesOver rest (word.drop k)).encard := by
  rw [treesOver_cons, encard_biUnion_finset]
  · refine Finset.sum_congr rfl fun k _ => ?_
    rw [Set.InjOn.encard_image, Set.encard_prod]
    rintro ⟨first, tail⟩ ⟨hfirst, -⟩ ⟨first', tail'⟩ ⟨hfirst', -⟩ heq
    obtain ⟨rfl, rfl⟩ := DerivationTrees.append_inj (by rw [hfirst.2.1, hfirst'.2.1]) heq
    rfl
  · -- the place of the cut shows in the number of leaves of the first tree
    intro k hk k' hk' hne
    refine Set.disjoint_left.2 ?_
    rintro _ ⟨⟨first, tail⟩, ⟨hfirst, -⟩, rfl⟩ ⟨⟨first', tail'⟩, ⟨hfirst', -⟩, heq⟩
    obtain ⟨rfl, -⟩ := DerivationTrees.append_inj (by rw [hfirst.2.1, hfirst'.2.1]) heq
    have hsame := hfirst'.2.2.length_leaves.symm.trans hfirst.2.2.length_leaves
    rw [List.length_take, List.length_take] at hsame
    rw [Finset.mem_coe, Finset.mem_range] at hk hk'
    omega

/-- **The trees over a body are its readings.** -/
theorem encard_treesOver :
    (g.treesOver body word).encard = readings g.terminals g.treeCount body word := by
  induction body generalizing word with
  | nil => exact encard_treesOver_nil
  | cons s rest ih =>
    rw [encard_treesOver_cons, readings]
    refine Finset.sum_congr rfl fun k _ => congrArg₂ (· * ·) ?_ ih
    cases s with
    | terminal t => exact encard_treesOver_terminal
    | nonterminal index => rfl

/-- **The trees of a nonterminal, by its rules.** -/
theorem treeCount_eq :
    g.treeCount v word = ∑ body ∈ g.bodies v, readings g.terminals g.treeCount body word := by
  have hunion : g.derivationTrees v word = ⋃ body ∈ g.bodies v,
      (fun below => DerivationTrees.nonterminal v below .nil) '' g.treesOver body word := by
    ext ts
    simp only [Set.mem_iUnion, Set.mem_image, mem_bodies_iff]
    constructor
    · rintro ⟨hadmits, hroots, hyield⟩
      match ts, hroots with
      | .nonterminal v' below .nil, hroots =>
        obtain rfl := SymbolId.nonterminal.inj (List.singleton_inj.1 hroots)
        obtain ⟨hrule, hbelow, -⟩ := hadmits
        rw [HasYield, DerivationTrees.leaves, DerivationTrees.leaves, List.append_nil] at hyield
        exact ⟨below.roots, hrule, below, ⟨hbelow, rfl, hyield⟩, rfl⟩
    · rintro ⟨_, hrule, below, ⟨hbelow, rfl, hyield⟩, rfl⟩
      refine ⟨⟨hrule, hbelow, trivial⟩, rfl, ?_⟩
      rwa [HasYield, DerivationTrees.leaves, DerivationTrees.leaves, List.append_nil]
  rw [treeCount, hunion, encard_biUnion_finset]
  · refine Finset.sum_congr rfl fun body _ => ?_
    rw [← encard_treesOver]
    exact Set.InjOn.encard_image fun _ _ _ _ heq => (DerivationTrees.nonterminal.inj heq).2.1
  · intro body _ body' _ hne
    refine Set.disjoint_left.2 ?_
    rintro _ ⟨below, ⟨-, rfl, -⟩, rfl⟩ ⟨below', ⟨-, rfl, -⟩, heq⟩
    exact hne (congrArg DerivationTrees.roots (DerivationTrees.nonterminal.inj heq).2.1.symm)

/-- **What has no tree is not derived.** -/
theorem treeCount_eq_zero_iff : g.treeCount v word = 0 ↔ ¬g.Derives v word := by
  rw [treeCount, Set.encard_eq_zero, ← Set.not_nonempty_iff_eq_empty, derivationTrees,
    nonempty_treesOver_iff, Derives]

end Grammar

end ChomskyChart
