import ChomskyChart.Proofs.Language.DerivationTrees

/-!
# The equations for numbers of trees

The numbers of derivation trees satisfy an equation for every nonterminal, and in general other
numbers do so too: with a rule from a nonterminal to itself, any number is as often below as above.
Without empty bodies and without such unit rules the parts of a word are shorter than the word, so
the equations leave no choice.

This is how two grammars are compared. The numbers for the one are shown to satisfy the equations of
the other, rule by rule, and then they are the numbers for the other.

## Main definitions

* `Grammar.Proper`: no empty bodies and no units
* `Grammar.Solves`: the equations of some nonterminals

## Main results

* `solves_treeCount`: the numbers of trees satisfy all equations
* `Solves.eq_treeCount`: nothing else does
-/

namespace ChomskyChart

section

variable {terminals : List String} {M M' : Multiplicity} {body : Body} {word : List String}

theorem symbolReadings_nil {s : SymbolId} (h : ∀ index, s = .nonterminal index → M index [] = 0) :
    symbolReadings terminals M s [] = 0 := by
  cases s with
  | terminal t =>
    rw [symbolReadings, List.map_nil, if_neg (List.cons_ne_nil _ _)]
  | nonterminal index => exact h index rfl

/-- A body has no empty word if its first symbol has none. -/
theorem readings_cons_nil {s : SymbolId} {rest : Body} (h : symbolReadings terminals M s [] = 0) :
    readings terminals M (s :: rest) [] = 0 := by
  rw [readings]
  refine Finset.sum_eq_zero fun k _ => ?_
  rw [List.take_nil, h, zero_mul]

/-- In a body of several symbols that have no empty words, all parts are shorter than the word. -/
theorem readings_congr_of_lt (hlength : 2 ≤ body.length)
    (hempty : ∀ index, .nonterminal index ∈ body → M index [] = 0 ∧ M' index [] = 0)
    (h : ∀ index, .nonterminal index ∈ body → ∀ part : List String, part.length < word.length →
      M index part = M' index part) :
    readings terminals M body word = readings terminals M' body word := by
  match body, hlength with
  | s :: s' :: rest, _ =>
    have hsymbol : ∀ s'' ∈ s :: s' :: rest,
        symbolReadings terminals M s'' [] = 0 ∧ symbolReadings terminals M' s'' [] = 0 := by
      intro s'' hmem
      exact ⟨symbolReadings_nil fun index hs => (hempty index (hs ▸ hmem)).1,
        symbolReadings_nil fun index hs => (hempty index (hs ▸ hmem)).2⟩
    obtain ⟨hfirst, hfirst'⟩ := hsymbol s List.mem_cons_self
    obtain ⟨hsecond, hsecond'⟩ := hsymbol s' (List.mem_cons_of_mem _ List.mem_cons_self)
    refine Finset.sum_congr rfl fun k hk => ?_
    have hk := Nat.lt_succ_iff.1 (Finset.mem_range.1 hk)
    rcases Nat.eq_zero_or_pos k with rfl | hpos
    · rw [List.take_zero, hfirst, hfirst', zero_mul, zero_mul]
    · rcases Nat.eq_or_lt_of_le hk with rfl | hlt
      · rw [List.drop_length, readings_cons_nil hsecond, readings_cons_nil hsecond', mul_zero,
          mul_zero]
      · refine congrArg₂ (· * ·) ?_ (readings_congr fun index hmem part hpart => ?_)
        · cases s with
          | terminal t => rfl
          | nonterminal index =>
            refine h index List.mem_cons_self _ ?_
            rwa [List.length_take, Nat.min_eq_left hk]
        · refine h index (List.mem_cons_of_mem _ hmem) part ?_
          rw [List.length_drop] at hpart
          omega

end

namespace Grammar

variable {g : Grammar} {M : Multiplicity} {K : Nat → Prop} {v : Nat} {word : List String}

/-- No body is empty, and none is a single nonterminal. -/
def Proper (g : Grammar) : Prop :=
  ∀ head body, g.HasRule head body → body ≠ [] ∧ ∀ index, body ≠ [.nonterminal index]

/-- For the nonterminals in `K`, the rules of the grammar account for the numbers. -/
def Solves (g : Grammar) (M : Multiplicity) (K : Nat → Prop) : Prop :=
  ∀ v, K v → ∀ word, M v word = ∑ body ∈ g.bodies v, readings g.terminals M body word

theorem solves_treeCount : g.Solves g.treeCount K :=
  fun _ _ _ => treeCount_eq

/-- Without empty bodies nothing derives the empty word. -/
theorem ne_nil_of_derives (hne : ∀ head body, g.HasRule head body → body ≠ [])
    (h : g.Derives v word) : word ≠ [] := by
  refine h.of_closed (S := fun _ word => word ≠ []) fun head body word hrule hword => ?_
  rintro rfl
  obtain ⟨s, rest, rfl⟩ := List.exists_cons_of_ne_nil (hne head body hrule)
  obtain ⟨index, -, hindex⟩ := reads_empty_iff.1 hword s List.mem_cons_self
  exact hindex rfl

theorem Proper.treeCount_nil (h : g.Proper) : g.treeCount v [] = 0 :=
  treeCount_eq_zero_iff.2 fun hempty =>
    ne_nil_of_derives (fun head body hrule => (h head body hrule).1) hempty rfl

/-- **The equations have one solution.** Numbers that satisfy them for the nonterminals in `K` are
the numbers of trees, if the bodies of these nonterminals have no others, or only such for which
that is known. -/
theorem Solves.eq_treeCount (hproper : g.Proper) (hsolves : g.Solves M K)
    (hempty : ∀ v, K v → M v [] = 0)
    (hclosed : ∀ v body, K v → g.HasRule v body → ∀ index, .nonterminal index ∈ body →
      K index ∨ ∀ part, M index part = g.treeCount index part)
    (hv : K v) : M v word = g.treeCount v word := by
  induction hn : word.length using Nat.strong_induction_on generalizing v word with
  | _ n ih =>
    subst hn
    rw [hsolves v hv, treeCount_eq]
    refine Finset.sum_congr rfl fun body hbody => ?_
    have hrule := mem_bodies_iff.1 hbody
    obtain ⟨hne, hunit⟩ := hproper v body hrule
    match body, hne, hunit with
    | [.terminal t], _, _ => rw [readings_singleton, readings_singleton]; rfl
    | [.nonterminal index], _, hunit => exact absurd rfl (hunit index)
    | s :: s' :: rest, _, _ =>
      refine readings_congr_of_lt (Nat.le_add_left 2 _) (fun index hmem => ?_)
        fun index hmem part hpart => ?_
      · refine ⟨?_, hproper.treeCount_nil⟩
        rcases hclosed v _ hv hrule index hmem with hindex | hsame
        · exact hempty index hindex
        · rw [hsame, hproper.treeCount_nil]
      · rcases hclosed v _ hv hrule index hmem with hindex | hsame
        · exact ih _ hpart hindex rfl
        · exact hsame part

end Grammar

end ChomskyChart
