import ChomskyChart.Proofs.Language.Reading

/-!
# Nonterminals that stand for bodies

Three steps of the normal form add nonterminals after those of the grammar, and each added one
stands for a body of old symbols: the new start symbol for the old one, a stand-in for its terminal,
and the nonterminal of a shared end for that end. What has to be shown of such a step is always the
same, so it is stated once, as `Grammar.Extends`.

The old nonterminals then keep their words, and an added one has the words of the body it stands
for.

## Main definitions

* `Grammar.extended`: the words of a grammar, and of added nonterminals by the bodies they stand for
* `Grammar.Extends`: a grammar whose rules say the same

## Main results

* `Extends.derives_iff`: the words of an extension
-/

namespace ChomskyChart

namespace Grammar

variable {g r : Grammar} {meanings : List Body}

/-! ### The intended words -/

/-- The words of the grammar, where the nonterminals after those of the grammar stand for the bodies
in `meanings`, in this order. -/
def extended (g : Grammar) (meanings : List Body) : Interpretation := fun index word =>
  if index < g.rows.length then g.Derives index word
  else ∃ body, meanings[index - g.rows.length]? = some body ∧
    Reads g.terminals g.Derives body word

theorem extended_of_lt {index : Nat} (h : index < g.rows.length) {word : List String} :
    g.extended meanings index word ↔ g.Derives index word := by
  rw [extended, if_pos h]

theorem extended_add {k : Nat} {word : List String} :
    g.extended meanings (g.rows.length + k) word ↔
      ∃ body, meanings[k]? = some body ∧ Reads g.terminals g.Derives body word := by
  rw [extended, if_neg (by omega), Nat.add_sub_cancel_left]

/-- Bodies of old symbols have their old words. -/
theorem reads_extended_iff {body : Body}
    (h : ∀ index, .nonterminal index ∈ body → index < g.rows.length) {word : List String} :
    Reads g.terminals (g.extended meanings) body word ↔ Reads g.terminals g.Derives body word :=
  reads_congr fun index hmem _ => extended_of_lt (h index hmem)

/-! ### Extensions -/

/-- The rules of `r` agree with the intended words, and they make up for the rules of `g` and for
the bodies that added nonterminals stand for. -/
structure Extends (r g : Grammar) (meanings : List Body) : Prop where
  terminals_eq : r.terminals = g.terminals
  closed_extended : r.Closed (g.extended meanings)
  closed_derives : g.Closed r.Derives
  derives_of_reads : ∀ k body, meanings[k]? = some body → ∀ word,
    Reads g.terminals r.Derives body word → r.Derives (g.rows.length + k) word

/-- **An extension has the intended words.** -/
theorem Extends.derives_iff (h : r.Extends g meanings) {index : Nat} {word : List String} :
    r.Derives index word ↔ g.extended meanings index word := by
  refine ⟨fun hword => hword.of_closed h.closed_extended, fun hword => ?_⟩
  have hold : ∀ index word, g.Derives index word → r.Derives index word :=
    fun _ _ hword => hword.of_closed h.closed_derives
  rcases Nat.lt_or_ge index g.rows.length with hlt | hge
  · exact hold index word ((extended_of_lt hlt).1 hword)
  · obtain ⟨k, rfl⟩ := Nat.exists_eq_add_of_le hge
    obtain ⟨body, hbody, hreads⟩ := extended_add.1 hword
    exact h.derives_of_reads k body hbody word (hreads.mono fun index _ part => hold index part)

theorem Extends.derives_iff_of_lt (h : r.Extends g meanings) {index : Nat}
    (hlt : index < g.rows.length) {word : List String} :
    r.Derives index word ↔ g.Derives index word := by
  rw [h.derives_iff, extended_of_lt hlt]

theorem Extends.derives_add_iff (h : r.Extends g meanings) {k : Nat} {word : List String} :
    r.Derives (g.rows.length + k) word ↔
      ∃ body, meanings[k]? = some body ∧ Reads g.terminals g.Derives body word := by
  rw [h.derives_iff, extended_add]

end Grammar

end ChomskyChart
