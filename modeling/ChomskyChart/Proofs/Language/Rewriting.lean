import Mathlib.Logic.Relation
import ChomskyChart.Proofs.Language.Reading

/-!
# Derivations as rewriting

A derivation was defined by what the parts of a word are derived from. The other way to define it is
to rewrite nonterminals one after another, at any place and in any order, until only terminals are
left. Both say the same, so every result about derived words is one about rewriting.

## Main definitions

* `Grammar.Rewrites`: one step
* `Grammar.Spells`: a sequence of terminals and its word

## Main results

* `yields_iff_rewrites`, `derives_iff_rewrites`: derived words are those that rewriting leads to
-/

namespace ChomskyChart

open Relation

namespace Grammar

variable {g : Grammar} {form last : Body} {word : List String}

/-- One nonterminal of the sequence gives way to one of its bodies. -/
def Rewrites (g : Grammar) (form form' : Body) : Prop :=
  ∃ before head body after, g.HasRule head body ∧
    form = before ++ .nonterminal head :: after ∧ form' = before ++ body ++ after

/-- The sequence has no nonterminals, and its terminals have the names in the word. -/
def Spells (g : Grammar) (form : Body) (word : List String) : Prop :=
  Reads g.terminals (fun _ _ => False) form word

theorem Rewrites.append_left {form' : Body} (h : g.Rewrites form form') (left : Body) :
    g.Rewrites (left ++ form) (left ++ form') := by
  obtain ⟨before, head, body, after, hrule, rfl, rfl⟩ := h
  exact ⟨left ++ before, head, body, after, hrule, by simp, by simp⟩

theorem Rewrites.append_right {form' : Body} (h : g.Rewrites form form') (right : Body) :
    g.Rewrites (form ++ right) (form' ++ right) := by
  obtain ⟨before, head, body, after, hrule, rfl, rfl⟩ := h
  exact ⟨before, head, body, after ++ right, hrule, by simp, by simp⟩

/-- Two sequences that stand side by side are rewritten one after the other. -/
theorem rewrites_append {left left' right right' : Body}
    (hleft : ReflTransGen g.Rewrites left left') (hright : ReflTransGen g.Rewrites right right') :
    ReflTransGen g.Rewrites (left ++ right) (left' ++ right') :=
  (hleft.lift (· ++ right) fun _ _ h => h.append_right right).trans
    (hright.lift (left' ++ ·) fun _ _ h => h.append_left left')

/-- A step backwards keeps the words of a sequence. -/
theorem Rewrites.yields {form' : Body} (h : g.Rewrites form form') (hword : g.Yields form' word) :
    g.Yields form word := by
  obtain ⟨before, head, body, after, hrule, rfl, rfl⟩ := h
  rw [yields_iff_reads, List.append_assoc, reads_append_iff] at hword
  obtain ⟨first, _, rfl, hfirst, hrest⟩ := hword
  obtain ⟨middle, tail, rfl, hmiddle, htail⟩ := reads_append_iff.1 hrest
  rw [yields_iff_reads, reads_append_iff]
  exact ⟨first, _, rfl, hfirst, middle, tail, rfl, g.closed_derives hrule hmiddle, htail⟩

/-- **Derived words are those that rewriting leads to.** -/
theorem yields_iff_rewrites :
    g.Yields form word ↔ ∃ last, ReflTransGen g.Rewrites form last ∧ g.Spells last word := by
  constructor
  · intro hword
    induction hword with
    | nil => exact ⟨[], .refl, rfl⟩
    | @terminal index name rest word hname _ ih =>
      obtain ⟨last, hsteps, hspells⟩ := ih
      exact ⟨.terminal index :: last,
        hsteps.lift (.terminal index :: ·) fun _ _ h => h.append_left [.terminal index],
        name, word, rfl, hname, hspells⟩
    | @nonterminal index row body rest word tail hrow hmem _ _ ihbody ihrest =>
      obtain ⟨first, hfirst, hfirst'⟩ := ihbody
      obtain ⟨last, hlast, hlast'⟩ := ihrest
      have hstep : g.Rewrites (.nonterminal index :: rest) (body ++ rest) :=
        ⟨[], index, body, rest, ⟨row, hrow, hmem⟩, rfl, rfl⟩
      exact ⟨first ++ last, (rewrites_append hfirst hlast).head hstep,
        reads_append_iff.2 ⟨word, tail, rfl, hfirst', hlast'⟩⟩
  · rintro ⟨last, hsteps, hspells⟩
    induction hsteps using ReflTransGen.head_induction_on with
    | refl => exact yields_iff_reads.2 (hspells.mono fun _ _ _ => False.elim)
    | head hstep _ ih => exact hstep.yields ih

theorem derives_iff_rewrites {index : Nat} :
    g.Derives index word ↔
      ∃ last, ReflTransGen g.Rewrites [.nonterminal index] last ∧ g.Spells last word :=
  yields_iff_rewrites

end Grammar

end ChomskyChart
