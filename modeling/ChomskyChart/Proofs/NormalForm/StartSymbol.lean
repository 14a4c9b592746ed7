import ChomskyChart.NormalForm.StartSymbol
import ChomskyChart.Proofs.Grammar.NewNames
import ChomskyChart.Proofs.Language.Extension

/-!
# The new start symbol

The new start symbol comes after all nonterminals of the grammar, and it has one rule, to the old
start symbol. So the old nonterminals derive what they derived, the new one derives what the old
start symbol derives, and no body uses it. Later steps only ever add nonterminals that are no start
symbol to bodies, which is why the last of these facts survives them all.

## Main definitions

* `Grammar.StartUnused`: the start symbol occurs in no body

## Main results

* `hasRule_withNewStart_iff`: the rules afterwards
* `extends_withNewStart`, `derives_start_withNewStart_iff`: the words afterwards
* `wellFormed_withNewStart`, `startUnused_withNewStart`: the form of the grammar afterwards
-/

namespace ChomskyChart

namespace Grammar

/-- The start symbol occurs in no body. -/
def StartUnused (g : Grammar) : Prop :=
  ∀ head body, g.HasRule head body → .nonterminal g.start ∉ body

variable {g : Grammar} {names : FreshNames} {config : NormalFormNames}

/-! ### Parts -/

@[simp] theorem start_withNewStart : (g.withNewStart names config).1.start = g.rows.length := rfl

@[simp] theorem terminals_withNewStart :
    (g.withNewStart names config).1.terminals = g.terminals := rfl

theorem nonterminals_withNewStart :
    (g.withNewStart names config).1.nonterminals =
      g.nonterminals ++ [(names.fresh config.start).1] := rfl

theorem hasRule_withNewStart_iff {head : Nat} {body : Body} :
    (g.withNewStart names config).1.HasRule head body ↔
      g.HasRule head body ∨ head = g.rows.length ∧ body = [.nonterminal g.start] := by
  have hrows : (g.withNewStart names config).1.rows = g.rows ++ [[[.nonterminal g.start]]] := rfl
  rw [hasRule_append_iff hrows]
  refine or_congr Iff.rfl ?_
  constructor
  · rintro ⟨k, row, rfl, hrow, hbody⟩
    obtain rfl : k = 0 := by
      have := (List.getElem?_eq_some_iff.1 hrow).1
      simpa using this
    obtain rfl : [[.nonterminal g.start]] = row := by simpa using hrow
    exact ⟨rfl, by simpa using hbody⟩
  · rintro ⟨rfl, rfl⟩
    exact ⟨0, _, rfl, rfl, List.mem_cons_self⟩

/-! ### Words -/

/-- The new start symbol stands for the old one. -/
theorem extends_withNewStart (h : g.WellFormed) :
    (g.withNewStart names config).1.Extends g [[.nonterminal g.start]] where
  terminals_eq := rfl
  closed_extended := by
    intro head body word hrule hbody
    rcases hasRule_withNewStart_iff.1 hrule with hold | ⟨rfl, rfl⟩
    · rw [terminals_withNewStart, reads_extended_iff fun _ => h.nonterminal_lt hold] at hbody
      exact (extended_of_lt hold.lt_length_rows).2 (closed_derives g hold hbody)
    · have hstart : g.start < g.rows.length := h.length_rows ▸ h.start_lt
      rw [terminals_withNewStart, reads_nonterminal_iff, extended_of_lt hstart] at hbody
      exact extended_add (k := 0).2 ⟨_, rfl, reads_nonterminal_iff.2 hbody⟩
  closed_derives := fun head body word hrule hbody =>
    closed_derives _ (hasRule_withNewStart_iff.2 (.inl hrule)) hbody
  derives_of_reads := by
    intro k body hbody word hword
    obtain ⟨rfl, rfl⟩ : k = 0 ∧ [.nonterminal g.start] = body := by
      cases k with
      | zero => exact ⟨rfl, by simpa using hbody⟩
      | succ k => exact nomatch hbody
    exact closed_derives _ (hasRule_withNewStart_iff.2 (.inr ⟨rfl, rfl⟩)) hword

/-- **The new start symbol derives what the old one derives.** -/
theorem derives_start_withNewStart_iff (h : g.WellFormed) {word : List String} :
    (g.withNewStart names config).1.Derives (g.withNewStart names config).1.start word ↔
      g.Derives g.start word := by
  rw [start_withNewStart, ← Nat.add_zero g.rows.length, (extends_withNewStart h).derives_add_iff]
  simp [reads_nonterminal_iff]

/-! ### Form -/

theorem wellFormed_withNewStart (h : g.WellFormed) (hcovers : names.Covers g) :
    (g.withNewStart names config).1.WellFormed := by
  have hlength := h.length_rows
  have hstart := h.start_lt
  refine h.extend hcovers (names.draws_fresh config.start) rfl rfl
    (by simp [withNewStart, hlength]) (by simp [withNewStart, hlength]) ?_
  refine forall_mem_rows_iff.2 fun head body hrule s hs => ?_
  rcases hasRule_withNewStart_iff.1 hrule with hold | ⟨rfl, rfl⟩
  · cases s with
    | terminal index => exact h.terminal_lt hold hs
    | nonterminal index =>
      have hlt := h.nonterminal_lt hold hs
      simp only [Declares, nonterminals_withNewStart, List.length_append, List.length_singleton]
      omega
  · obtain rfl : s = .nonterminal g.start := by simpa using hs
    simp only [Declares, nonterminals_withNewStart, List.length_append, List.length_singleton]
    omega

theorem covers_withNewStart (hcovers : names.Covers g) :
    (g.withNewStart names config).2.Covers (g.withNewStart names config).1 :=
  hcovers.extend (names.draws_fresh config.start) rfl rfl

theorem startUnused_withNewStart (h : g.WellFormed) :
    (g.withNewStart names config).1.StartUnused := by
  intro head body hrule hmem
  rcases hasRule_withNewStart_iff.1 hrule with hold | ⟨rfl, rfl⟩
  · exact absurd (h.nonterminal_lt hold hmem) (Nat.lt_irrefl _)
  · have hstart := h.start_lt
    have hlength := h.length_rows
    rw [start_withNewStart, List.mem_singleton, SymbolId.nonterminal.injEq] at hmem
    omega

end Grammar

end ChomskyChart
