import ChomskyChart.Proofs.Language.Naming

/-!
# Words in normal form

In a grammar in normal form a nonterminal derives a word in one of two ways: the word is a terminal,
or it falls into two words that the symbols of a body derive. Neither way leads to the empty word,
so both parts are shorter than the word, which is what charts rest on.

## Main results

* `InNormalForm.derives_iff`: the two ways
* `InNormalForm.ne_nil_of_derives`: no nonterminal derives the empty word
-/

namespace ChomskyChart

theorem hasNormalShape_iff {body : Body} :
    hasNormalShape body = true ↔
      (∃ t, body = [.terminal t]) ∨
        ∃ left right, body = [.nonterminal left, .nonterminal right] := by
  constructor
  · intro h
    fun_cases hasNormalShape body with
    | case1 t => exact .inl ⟨t, rfl⟩
    | case2 left right => exact .inr ⟨left, right, rfl⟩
    | case3 hterminal hpair => simp [hasNormalShape] at h
  · rintro (⟨t, rfl⟩ | ⟨left, right, rfl⟩) <;> rfl

namespace Grammar

variable {g : Grammar} {index : Nat} {word : List String}

theorem InNormalForm.shape (h : g.InNormalForm) {head : Nat} {body : Body}
    (hrule : g.HasRule head body) :
    (∃ t, body = [.terminal t]) ∨ ∃ left right, body = [.nonterminal left, .nonterminal right] :=
  hasNormalShape_iff.1 (forall_mem_rows_iff.1 h head body hrule)

/-- **Words are terminals or fall into two parts.** -/
theorem InNormalForm.derives_iff (h : g.InNormalForm) :
    g.Derives index word ↔
      (∃ t name, g.HasRule index [.terminal t] ∧ g.terminals[t]? = some name ∧ word = [name]) ∨
      ∃ left right, g.HasRule index [.nonterminal left, .nonterminal right] ∧
        ∃ first tail, word = first ++ tail ∧ g.Derives left first ∧ g.Derives right tail := by
  rw [derives_iff_reads]
  constructor
  · rintro ⟨body, hrule, hbody⟩
    rcases h.shape hrule with ⟨t, rfl⟩ | ⟨left, right, rfl⟩
    · obtain ⟨name, hname, rfl⟩ := reads_terminal_iff.1 hbody
      exact .inl ⟨t, name, hrule, hname, rfl⟩
    · exact .inr ⟨left, right, hrule, reads_pair_iff.1 hbody⟩
  · rintro (⟨t, name, hrule, hname, rfl⟩ | ⟨left, right, hrule, hparts⟩)
    · exact ⟨_, hrule, reads_terminal_iff.2 ⟨name, hname, rfl⟩⟩
    · exact ⟨_, hrule, reads_pair_iff.2 hparts⟩

theorem InNormalForm.ne_nil_of_derives (h : g.InNormalForm) (hword : g.Derives index word) :
    word ≠ [] := by
  refine hword.of_closed (S := fun _ word => word ≠ []) fun head body word hrule hbody => ?_
  rcases h.shape hrule with ⟨t, rfl⟩ | ⟨left, right, rfl⟩
  · obtain ⟨name, -, rfl⟩ := reads_terminal_iff.1 hbody
    exact List.cons_ne_nil name []
  · obtain ⟨first, tail, rfl, hfirst, -⟩ := reads_pair_iff.1 hbody
    exact List.append_ne_nil_of_left_ne_nil hfirst tail

end Grammar

end ChomskyChart
