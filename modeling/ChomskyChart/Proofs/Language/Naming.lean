import ChomskyChart.Grammar.NormalShape
import ChomskyChart.Grammar.Printer
import ChomskyChart.Proofs.Language.Reading

/-!
# Rules in names

A grammar keeps its rules in positions, but it shows and refuses them in names. Where the parts of
the grammar fit together every rule has names. Where they do not, writing a rule down may be the
first time that a position is looked up, and then a fault comes of it.

The check for normal form writes down the first rule of another shape. So whether it answers depends
on that one rule, and not on whether the grammar is well-formed. The check for well-formedness on
the other hand looks up nothing that is not there.

## Main definitions

* `Grammar.HasNames`: the head of a rule and its symbols have names
* `Grammar.oddRule?`, `Grammar.NamesOddRule`: the rule that the check for normal form writes down

## Main results

* `HasNames.exists_production`, `production_eq_fault`: when a rule can be written down
* `NamesOddRule.exists_isNormalForm`, `isNormalForm_eq_fault`: when the question for the normal form
  is answered
* `exists_validate_eq_refused`: what is not well-formed is refused
* `WellFormed.exists_productions`, `WellFormed.exists_text`: a well-formed grammar is written down
-/

namespace ChomskyChart

/-- A run over a list goes through if it does at every entry. -/
theorem exists_mapM_eq_ok {α β : Type} {f : α → Except Failure β} {xs : List α}
    (h : ∀ x ∈ xs, ∃ y, f x = .ok y) : ∃ ys, xs.mapM f = .ok ys := by
  induction xs with
  | nil => exact ⟨[], rfl⟩
  | cons x rest ih =>
    obtain ⟨y, hy⟩ := h x List.mem_cons_self
    obtain ⟨ys, hys⟩ := ih fun z hz => h z (List.mem_cons_of_mem x hz)
    refine ⟨y :: ys, ?_⟩
    rw [List.mapM_cons, hy, hys]
    rfl

/-- It fails if it fails at one of the entries, whatever comes before. -/
theorem mapM_eq_error {α β : Type} {f : α → Except Failure β} {e : Failure} {xs : List α} {x : α}
    (hx : x ∈ xs) (hfails : f x = .error e)
    (hsame : ∀ y ∈ xs, ∀ e', f y = .error e' → e' = e) : xs.mapM f = .error e := by
  induction xs with
  | nil => exact nomatch hx
  | cons y rest ih =>
    rw [List.mapM_cons]
    rcases List.mem_cons.1 hx with rfl | hrest
    · rw [hfails]
      rfl
    · cases hy : f y with
      | error e' =>
        rw [hsame y List.mem_cons_self e' hy]
        rfl
      | ok z =>
        rw [ih hrest fun w hw => hsame w (List.mem_cons_of_mem y hw)]
        rfl

namespace Grammar

variable {g : Grammar} {head : Nat} {body : Body} {s : SymbolId}

/-! ### One rule -/

/-- The head of the rule has a name, and so has every symbol of its body. -/
def HasNames (g : Grammar) (head : Nat) (body : Body) : Prop :=
  head < g.nonterminals.length ∧ ∀ s ∈ body, g.Declares s

instance (g : Grammar) (head : Nat) (body : Body) : Decidable (g.HasNames head body) :=
  inferInstanceAs (Decidable (_ ∧ _))

theorem WellFormed.hasNames (h : g.WellFormed) (hrule : g.HasRule head body) :
    g.HasNames head body :=
  ⟨h.length_rows ▸ hrule.lt_length_rows, forall_mem_rows_iff.1 h.declares head body hrule⟩

theorem exists_symbol (h : g.Declares s) : ∃ symbol, g.symbol s = .ok symbol := by
  cases s with
  | terminal t => exact ⟨_, by rw [symbol, lookUp_of_lt h]; rfl⟩
  | nonterminal index => exact ⟨_, by rw [symbol, lookUp_of_lt h]; rfl⟩

theorem symbol_eq_fault (h : ¬g.Declares s) : g.symbol s = .error (.fault .outOfRange) := by
  cases s with
  | terminal t =>
    rw [symbol, lookUp_eq_error_iff.2 ⟨Nat.le_of_not_lt h, rfl⟩]
    rfl
  | nonterminal index =>
    rw [symbol, lookUp_eq_error_iff.2 ⟨Nat.le_of_not_lt h, rfl⟩]
    rfl

/-- **A rule that has names is written down.** -/
theorem HasNames.exists_production (h : g.HasNames head body) :
    ∃ production, g.production head body = .ok production := by
  obtain ⟨hlt, hdeclares⟩ := h
  obtain ⟨symbols, hsymbols⟩ := exists_mapM_eq_ok fun s hs => exists_symbol (hdeclares s hs)
  refine ⟨⟨g.nonterminals[head], symbols⟩, ?_⟩
  rw [production, nonterminalName, lookUp_of_lt hlt, hsymbols]
  rfl

/-- **A rule that lacks a name is not.** -/
theorem production_eq_fault (h : ¬g.HasNames head body) :
    g.production head body = .error (.fault .outOfRange) := by
  rw [production, nonterminalName]
  rcases Nat.lt_or_ge head g.nonterminals.length with hlt | hge
  · obtain ⟨s, hs, hstray⟩ : ∃ s ∈ body, ¬g.Declares s := by
      simpa [HasNames, hlt] using h
    have hsame : ∀ t ∈ body, ∀ e, g.symbol t = .error e → e = .fault .outOfRange := by
      intro t _ e he
      by_cases ht : g.Declares t
      · obtain ⟨symbol, hsymbol⟩ := exists_symbol ht
        exact nomatch he.symm.trans hsymbol
      · exact Except.error.inj (he.symm.trans (symbol_eq_fault ht))
    rw [lookUp_of_lt hlt, mapM_eq_error hs (symbol_eq_fault hstray) hsame]
    rfl
  · rw [lookUp_eq_error_iff.2 ⟨hge, rfl⟩]
    rfl

/-! ### The check for normal form -/

/-- The first rule of another shape than a normal form has. -/
def oddRule? (g : Grammar) : Option (Nat × Body) :=
  g.headedBodies.find? fun entry => !hasNormalShape entry.2

/-- If there is a rule of another shape, then the first of these has names. -/
def NamesOddRule (g : Grammar) : Prop :=
  ∀ entry, g.oddRule? = some entry → g.HasNames entry.1 entry.2

instance (g : Grammar) : Decidable g.NamesOddRule :=
  decidable_of_iff (∀ entry ∈ g.oddRule?, g.HasNames entry.1 entry.2) Iff.rfl

theorem WellFormed.namesOddRule (h : g.WellFormed) : g.NamesOddRule := fun _ hentry =>
  h.hasNames (mem_headedBodies.1 (List.mem_of_find?_eq_some hentry))

/-- The check passes, or it refuses the grammar. -/
theorem NamesOddRule.checkNormalForm_cases (h : g.NamesOddRule) :
    (g.InNormalForm ∧ g.checkNormalForm = .ok ()) ∨
      ¬g.InNormalForm ∧ ∃ cause, g.checkNormalForm = .error (.refused cause) := by
  cases hodd : g.oddRule? with
  | none =>
    have hnormal := find?_headedBodies_eq_none_iff.1 hodd
    exact .inl ⟨hnormal, checkNormalForm_eq_ok_iff.2 hnormal⟩
  | some entry =>
    obtain ⟨production, hproduction⟩ := (h entry hodd).exists_production
    rw [oddRule?] at hodd
    refine .inr ⟨fun hnormal => ?_, .notInNormalForm production, ?_⟩
    · exact nomatch hodd.symm.trans (find?_headedBodies_eq_none_iff.2 hnormal)
    · simp only [checkNormalForm, hodd, hproduction, bind, Except.bind]
      rfl

/-- **The question for the normal form is answered,** if the rule that the check writes down has
names. -/
theorem NamesOddRule.exists_isNormalForm (h : g.NamesOddRule) :
    ∃ flag, g.isNormalForm = .ok flag ∧ (flag = true ↔ g.InNormalForm) := by
  rw [isNormalForm]
  obtain ⟨hnormal, hcheck⟩ | ⟨hodd, cause, hcheck⟩ := h.checkNormalForm_cases
  · exact ⟨true, by rw [hcheck]; rfl, iff_of_true rfl hnormal⟩
  · exact ⟨false, by rw [hcheck]; rfl, iff_of_false Bool.false_ne_true hodd⟩

theorem WellFormed.isNormalForm_eq_ok (h : g.WellFormed) :
    ∃ flag, g.isNormalForm = .ok flag ∧ (flag = true ↔ g.InNormalForm) :=
  h.namesOddRule.exists_isNormalForm

/-- **Otherwise it is not,** and that is a fault. -/
theorem isNormalForm_eq_fault (h : ¬g.NamesOddRule) :
    g.isNormalForm = .error (.fault .outOfRange) := by
  obtain ⟨entry, hodd, hnames⟩ :
      ∃ entry, g.oddRule? = some entry ∧ ¬g.HasNames entry.1 entry.2 := by
    simpa [NamesOddRule] using h
  rw [oddRule?] at hodd
  simp only [isNormalForm, checkNormalForm, hodd, production_eq_fault hnames, bind, Except.bind]
  rfl

/-! ### The check for well-formedness -/

/-- **A grammar that does not pass is refused.** To name the flaw nothing has to be looked up but
the head of a rule, and by then every row is known to have a name. -/
theorem exists_validate_eq_refused (h : ¬g.WellFormed) :
    ∃ cause, g.validate = .error (.refused cause) := by
  rw [validate]
  split
  · exact ⟨_, rfl⟩
  rename_i hrows
  split
  · exact ⟨_, rfl⟩
  rename_i hstart
  split
  · exact ⟨_, rfl⟩
  rename_i hnonterminals
  split
  · exact ⟨_, rfl⟩
  rename_i hterminals
  cases hshared : g.terminals.find? g.nonterminals.contains with
  | some name => exact ⟨_, rfl⟩
  | none =>
    cases hstray : g.strayUse? with
    | none =>
      exact absurd ⟨Decidable.not_not.1 hrows, Nat.lt_of_not_le hstart,
        Decidable.not_not.1 hnonterminals, Decidable.not_not.1 hterminals, by simpa using hshared,
        strayUse?_eq_none_iff.1 hstray⟩ h
    | some use =>
      obtain ⟨entry, hentry, hfound⟩ := List.exists_of_findSome?_eq_some hstray
      obtain ⟨s, -, rfl⟩ := Option.map_eq_some_iff.1 hfound
      obtain ⟨row, hrow, -⟩ := mem_headedBodies.1 hentry
      have hlt : entry.1 < g.nonterminals.length :=
        Decidable.not_not.1 hrows ▸ (List.getElem?_eq_some_iff.1 hrow).1
      refine ⟨.undeclaredSymbol g.nonterminals[entry.1] (describe s), ?_⟩
      simp only [nonterminalName, lookUp_of_lt hlt, bind, Except.bind]
      rfl

/-! ### The whole grammar -/

theorem WellFormed.exists_productions (h : g.WellFormed) :
    ∃ productions, g.productions = .ok productions :=
  exists_mapM_eq_ok fun _ hentry => (h.hasNames (mem_headedBodies.1 hentry)).exists_production

/-- The rules of one nonterminal are written on a line. -/
theorem WellFormed.exists_ruleLine (h : g.WellFormed) {row : Row}
    (hrow : g.rows[head]? = some row) : ∃ line, g.ruleLine head row = .ok line := by
  have hhead : head < g.nonterminals.length :=
    h.length_rows ▸ (List.getElem?_eq_some_iff.1 hrow).1
  have hbodies : ∀ body ∈ row, ∃ text, g.bodyText body = .ok text := by
    intro body hmem
    obtain ⟨symbols, hsymbols⟩ :=
      exists_mapM_eq_ok fun s hs => exists_symbol ((h.hasNames ⟨row, hrow, hmem⟩).2 s hs)
    cases body with
    | nil => exact ⟨_, rfl⟩
    | cons s rest => exact ⟨_, by simp only [bodyText, hsymbols, bind, Except.bind]; rfl⟩
  obtain ⟨bodies, hbodies⟩ := exists_mapM_eq_ok hbodies
  exact ⟨_, by rw [ruleLine, nonterminalName, lookUp_of_lt hhead, hbodies]; rfl⟩

/-- **A well-formed grammar is written down as text.** -/
theorem WellFormed.exists_text (h : g.WellFormed) : ∃ text, g.text = .ok text := by
  obtain ⟨lines, hlines⟩ : ∃ lines, g.ruleLines = .ok lines := exists_mapM_eq_ok fun _ hentry =>
    h.exists_ruleLine (List.mem_zipIdx_iff_getElem?.1 hentry)
  exact ⟨_, by rw [text, startName, nonterminalName, lookUp_of_lt h.start_lt, hlines]; rfl⟩

end Grammar

end ChomskyChart
