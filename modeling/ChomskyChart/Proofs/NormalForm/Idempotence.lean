import ChomskyChart.Proofs.NormalForm.Unchanged

/-!
# Normalizing twice

A normal form that is normalized again only gets another start symbol. Of the six steps the second,
the third and the fourth find nothing to do, the fifth gives the bodies of the old start symbol to
the new one, and the last takes the old start symbol out, to which nothing leads any more.

If the start symbol derives no word, then it goes already with the nonterminals that derive nothing,
before the others are looked for from the new start symbol. In this case there are no others.

## Main definitions

* `Grammar.startLast`, `Grammar.symbolStartLast`: where nonterminals stand once the start symbol has
  gone behind all others
* `Grammar.withStartLast`: the grammar with its start symbol behind all others
* `Grammar.withStartCopy`: the grammar with a second start symbol that has the bodies of the first
* `Grammar.Trim`: a grammar in normal form, without anything useless

## Main results

* `Stages.trim_normal`: what normalizing makes is trim
* `Trim.result_withStartCopy`: what the last step makes of the two start symbols
* `Trim.normalize_eq`: what normalizing makes of a trim grammar
* `normalize_normalize`: the normal form of a normal form
-/

namespace ChomskyChart

open Relation

/-! ### All but one -/

/-- An entry after the entry at `s` has gone and another one has come to the end. -/
theorem getElem?_eraseIdx_append {α : Type} {xs : List α} {x : α} {s i : Nat} (hs : s < xs.length)
    (hi : i < xs.length) :
    (xs.eraseIdx s ++ [x])[if i = s then xs.length - 1 else if i < s then i else i - 1]? =
      if i = s then some x else xs[i]? := by
  have hlength := List.length_eraseIdx_of_lt hs
  rw [List.getElem?_append, hlength]
  by_cases heq : i = s
  · rw [if_pos heq, if_pos heq, if_neg (Nat.lt_irrefl _), Nat.sub_self, List.getElem?_cons_zero]
  · rw [if_neg heq, if_neg heq, List.getElem?_eraseIdx]
    rcases Nat.lt_or_ge i s with hlt | hge
    · rw [if_pos hlt, if_pos (by omega), if_pos hlt]
    · have hsucc : i - 1 + 1 = i := by omega
      rw [if_neg (Nat.not_lt.2 hge), if_pos (by omega), if_neg (by omega), hsucc]

section

variable {flags : List Bool} {s i : Nat}

theorem newPosition_eq_of_iff (h : ∀ j < i, flags[j]? = some true ↔ j ≠ s) :
    newPosition flags i = if i ≤ s then i else i - 1 := by
  induction i with
  | zero => simp
  | succ i ih =>
    rw [newPosition_succ, ih fun j hj => h j (Nat.lt_succ_of_lt hj)]
    simp only [h i (Nat.lt_succ_self i)]
    split <;> split <;> split <;> omega

theorem select_eq_eraseIdx {α : Type} {xs : List α} (hlength : flags.length = xs.length)
    (h : ∀ i < xs.length, flags[i]? = some true ↔ i ≠ s) : select flags xs = xs.eraseIdx s := by
  induction xs generalizing flags s with
  | nil => simp [select]
  | cons x rest ih =>
    obtain ⟨flag, more, rfl⟩ := List.exists_cons_of_length_eq_add_one hlength
    cases s with
    | zero =>
      obtain rfl : flag = false := by simpa using h 0 (by simp)
      rw [select_false_cons, List.eraseIdx_cons_zero]
      refine select_eq_self (by simpa using hlength) fun i hi => ?_
      simpa using h (i + 1) (by simpa using hi)
    | succ s =>
      obtain rfl : flag = true := by simpa using h 0 (by simp)
      rw [select_true_cons, List.eraseIdx_cons_succ, ih (by simpa using hlength)]
      intro i hi
      simpa using h (i + 1) (by simpa using hi)

end

namespace Grammar

variable {g : Grammar}

/-! ### The start symbol behind all others -/

/-- Where a nonterminal stands once the start symbol has gone behind all others. -/
def startLast (g : Grammar) (index : Nat) : Nat :=
  if index = g.start then g.nonterminals.length - 1
  else if index < g.start then index else index - 1

/-- A symbol once the start symbol has gone behind all others. -/
def symbolStartLast (g : Grammar) : SymbolId → SymbolId
  | .terminal index => .terminal index
  | .nonterminal index => .nonterminal (g.startLast index)

/-- The grammar with its start symbol behind all others and under another name. -/
def withStartLast (g : Grammar) (name : String) : Grammar :=
  { g with
    nonterminals := g.nonterminals.eraseIdx g.start ++ [name]
    rows := (g.rows.eraseIdx g.start ++ [g.rows[g.start]?.getD []]).map
      (·.map (·.map g.symbolStartLast))
    start := g.startLast g.start }

theorem getElem?_nonterminals_withStartLast (h : g.WellFormed) {name : String} {index : Nat}
    (hlt : index < g.nonterminals.length) (hne : index ≠ g.start) :
    (g.withStartLast name).nonterminals[g.startLast index]? = g.nonterminals[index]? :=
  (getElem?_eraseIdx_append h.start_lt hlt).trans (if_neg hne)

/-- **Every row stays,** in new positions. -/
theorem getElem?_rows_withStartLast (h : g.WellFormed) {name : String} {index : Nat}
    (hlt : index < g.nonterminals.length) :
    (g.withStartLast name).rows[g.startLast index]? =
      g.rows[index]?.map (·.map (·.map g.symbolStartLast)) := by
  have hstart := h.start_lt
  rw [← h.length_rows] at hlt hstart
  rw [withStartLast, List.getElem?_map, startLast, ← h.length_rows,
    getElem?_eraseIdx_append hstart hlt]
  split
  · rename_i heq
    rw [heq, List.getElem?_eq_getElem hstart, Option.getD_some]
  · rfl

theorem length_nonterminals_withStartLast (h : g.WellFormed) {name : String} :
    (g.withStartLast name).nonterminals.length = g.nonterminals.length := by
  have hstart := h.start_lt
  rw [withStartLast, List.length_append, List.length_eraseIdx_of_lt hstart, List.length_singleton]
  omega

theorem length_rows_withStartLast (h : g.WellFormed) {name : String} :
    (g.withStartLast name).rows.length = g.rows.length := by
  have hstart := h.length_rows ▸ h.start_lt
  rw [withStartLast, List.length_map, List.length_append, List.length_eraseIdx_of_lt hstart,
    List.length_singleton]
  omega

/-- **There are as many bodies.** -/
theorem size_withStartLast (h : g.WellFormed) {name : String} :
    (g.withStartLast name).size = g.size := by
  have hstart := h.length_rows ▸ h.start_lt
  have hperm : (g.rows.eraseIdx g.start ++ [g.rows[g.start]?.getD []]).Perm g.rows := by
    rw [List.getElem?_eq_getElem hstart, Option.getD_some]
    exact (List.perm_append_singleton _ _).trans (List.getElem_cons_eraseIdx_perm hstart)
  have hlength : ∀ row : Row, (row.map (·.map g.symbolStartLast)).length = row.length :=
    fun row => List.length_map _
  simp only [size, withStartLast, List.length_flatten, List.map_map, Function.comp_def, hlength]
  exact (hperm.map _).sum_eq

/-! ### The old start symbol goes -/

/-- The grammar with another start symbol at the end, which has the bodies of the first. -/
def withStartCopy (g : Grammar) (name : String) : Grammar :=
  { g with
    nonterminals := g.nonterminals ++ [name]
    rows := g.rows ++ [g.rows[g.start]?.getD []]
    start := g.rows.length }

@[simp] theorem start_withStartCopy {name : String} :
    (g.withStartCopy name).start = g.rows.length := rfl

@[simp] theorem length_rows_withStartCopy {name : String} :
    (g.withStartCopy name).rows.length = g.rows.length + 1 :=
  List.length_append

theorem hasRule_withStartCopy_iff {name : String} {head : Nat} {body : Body} :
    (g.withStartCopy name).HasRule head body ↔
      g.HasRule head body ∨ head = g.rows.length ∧ g.HasRule g.start body := by
  have hrows : (g.withStartCopy name).rows = g.rows ++ [g.rows[g.start]?.getD []] := rfl
  rw [hasRule_append_iff hrows]
  refine or_congr Iff.rfl ⟨?_, fun ⟨heq, hrule⟩ => ⟨0, _, heq, rfl, mem_getD_rows_iff.2 hrule⟩⟩
  rintro ⟨k, row, rfl, hrow, hbody⟩
  cases k with
  | zero => exact ⟨rfl, mem_getD_rows_iff.1 (Option.some.inj hrow ▸ hbody)⟩
  | succ k => exact nomatch hrow

/-- The second start symbol brings no bodies of its own. -/
theorem exists_hasRule_of_withStartCopy {name : String} {head : Nat} {body : Body}
    (hrule : (g.withStartCopy name).HasRule head body) : ∃ old, g.HasRule old body := by
  rcases hasRule_withStartCopy_iff.1 hrule with hold | ⟨-, hold⟩
  · exact ⟨head, hold⟩
  · exact ⟨g.start, hold⟩

theorem derives_withStartCopy {name : String} {index : Nat} {word : List String}
    (hword : g.Derives index word) : (g.withStartCopy name).Derives index word :=
  hword.of_closed fun _ _ _ hrule hbody =>
    closed_derives _ (hasRule_withStartCopy_iff.2 (.inl hrule)) hbody

/-- Where all but the start symbol stay, the symbols of bodies close up. -/
theorem moved_eq_symbolStartLast (h : g.WellFormed) (hunused : g.StartUnused) {keep : List Bool}
    (hkeep : ∀ i < g.rows.length, keep[i]? = some true ↔ i ≠ g.start) {head : Nat} {body : Body}
    (hrule : g.HasRule head body) {s : SymbolId} (hs : s ∈ body) :
    staysIn keep s = true ∧ moved keep s = g.symbolStartLast s := by
  cases s with
  | terminal t => exact ⟨rfl, rfl⟩
  | nonterminal index =>
    have hlt : index < g.rows.length := h.nonterminal_lt hrule hs
    have hne : index ≠ g.start := by
      rintro rfl
      exact hunused head body hrule hs
    refine ⟨beq_iff_eq.2 ((hkeep index hlt).2 hne), ?_⟩
    have hbefore : index ≤ g.start ↔ index < g.start :=
      ⟨fun hle => Nat.lt_of_le_of_ne hle hne, Nat.le_of_lt⟩
    rw [moved, symbolStartLast, startLast, if_neg hne,
      newPosition_eq_of_iff fun j hj => hkeep j (Nat.lt_trans hj hlt)]
    simp only [hbefore]

/-- Without the old start symbol, the others close up. -/
theorem restricted_withStartCopy (h : g.WellFormed) (hunused : g.StartUnused) {name : String}
    {keep : List Bool} (hlength : keep.length = (g.withStartCopy name).rows.length)
    (hkeep : ∀ i < (g.withStartCopy name).rows.length, keep[i]? = some true ↔ i ≠ g.start) :
    (g.withStartCopy name).restricted keep = g.withStartLast name := by
  have hstart := h.start_lt
  have hstart' : g.start < g.rows.length := h.length_rows ▸ hstart
  rw [length_rows_withStartCopy] at hlength hkeep
  have hold : ∀ i < g.rows.length, keep[i]? = some true ↔ i ≠ g.start :=
    fun i hi => hkeep i (Nat.lt_succ_of_lt hi)
  have hnames : select keep (g.nonterminals ++ [name]) =
      g.nonterminals.eraseIdx g.start ++ [name] := by
    rw [← List.eraseIdx_append_of_lt_length hstart]
    refine select_eq_eraseIdx ?_ fun i hi => hkeep i ?_
    · rw [hlength, List.length_append, h.length_rows, List.length_singleton]
    · rwa [List.length_append, ← h.length_rows] at hi
  have hselect : select keep (g.rows ++ [g.rows[g.start]?.getD []]) =
      g.rows.eraseIdx g.start ++ [g.rows[g.start]?.getD []] := by
    rw [← List.eraseIdx_append_of_lt_length hstart']
    refine select_eq_eraseIdx ?_ fun i hi => hkeep i ?_
    · rw [hlength, List.length_append, List.length_singleton]
    · rwa [List.length_append] at hi
  have hrow : ∀ row ∈ g.rows.eraseIdx g.start ++ [g.rows[g.start]?.getD []],
      restrictRow keep row = row.map (·.map g.symbolStartLast) := by
    intro row hrow
    refine restrictRow_eq fun body hbody s hs => ?_
    rcases List.mem_append.1 hrow with hother | hlast
    · obtain ⟨head, hhead⟩ := List.getElem?_of_mem (List.mem_of_mem_eraseIdx hother)
      exact moved_eq_symbolStartLast h hunused hold ⟨row, hhead, hbody⟩ hs
    · obtain rfl := List.mem_singleton.1 hlast
      exact moved_eq_symbolStartLast h hunused hold (mem_getD_rows_iff.1 hbody) hs
  have hposition : newPosition keep g.rows.length = g.startLast g.start := by
    rw [newPosition_eq_of_iff hold, if_neg (Nat.not_le.2 hstart'), startLast, if_pos rfl,
      h.length_rows]
  simp only [restricted, withStartCopy, withStartLast, hnames, hselect, List.map_congr_left hrow,
    hposition]

/-! ### Trim grammars -/

/-- The grammar is in normal form, nothing in it is written twice, and nothing is useless. Only the
start symbol may derive no word. -/
structure Trim (g : Grammar) : Prop where
  wellFormed : g.WellFormed
  inNormalForm : g.InNormalForm
  startUnused : g.StartUnused
  nodup_of_mem_rows : ∀ row ∈ g.rows, row.Nodup
  reachable : ∀ index < g.rows.length, ReflTransGen g.Uses g.start index
  generating : ∀ index < g.rows.length, index ≠ g.start → ∃ word, g.Derives index word

/-- **The normal form is trim.** -/
theorem Stages.trim_normal {config : NormalFormNames} (s : g.Stages config) : s.normal.Trim where
  wellFormed := s.wellFormed_normal
  inNormalForm := s.inNormalForm_normal
  startUnused := s.startUnused_normal
  nodup_of_mem_rows := s.nodup_of_mem_rows_normal
  reachable := s.dropsUseless.reachable
  generating := s.dropsUseless.generating

namespace Trim

variable (t : g.Trim) {name : String}
include t

/-- The new start symbol leads to all nonterminals but the old one. -/
theorem reaches_withStartCopy_iff {index : Nat} (hlt : index < (g.withStartCopy name).rows.length) :
    ReflTransGen (g.withStartCopy name).Uses (g.withStartCopy name).start index ↔
      index ≠ g.start := by
  constructor
  · rintro hreach rfl
    rcases hreach.cases_tail with heq | ⟨middle, -, body, hrule, hmem⟩
    · have hstart := t.wellFormed.start_lt
      rw [start_withStartCopy, t.wellFormed.length_rows] at heq
      omega
    · obtain ⟨old, hold⟩ := exists_hasRule_of_withStartCopy hrule
      exact t.startUnused old body hold hmem
  · intro hne
    rcases Nat.lt_or_ge index g.rows.length with hold | hge
    · rcases (t.reachable index hold).cases_head with heq | ⟨next, ⟨body, hrule, hmem⟩, hsteps⟩
      · exact absurd heq.symm hne
      · -- the first step is one of the new start symbol as well
        refine .head ⟨body, hasRule_withStartCopy_iff.2 (.inr ⟨rfl, hrule⟩), hmem⟩ ?_
        refine hsteps.lift id fun a b => ?_
        rintro ⟨body, hrule, hmem⟩
        exact ⟨body, hasRule_withStartCopy_iff.2 (.inl hrule), hmem⟩
    · rw [length_rows_withStartCopy] at hlt
      obtain rfl : index = g.rows.length := Nat.le_antisymm (Nat.le_of_lt_succ hlt) hge
      exact .refl

/-- If the start symbol derives a word, then so does everything, and the old start symbol goes
because nothing leads to it. -/
theorem result_of_derives (hcopy : (g.withStartCopy name).WellFormed)
    (u : (g.withStartCopy name).UsefulFlags) {word : List String} (hword : g.Derives g.start word) :
    u.result = g.withStartLast name := by
  have hall : ∀ index < (g.withStartCopy name).rows.length, u.productive[index]? = some true := by
    intro index hlt
    rw [length_rows_withStartCopy] at hlt
    rw [u.productive_iff, start_withStartCopy]
    refine or_iff_not_imp_left.2 fun hne => ?_
    by_cases heq : index = g.start
    · exact ⟨word, derives_withStartCopy (heq ▸ hword)⟩
    · obtain ⟨other, hother⟩ := t.generating index (by omega) heq
      exact ⟨other, derives_withStartCopy hother⟩
  have hsame := restricted_eq_self hcopy u.length_productive hall
  have hlength := u.length_reached
  have hreached := u.reached_iff
  rw [hsame] at hlength hreached
  rw [UsefulFlags.result, hsame]
  refine restricted_withStartCopy t.wellFormed t.startUnused hlength fun index hlt => ?_
  rw [hreached, t.reaches_withStartCopy_iff hlt]

/-- If the start symbol derives no word, then it is alone, and the old one goes because it derives
nothing. -/
theorem result_of_not_derives (hcopy : (g.withStartCopy name).WellFormed)
    (u : (g.withStartCopy name).UsefulFlags) (hnone : ∀ word, ¬g.Derives g.start word) :
    u.result = g.withStartLast name := by
  obtain ⟨hzero, hrows⟩ := rows_eq_of_not_derives t.wellFormed t.startUnused t.reachable
    t.generating hnone
  have hlength : g.rows.length = 1 := by rw [hrows]; rfl
  have hnone' : ∀ index word, ¬(g.withStartCopy name).Derives index word := by
    intro index word hword
    obtain ⟨body, hrule, -⟩ := derives_iff_reads.1 hword
    obtain ⟨old, row, hrow, hbody⟩ := exists_hasRule_of_withStartCopy hrule
    obtain rfl : row = [] := by simpa [hrows] using List.mem_of_getElem? hrow
    exact nomatch hbody
  have hfirst : (g.withStartCopy name).restricted u.productive = g.withStartLast name := by
    refine restricted_withStartCopy t.wellFormed t.startUnused u.length_productive
      fun index hlt => ?_
    rw [length_rows_withStartCopy] at hlt
    rw [u.productive_iff, or_iff_left (not_exists.2 (hnone' index)), start_withStartCopy, hzero]
    omega
  have hwf := wellFormed_restricted hcopy u.productive_start
  have hlength' := u.length_reached
  have hreached := u.reached_iff
  rw [hfirst] at hwf hlength' hreached
  rw [UsefulFlags.result, hfirst]
  refine restricted_eq_self hwf hlength' fun index hlt => (hreached index).2 ?_
  obtain rfl : index = (g.withStartLast name).start := by
    have hstart := hwf.start_lt
    rw [← hwf.length_rows] at hstart
    rw [length_rows_withStartLast t.wellFormed] at hlt hstart
    omega
  exact .refl

/-- **The old start symbol goes.** -/
theorem result_withStartCopy (hcopy : (g.withStartCopy name).WellFormed)
    (u : (g.withStartCopy name).UsefulFlags) : u.result = g.withStartLast name := by
  by_cases hsome : ∃ word, g.Derives g.start word
  · obtain ⟨word, hword⟩ := hsome
    exact t.result_of_derives hcopy u hword
  · exact t.result_of_not_derives hcopy u (not_exists.1 hsome)

/-! ### The steps on a trim grammar -/

theorem bodiesBinary_withNewStart {names : FreshNames} {config : NormalFormNames} :
    (g.withNewStart names config).1.BodiesBinary := by
  intro head body hrule
  rcases hasRule_withNewStart_iff.1 hrule with hold | ⟨-, rfl⟩
  · rcases hasNormalShape_iff.1 (forall_mem_rows_iff.1 t.inNormalForm head body hold) with
      ⟨i, rfl⟩ | ⟨left, right, rfl⟩
    · exact ⟨by simp, by simp⟩
    · exact ⟨by simp, by simp⟩
  · exact ⟨by simp, by simp⟩

theorem nodup_of_mem_rows_withNewStart {names : FreshNames} {config : NormalFormNames} :
    ∀ row ∈ (g.withNewStart names config).1.rows, row.Nodup := by
  intro row hrow
  rcases List.mem_append.1 hrow with hold | hnew
  · exact t.nodup_of_mem_rows row hold
  · rw [List.mem_singleton.1 hnew]
    exact List.nodup_singleton _

/-- No stand-ins and no shared ends are needed. -/
theorem binary_eq_started {config : NormalFormNames} (s : g.Stages config) :
    s.binary = s.started := by
  have hbodies : s.started.BodiesBinary := s.started_eq ▸ t.bodiesBinary_withNewStart
  have hnodup : ∀ row ∈ s.started.rows, row.Nodup := s.started_eq ▸ t.nodup_of_mem_rows_withNewStart
  obtain ⟨standIns, hstandIns⟩ := s.isolated_eq
  obtain ⟨ends, hends⟩ := s.binary_eq
  have hisolated : s.isolated = s.started := by
    have hwf := s.wellFormed_isolated
    rw [hstandIns] at hwf ⊢
    exact eq_self_of_rows_eq s.wellFormed_started hwf rfl
      (rows_withStandIns_of_terminalsIsolated hbodies.terminalsIsolated)
  have hwf := s.wellFormed_binary
  rw [hends, hisolated] at hwf ⊢
  exact eq_self_of_rows_eq s.wellFormed_started hwf rfl
    (rows_withSharedEnds_of_length_le (fun head body hrule => (hbodies head body hrule).1) hnodup)

/-- The new start symbol takes over the rules of the old one. -/
theorem unitFree_eq {config : NormalFormNames} (s : g.Stages config) :
    s.unitFree = g.withStartCopy ((FreshNames.ofGrammar g).fresh config.start).1 := by
  have hstarts : s.started.StartsAt g.start :=
    s.started_eq ▸ startsAt_withNewStart t.wellFormed t.inNormalForm.proper
  have hnodup : ∀ row ∈ s.started.rows, row.Nodup := s.started_eq ▸ t.nodup_of_mem_rows_withNewStart
  have hepsilonFree : s.epsilonFree = s.started := by
    have heq := s.epsilonFree_eq
    rw [t.binary_eq_started s,
      withoutEpsilon_eq_self s.wellFormed_started hstarts.ne_nil hnodup] at heq
    exact (Except.ok.inj heq).symm
  have heq := s.unitFree_eq
  rw [hepsilonFree, hstarts.withoutUnits_eq s.wellFormed_started hnodup] at heq
  have hold : (g.rows ++ [[[SymbolId.nonterminal g.start]]])[g.start]? = g.rows[g.start]? :=
    List.getElem?_append_left (t.wellFormed.length_rows ▸ t.wellFormed.start_lt)
  have hrows : (g.rows ++ [[[SymbolId.nonterminal g.start]]]).set g.rows.length
      (g.rows[g.start]?.getD []) = g.rows ++ [g.rows[g.start]?.getD []] := by
    simp
  rw [← Except.ok.inj heq, s.started_eq, withNewStart, hold, hrows]
  rfl

/-- **Normalizing a trim grammar** only moves its start symbol. -/
theorem normalize_eq (config : NormalFormNames) :
    g.normalize config =
      .ok (g.withStartLast ((FreshNames.ofGrammar g).fresh config.start).1) := by
  obtain ⟨s, hs⟩ := exists_stages t.wellFormed config
  have huseful := s.normal_eq
  have hcopy := s.wellFormed_unitFree
  rw [t.unitFree_eq s] at huseful hcopy
  obtain ⟨u, hu⟩ := huseful
  rw [hs, hu, t.result_withStartCopy hcopy u]

end Trim

/-! ### The normal form of the normal form -/

/-- **Normalizing twice moves the start symbol.** The second time the start symbol goes and a new
one comes behind all others, with the same bodies. All other nonterminals close up and keep their
names and their bodies, in the same order. -/
theorem normalize_normalize (h : g.validate = .ok ()) (config other : NormalFormNames) :
    ∃ n r name, g.normalize config = .ok n ∧ n.normalize other = .ok r ∧
      name ∉ n.nonterminals ∧ r.nonterminals = n.nonterminals.eraseIdx n.start ++ [name] ∧
      r.start = n.startLast n.start ∧ r.nonterminals[r.start]? = some name ∧
      (∀ index < n.nonterminals.length, index ≠ n.start →
        r.nonterminals[n.startLast index]? = n.nonterminals[index]?) ∧
      (∀ index row, n.rows[index]? = some row →
        r.rows[n.startLast index]? = some (row.map fun body => body.map n.symbolStartLast)) ∧
      r.terminals = n.terminals ∧ r.acceptsEmpty = n.acceptsEmpty ∧
      r.nonterminals.length = n.nonterminals.length ∧ r.rows.length = n.rows.length ∧
      r.size = n.size := by
  obtain ⟨s, hs⟩ := exists_stages (validate_eq_ok_iff.1 h) config
  have htrim := s.trim_normal
  have hwf := htrim.wellFormed
  have hname := (FreshNames.ofGrammar s.normal).fresh_not_mem other.start
  refine ⟨s.normal, _, _, hs, htrim.normalize_eq other, fun hmem => hname ?_, rfl, rfl, ?_,
    fun index hlt hne => getElem?_nonterminals_withStartLast hwf hlt hne,
    fun index row hrow => ?_, rfl, rfl, length_nonterminals_withStartLast hwf,
    length_rows_withStartLast hwf, size_withStartLast hwf⟩
  · exact FreshNames.covers_ofGrammar s.normal _ (.inl hmem)
  · exact (getElem?_eraseIdx_append hwf.start_lt hwf.start_lt).trans (if_pos rfl)
  · have hlt : index < s.normal.nonterminals.length :=
      hwf.length_rows ▸ (List.getElem?_eq_some_iff.1 hrow).1
    rw [getElem?_rows_withStartLast hwf hlt, hrow, Option.map_some]

theorem normalize_normalize_nestedBrackets :
    nestedBrackets.validate = .ok () ∧
    ∃ n r name, nestedBrackets.normalize {} = .ok n ∧
      n.normalize { start := "B0", terminalStem := "", binaryStem := "S" } = .ok r ∧
      name ∉ n.nonterminals ∧ r.nonterminals = n.nonterminals.eraseIdx n.start ++ [name] ∧
      r.start = n.startLast n.start ∧ r.nonterminals[r.start]? = some name ∧
      (∀ index < n.nonterminals.length, index ≠ n.start →
        r.nonterminals[n.startLast index]? = n.nonterminals[index]?) ∧
      (∀ index row, n.rows[index]? = some row →
        r.rows[n.startLast index]? = some (row.map fun body => body.map n.symbolStartLast)) ∧
      r.terminals = n.terminals ∧ r.acceptsEmpty = n.acceptsEmpty ∧
      r.nonterminals.length = n.nonterminals.length ∧ r.rows.length = n.rows.length ∧
      r.size = n.size :=
  ⟨by decide, normalize_normalize (by decide) {} _⟩

end Grammar

end ChomskyChart
