import ChomskyChart.Grammar.NormalShape
import ChomskyChart.NormalForm.Useless
import ChomskyChart.Proofs.Grammar.Search
import ChomskyChart.Proofs.Language.Generating
import ChomskyChart.Proofs.NormalForm.StartSymbol

/-!
# Words without useless nonterminals

Dropping nonterminals renumbers those that stay: a nonterminal moves up by as many places as
nonterminals before it go. No two of them come together in this way, so a grammar keeps its words if
every body that goes had none.

For the generating nonterminals that holds because a body with a word has no other ones, and for
those that the start symbol reaches because their bodies have no other ones.

## Main definitions

* `newPosition`: where a nonterminal moves to
* `Grammar.restricted`: the grammar with some of its nonterminals
* `Grammar.DropsUseless`: a grammar and what the step makes of it
* `Grammar.UsefulFlags`: what stays in the two halves of the step

## Main results

* `restrict_eq_ok`: the grammar is restricted as intended
* `derives_restricted_iff`: the words afterwards
* `UsefulFlags.dropsUseless_result`: what the step makes of a grammar
* `exists_usefulFlags`: the step succeeds
-/

namespace ChomskyChart

open Relation

/-! ### New positions -/

/-- How many flags before the given position are set. -/
def newPosition (flags : List Bool) (i : Nat) : Nat :=
  (flags.take i).count true

section

variable {flags : List Bool} {i j k : Nat}

@[simp] theorem newPosition_zero : newPosition flags 0 = 0 := rfl

@[simp] theorem newPosition_true_cons :
    newPosition (true :: flags) (i + 1) = newPosition flags i + 1 := by
  simp [newPosition]

@[simp] theorem newPosition_false_cons :
    newPosition (false :: flags) (i + 1) = newPosition flags i := by
  simp [newPosition]

theorem newPosition_lt_newPosition (hi : flags[i]? = some true) (hij : i < j) :
    newPosition flags i < newPosition flags j := by
  induction flags generalizing i j with
  | nil => exact nomatch hi
  | cons flag rest ih =>
    obtain ⟨j, rfl⟩ := Nat.exists_eq_add_one_of_ne_zero (Nat.ne_zero_of_lt hij)
    cases i with
    | zero =>
      obtain rfl : flag = true := by simpa using hi
      simp
    | succ i =>
      have := ih (by simpa using hi) (Nat.lt_of_succ_lt_succ hij)
      cases flag <;> simpa using this

theorem newPosition_inj (hi : flags[i]? = some true) (hj : flags[j]? = some true)
    (h : newPosition flags i = newPosition flags j) : i = j := by
  rcases Nat.lt_trichotomy i j with hlt | heq | hgt
  · have := newPosition_lt_newPosition hi hlt
    omega
  · exact heq
  · have := newPosition_lt_newPosition hj hgt
    omega

theorem getElem?_renumber {next : Nat} :
    (renumber next flags)[i]? =
      flags[i]?.map fun flag => if flag then some (next + newPosition flags i) else none := by
  induction flags generalizing next i with
  | nil => rfl
  | cons flag rest ih =>
    cases flag with
    | true =>
      cases i with
      | zero => rfl
      | succ i => simp [renumber, ih, Nat.add_comm, Nat.add_left_comm]
    | false =>
      cases i with
      | zero => rfl
      | succ i => simp [renumber, ih]

@[simp] theorem select_true_cons {α : Type} (x : α) (xs : List α) :
    select (true :: flags) (x :: xs) = x :: select flags xs := rfl

@[simp] theorem select_false_cons {α : Type} (x : α) (xs : List α) :
    select (false :: flags) (x :: xs) = select flags xs := rfl

/-- **What is selected stands at its new position.** -/
theorem getElem?_select_eq_some_iff {α : Type} {xs : List α} {x : α} :
    (select flags xs)[k]? = some x ↔
      ∃ i, flags[i]? = some true ∧ newPosition flags i = k ∧ xs[i]? = some x := by
  induction flags generalizing xs k with
  | nil => simp [select]
  | cons flag rest ih =>
    cases xs with
    | nil => simp [select]
    | cons y ys =>
      cases flag with
      | false =>
        rw [select_false_cons, ih]
        constructor
        · rintro ⟨i, hi, rfl, hx⟩
          exact ⟨i + 1, hi, newPosition_false_cons, hx⟩
        · rintro ⟨i, hi, rfl, hx⟩
          cases i with
          | zero => exact nomatch hi
          | succ i => exact ⟨i, hi, newPosition_false_cons.symm, hx⟩
      | true =>
        rw [select_true_cons]
        cases k with
        | zero =>
          constructor
          · intro hx
            exact ⟨0, rfl, rfl, hx⟩
          · rintro ⟨i, hi, hk, hx⟩
            cases i with
            | zero => exact hx
            | succ i => exact nomatch newPosition_true_cons.symm.trans hk
        | succ k =>
          rw [List.getElem?_cons_succ, ih]
          constructor
          · rintro ⟨i, hi, rfl, hx⟩
            exact ⟨i + 1, hi, newPosition_true_cons, hx⟩
          · rintro ⟨i, hi, hk, hx⟩
            cases i with
            | zero => exact nomatch hk
            | succ i =>
              exact ⟨i, hi, Nat.succ.inj (newPosition_true_cons.symm.trans hk), hx⟩

theorem newPosition_lt_length_select {α : Type} {xs : List α}
    (hi : flags[i]? = some true) (hlt : i < xs.length) :
    newPosition flags i < (select flags xs).length :=
  (List.getElem?_eq_some_iff.1
    (getElem?_select_eq_some_iff.2 ⟨i, hi, rfl, List.getElem?_eq_getElem hlt⟩)).1

theorem length_select_congr {α β : Type} {xs : List α} {ys : List β}
    (h : xs.length = ys.length) : (select flags xs).length = (select flags ys).length := by
  induction flags generalizing xs ys with
  | nil => rfl
  | cons flag rest ih =>
    cases xs with
    | nil =>
      obtain rfl : ys = [] := List.eq_nil_of_length_eq_zero h.symm
      rfl
    | cons x xs =>
      cases ys with
      | nil => exact nomatch h
      | cons y ys =>
        have hrest := ih (Nat.succ.inj h)
        cases flag with
        | false => exact hrest
        | true => simpa using hrest

theorem select_sublist {α : Type} {xs : List α} : (select flags xs).Sublist xs := by
  induction flags generalizing xs with
  | nil => exact List.nil_sublist xs
  | cons flag rest ih =>
    cases xs with
    | nil => exact List.nil_sublist []
    | cons y ys =>
      cases flag with
      | false => exact List.Sublist.cons y ih
      | true => exact List.Sublist.cons_cons y ih

end

/-! ### Bodies in new positions -/

/-- Lists with equal images are equal if no two entries are confused. -/
theorem map_inj_of_forall {α β : Type} {f : α → β} {xs ys : List α}
    (h : ∀ x ∈ xs, ∀ y ∈ ys, f x = f y → x = y) (heq : xs.map f = ys.map f) : xs = ys := by
  induction xs generalizing ys with
  | nil => exact (List.map_eq_nil_iff.1 heq.symm).symm
  | cons x xs ih =>
    cases ys with
    | nil => exact nomatch heq
    | cons y ys =>
      obtain ⟨hhead, htail⟩ := List.cons.inj heq
      rw [h x List.mem_cons_self y List.mem_cons_self hhead,
        ih (fun x hx y hy => h x (List.mem_cons_of_mem _ hx) y (List.mem_cons_of_mem _ hy)) htail]

/-- Whether a symbol stays: all terminals do. -/
def staysIn (keep : List Bool) : SymbolId → Bool
  | .terminal _ => true
  | .nonterminal index => keep[index]? == some true

/-- A symbol at its new position. -/
def moved (keep : List Bool) : SymbolId → SymbolId
  | .terminal index => .terminal index
  | .nonterminal index => .nonterminal (newPosition keep index)

/-- The bodies of a row whose symbols all stay, in new positions. -/
def restrictRow (keep : List Bool) (row : Row) : Row :=
  (row.filter fun body => body.all (staysIn keep)).map fun body => body.map (moved keep)

section

variable {keep : List Bool} {body : Body}

theorem all_staysIn_iff :
    body.all (staysIn keep) = true ↔
      ∀ index, .nonterminal index ∈ body → keep[index]? = some true := by
  rw [List.all_eq_true]
  constructor
  · intro h index hmem
    exact beq_iff_eq.1 (h _ hmem)
  · intro h s hs
    cases s with
    | terminal t => rfl
    | nonterminal index => exact beq_iff_eq.2 (h index hs)

theorem renumberBody_eq_ok (h : ∀ index, .nonterminal index ∈ body → index < keep.length) :
    renumberBody (renumber 0 keep) body =
      .ok (if body.all (staysIn keep) then some (body.map (moved keep)) else none) := by
  induction body with
  | nil => rfl
  | cons s rest ih =>
    have hrest := ih fun index hmem => h index (List.mem_cons_of_mem _ hmem)
    cases s with
    | terminal t =>
      rw [renumberBody, hrest]
      cases hall : rest.all (staysIn keep) <;>
        simp [hall, staysIn, moved, bind, Except.bind, pure, Except.pure]
    | nonterminal index =>
      have hlt := h index List.mem_cons_self
      have hat : lookUp (renumber 0 keep) index =
          .ok (if keep[index] then some (newPosition keep index) else none) := by
        rw [lookUp_eq_ok_iff, getElem?_renumber, List.getElem?_eq_getElem hlt]
        simp
      rw [renumberBody, hat]
      cases hkeep : keep[index] with
      | false => simp [staysIn, List.getElem?_eq_getElem hlt, hkeep]; rfl
      | true =>
        simp only [if_true, bind, Except.bind, hrest]
        cases hall : rest.all (staysIn keep) <;>
          simp [hall, staysIn, moved, List.getElem?_eq_getElem hlt, hkeep, pure, Except.pure]

/-- A row is restricted if all its nonterminals have flags. -/
theorem mapM_renumberBody_eq_ok {row : Row}
    (h : ∀ body ∈ row, ∀ index, .nonterminal index ∈ body → index < keep.length) :
    (do return (← row.mapM (renumberBody (renumber 0 keep))).filterMap id) =
      (.ok (restrictRow keep row) : Except Failure Row) := by
  rw [mapM_eq_ok fun body hbody => renumberBody_eq_ok (h body hbody)]
  refine congrArg Except.ok ?_
  rw [List.filterMap_map, restrictRow]
  induction row with
  | nil => rfl
  | cons body rest ih =>
    have hrest := ih fun other hother => h other (List.mem_cons_of_mem _ hother)
    rw [List.filterMap_cons, List.filter_cons, Function.comp_apply, id]
    cases hall : body.all (staysIn keep) with
    | false => simpa only [hall, Bool.false_eq_true, if_false] using hrest
    | true => simpa only [hall, if_true, List.map_cons, List.cons.injEq, true_and] using hrest

/-- A body in new positions is read as the body was read. -/
theorem reads_map_moved_iff {terminals : List String} {S : Interpretation} {word : List String} :
    Reads terminals S (body.map (moved keep)) word ↔
      Reads terminals (fun index => S (newPosition keep index)) body word := by
  induction body generalizing word with
  | nil => rfl
  | cons s rest ih => cases s <;> simp only [List.map_cons, moved, Reads, ih]

theorem hasNormalShape_map_moved :
    hasNormalShape (body.map (moved keep)) = hasNormalShape body := by
  match body with
  | [] => rfl
  | [.terminal _] => rfl
  | [.nonterminal _] => rfl
  | [.terminal _, s] => cases s <;> rfl
  | [.nonterminal _, s] => cases s <;> rfl
  | s :: t :: _ :: _ => cases s <;> cases t <;> rfl

theorem moved_inj {s t : SymbolId} (hs : staysIn keep s = true) (ht : staysIn keep t = true)
    (h : moved keep s = moved keep t) : s = t := by
  cases s with
  | terminal i =>
    cases t with
    | terminal j => exact h
    | nonterminal j => exact nomatch h
  | nonterminal i =>
    cases t with
    | terminal j => exact nomatch h
    | nonterminal j =>
      rw [newPosition_inj (beq_iff_eq.1 hs) (beq_iff_eq.1 ht) (SymbolId.nonterminal.inj h)]

/-- Bodies that stay remain different. -/
theorem map_moved_inj {other : Body} (hbody : body.all (staysIn keep) = true)
    (hother : other.all (staysIn keep) = true)
    (h : body.map (moved keep) = other.map (moved keep)) : body = other :=
  map_inj_of_forall (fun _ hs _ ht =>
    moved_inj (List.all_eq_true.1 hbody _ hs) (List.all_eq_true.1 hother _ ht)) h

theorem nodup_restrictRow {row : Row} (h : row.Nodup) : (restrictRow keep row).Nodup := by
  refine List.Nodup.map_on ?_ (h.filter _)
  intro body hbody other hother
  exact map_moved_inj (List.mem_filter.1 hbody).2 (List.mem_filter.1 hother).2

end

namespace Grammar

variable {g r : Grammar} {keep : List Bool}

/-! ### The restricted grammar -/

/-- The grammar with the nonterminals that are flagged. -/
def restricted (g : Grammar) (keep : List Bool) : Grammar :=
  { g with
    nonterminals := select keep g.nonterminals
    rows := (select keep g.rows).map (restrictRow keep)
    start := newPosition keep g.start }

/-- **A well-formed grammar is restricted** to any nonterminals with the start symbol among them. -/
theorem restrict_eq_ok (h : g.WellFormed) (hlength : keep.length = g.rows.length)
    (hstart : keep[g.start]? = some true) : g.restrict keep = .ok (g.restricted keep) := by
  have hnumbers : ((List.range g.rows.length).map fun i => (renumber 0 keep)[i]?.join) =
      renumber 0 keep := by
    refine List.ext_getElem? fun i => ?_
    rw [List.getElem?_map, getElem?_renumber]
    rcases Nat.lt_or_ge i g.rows.length with hlt | hge
    · rw [List.getElem?_range hlt, Option.map_some, getElem?_renumber,
        List.getElem?_eq_getElem (hlength ▸ hlt)]
      rfl
    · rw [List.getElem?_eq_none (by simpa using hge), List.getElem?_eq_none (by omega)]
      rfl
  have hkeep : (List.range g.rows.length).mapM (lookUp keep) = .ok keep := by
    rw [← hlength, mapM_lookUp_range]
  have hrows : (select keep g.rows).mapM (fun row => do
      return (← row.mapM (renumberBody (renumber 0 keep))).filterMap id) =
        (.ok ((select keep g.rows).map (restrictRow keep)) : Except Failure (List Row)) := by
    refine mapM_eq_ok fun row hrow => mapM_renumberBody_eq_ok fun body hbody index hmem => ?_
    obtain ⟨head, hhead⟩ := List.getElem?_of_mem (select_sublist.subset hrow)
    exact hlength ▸ h.nonterminal_lt ⟨row, hhead, hbody⟩ hmem
  have hposition : lookUp (renumber 0 keep) g.start = .ok (some (newPosition keep g.start)) := by
    rw [lookUp_eq_ok_iff, getElem?_renumber, hstart]
    simp
  have hdrop : keep.drop g.rows.length = [] := List.drop_eq_nil_of_le (Nat.le_of_eq hlength)
  simp only [restrict, ← h.length_rows, hkeep, hdrop, hnumbers, bind, Except.bind,
    List.contains_nil, Bool.false_eq_true, if_false] at hrows ⊢
  rw [hrows, hposition]
  rfl

theorem hasRule_restricted_iff {head : Nat} {body : Body} :
    (g.restricted keep).HasRule head body ↔
      ∃ i old, keep[i]? = some true ∧ newPosition keep i = head ∧ g.HasRule i old ∧
        (∀ index, .nonterminal index ∈ old → keep[index]? = some true) ∧
        old.map (moved keep) = body := by
  simp only [HasRule, restricted, List.getElem?_map, Option.map_eq_some_iff,
    getElem?_select_eq_some_iff]
  constructor
  · rintro ⟨_, ⟨row, ⟨i, hi, hhead, hrow⟩, rfl⟩, hbody⟩
    obtain ⟨old, hold, rfl⟩ := List.mem_map.1 hbody
    obtain ⟨hmem, hall⟩ := List.mem_filter.1 hold
    exact ⟨i, old, hi, hhead, ⟨row, hrow, hmem⟩, all_staysIn_iff.1 hall, rfl⟩
  · rintro ⟨i, old, hi, hhead, ⟨row, hrow, hmem⟩, hall, rfl⟩
    exact ⟨_, ⟨row, ⟨i, hi, hhead, hrow⟩, rfl⟩,
      List.mem_map.2 ⟨old, List.mem_filter.2 ⟨hmem, all_staysIn_iff.2 hall⟩, rfl⟩⟩

/-- Every nonterminal of the restricted grammar comes from one that stays. -/
theorem exists_of_lt_length_restricted {k : Nat} (h : k < (g.restricted keep).rows.length) :
    ∃ i, keep[i]? = some true ∧ i < g.rows.length ∧ newPosition keep i = k := by
  rw [restricted, List.length_map] at h
  obtain ⟨i, hi, hk, hrow⟩ := getElem?_select_eq_some_iff.1 (List.getElem?_eq_getElem h)
  exact ⟨i, hi, (List.getElem?_eq_some_iff.1 hrow).1, hk⟩

/-! ### Form -/

theorem wellFormed_restricted (h : g.WellFormed) (hstart : keep[g.start]? = some true) :
    (g.restricted keep).WellFormed where
  length_rows := by
    rw [restricted, List.length_map]
    exact length_select_congr h.length_rows
  start_lt := newPosition_lt_length_select hstart h.start_lt
  nodup_nonterminals := h.nodup_nonterminals.sublist select_sublist
  nodup_terminals := h.nodup_terminals
  disjoint := fun name hterminal hname => h.disjoint name hterminal (select_sublist.subset hname)
  declares := by
    refine forall_mem_rows_iff.2 fun head body hrule s hs => ?_
    obtain ⟨i, old, -, -, hold, hall, rfl⟩ := hasRule_restricted_iff.1 hrule
    obtain ⟨s, hmem, rfl⟩ := List.mem_map.1 hs
    cases s with
    | terminal t => exact h.terminal_lt hold hmem
    | nonterminal index =>
      exact newPosition_lt_length_select (hall index hmem)
        (h.length_rows ▸ h.nonterminal_lt hold hmem)

theorem startUnused_restricted (h : g.StartUnused) (hstart : keep[g.start]? = some true) :
    (g.restricted keep).StartUnused := by
  intro head body hrule hmem
  obtain ⟨i, old, -, -, hold, hall, rfl⟩ := hasRule_restricted_iff.1 hrule
  obtain ⟨s, hs, heq⟩ := List.mem_map.1 hmem
  cases s with
  | terminal t => exact nomatch heq
  | nonterminal index =>
    obtain rfl := newPosition_inj (hall index hs) hstart (SymbolId.nonterminal.inj heq)
    exact h i old hold hs

theorem inNormalForm_restricted (h : g.InNormalForm) : (g.restricted keep).InNormalForm := by
  refine forall_mem_rows_iff.2 fun head body hrule => ?_
  obtain ⟨i, old, -, -, hold, -, rfl⟩ := hasRule_restricted_iff.1 hrule
  rw [hasNormalShape_map_moved]
  exact forall_mem_rows_iff.1 h i old hold

theorem nodup_of_mem_rows_restricted (h : ∀ row ∈ g.rows, row.Nodup) :
    ∀ row ∈ (g.restricted keep).rows, row.Nodup := by
  intro row hrow
  obtain ⟨old, hold, rfl⟩ := List.mem_map.1 hrow
  exact nodup_restrictRow (h old (select_sublist.subset hold))

/-! ### Words -/

/-- **What stays keeps its words,** if no body with a word has a nonterminal that goes. -/
theorem derives_restricted_iff
    (hclosed : ∀ i body word, keep[i]? = some true → g.HasRule i body →
      Reads g.terminals g.Derives body word →
      ∀ index, .nonterminal index ∈ body → keep[index]? = some true)
    {i : Nat} (hi : keep[i]? = some true) {word : List String} :
    (g.restricted keep).Derives (newPosition keep i) word ↔ g.Derives i word := by
  constructor
  · intro hword
    refine hword.of_closed
      (S := fun k word => ∀ i, keep[i]? = some true → newPosition keep i = k → g.Derives i word)
      ?_ i hi rfl
    intro head body word hrule hbody i hi hhead
    obtain ⟨j, old, hj, rfl, hold, hall, rfl⟩ := hasRule_restricted_iff.1 hrule
    obtain rfl := newPosition_inj hi hj hhead
    refine g.closed_derives hold ((reads_map_moved_iff.1 hbody).mono fun index hmem word part => ?_)
    exact part index (hall index hmem) rfl
  · intro hword
    refine (hword.of_closed (S := fun i word => g.Derives i word ∧
      (keep[i]? = some true → (g.restricted keep).Derives (newPosition keep i) word)) ?_).2 hi
    intro head body word hrule hbody
    have hold : Reads g.terminals g.Derives body word := hbody.mono fun _ _ _ part => part.1
    refine ⟨g.closed_derives hrule hold, fun hhead => ?_⟩
    have hall := hclosed head body word hhead hrule hold
    refine (g.restricted keep).closed_derives
      (hasRule_restricted_iff.2 ⟨head, body, hhead, rfl, hrule, hall, rfl⟩)
      (reads_map_moved_iff.2 ?_)
    exact hbody.mono fun index hmem _ part => part.2 (hall index hmem)

/-! ### The step -/

/-- The two grammars have the same words from their start symbols, and the first has no nonterminals
that are of no use. -/
structure DropsUseless (r g : Grammar) : Prop where
  terminals_eq : r.terminals = g.terminals
  acceptsEmpty_eq : r.acceptsEmpty = g.acceptsEmpty
  derives_start_iff : ∀ word, r.Derives r.start word ↔ g.Derives g.start word
  wellFormed : r.WellFormed
  startUnused : g.StartUnused → r.StartUnused
  inNormalForm : g.InNormalForm → r.InNormalForm
  nodup_of_mem_rows : (∀ row ∈ g.rows, row.Nodup) → ∀ row ∈ r.rows, row.Nodup
  reachable : ∀ index < r.rows.length, ReflTransGen r.Uses r.start index
  generating : ∀ index < r.rows.length, index ≠ r.start → ∃ word, r.Derives index word

/-- Of the generating nonterminals and the start symbol each keeps its words. -/
theorem derives_restricted_of_productive
    (hkeep : ∀ i, keep[i]? = some true ↔ i = g.start ∨ ∃ word, g.Derives i word) {i : Nat}
    (hi : keep[i]? = some true) {word : List String} :
    (g.restricted keep).Derives (newPosition keep i) word ↔ g.Derives i word :=
  derives_restricted_iff
    (fun _ _ _ _ _ hbody index hmem => (hkeep index).2 (.inr (hbody.exists_of_mem hmem))) hi

/-- What is left of a grammar by its generating nonterminals and the start symbol. -/
theorem exists_generating_of_restricted
    (hkeep : ∀ i, keep[i]? = some true ↔ i = g.start ∨ ∃ word, g.Derives i word) :
    (∀ word, (g.restricted keep).Derives (g.restricted keep).start word ↔
      g.Derives g.start word) ∧
    ∀ index < (g.restricted keep).rows.length, index ≠ (g.restricted keep).start →
      ∃ word, (g.restricted keep).Derives index word := by
  refine ⟨fun word => derives_restricted_of_productive hkeep ((hkeep g.start).2 (.inl rfl)),
    fun index hindex hne => ?_⟩
  obtain ⟨i, hi, -, rfl⟩ := exists_of_lt_length_restricted hindex
  rcases (hkeep i).1 hi with rfl | ⟨word, hword⟩
  · exact absurd rfl hne
  · exact ⟨word, (derives_restricted_of_productive hkeep hi).2 hword⟩

/-- What is left of a grammar by the nonterminals that the start symbol reaches. -/
theorem reachable_of_restricted
    (hkeep : ∀ i, keep[i]? = some true ↔ ReflTransGen g.Uses g.start i) :
    (∀ i, keep[i]? = some true → ∀ word,
      (g.restricted keep).Derives (newPosition keep i) word ↔ g.Derives i word) ∧
    ∀ index < (g.restricted keep).rows.length,
      ReflTransGen (g.restricted keep).Uses (g.restricted keep).start index := by
  have hclosed : ∀ i body, keep[i]? = some true → g.HasRule i body →
      ∀ index, .nonterminal index ∈ body → keep[index]? = some true :=
    fun i body hi hrule index hmem => (hkeep index).2 (((hkeep i).1 hi).tail ⟨body, hrule, hmem⟩)
  refine ⟨fun i hi word =>
    derives_restricted_iff (fun i body _ hi hrule _ => hclosed i body hi hrule) hi, ?_⟩
  intro index hindex
  obtain ⟨i, hi, -, rfl⟩ := exists_of_lt_length_restricted hindex
  have hreach := (hkeep i).1 hi
  clear hindex hi
  induction hreach with
  | refl => exact .refl
  | tail hbefore huses ih =>
    have hmiddle := (hkeep _).2 hbefore
    obtain ⟨body, hrule, hmem⟩ := huses
    have hall := hclosed _ body hmiddle hrule
    refine ih.tail ⟨body.map (moved keep), ?_, ?_⟩
    · exact hasRule_restricted_iff.2 ⟨_, body, hmiddle, rfl, hrule, hall, rfl⟩
    · exact List.mem_map.2 ⟨_, hmem, rfl⟩

/-- The flags of the two halves of the step: what derives a word or is the start symbol stays at
first, and of that what the start symbol reaches. -/
structure UsefulFlags (g : Grammar) where
  productive : List Bool
  reached : List Bool
  length_productive : productive.length = g.rows.length
  productive_iff : ∀ i, productive[i]? = some true ↔ i = g.start ∨ ∃ word, g.Derives i word
  length_reached : reached.length = (g.restricted productive).rows.length
  reached_iff : ∀ i, reached[i]? = some true ↔
    ReflTransGen (g.restricted productive).Uses (g.restricted productive).start i

namespace UsefulFlags

variable (u : UsefulFlags g)

/-- What is left of the grammar in the end. -/
def result : Grammar :=
  (g.restricted u.productive).restricted u.reached

theorem productive_start : u.productive[g.start]? = some true :=
  (u.productive_iff g.start).2 (.inl rfl)

theorem reached_start : u.reached[(g.restricted u.productive).start]? = some true :=
  (u.reached_iff _).2 .refl

/-- **The step takes out what is useless.** -/
theorem dropsUseless_result (h : g.WellFormed) : u.result.DropsUseless g := by
  obtain ⟨hwords, hproductive⟩ := exists_generating_of_restricted u.productive_iff
  have hmiddle := wellFormed_restricted h u.productive_start
  obtain ⟨hwords', hall⟩ := reachable_of_restricted u.reached_iff
  refine ⟨rfl, rfl, fun word => (hwords' _ u.reached_start word).trans (hwords word),
    wellFormed_restricted hmiddle u.reached_start, fun hunused => startUnused_restricted
      (startUnused_restricted hunused u.productive_start) u.reached_start,
    fun hshape => inNormalForm_restricted (inNormalForm_restricted hshape),
    fun hnodup => nodup_of_mem_rows_restricted (nodup_of_mem_rows_restricted hnodup), hall, ?_⟩
  intro index hindex hne
  obtain ⟨i, hi, hi', rfl⟩ := exists_of_lt_length_restricted hindex
  have hne' : i ≠ (g.restricted u.productive).start := by
    rintro rfl
    exact hne rfl
  obtain ⟨word, hword⟩ := hproductive i hi' hne'
  exact ⟨word, (hwords' i hi word).2 hword⟩

end UsefulFlags

/-- **On a well-formed grammar the step succeeds.** -/
theorem exists_usefulFlags (h : g.WellFormed) :
    ∃ u : UsefulFlags g, g.withoutUseless = .ok u.result := by
  obtain ⟨found, hfound, hlength, hgenerating⟩ := exists_generating h
  have hlt : g.start < found.length := by
    rw [hlength, h.length_rows]
    exact h.start_lt
  have hkeep : ∀ i, (found.set g.start true)[i]? = some true ↔
      i = g.start ∨ ∃ word, g.Derives i word := by
    intro i
    rw [getElem?_set_true_iff hlt, hgenerating]
  have hstart := (hkeep g.start).2 (.inl rfl)
  have hmiddle := wellFormed_restricted h hstart
  obtain ⟨reached, hreached, hlength', hreach⟩ := exists_reachable hmiddle
  refine ⟨⟨found.set g.start true, reached, by rw [List.length_set, hlength], hkeep, hlength',
    hreach⟩, ?_⟩
  rw [withoutUseless, hfound]
  show (if g.start < found.length then _ else _) = _
  rw [if_pos hlt, restrict_eq_ok h (by rw [List.length_set, hlength]) hstart]
  show (do (g.restricted _).restrict (← (g.restricted _).reachable)) = _
  rw [hreached]
  exact restrict_eq_ok hmiddle hlength' ((hreach _).2 .refl)

end Grammar

end ChomskyChart
