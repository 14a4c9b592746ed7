import ChomskyChart.Proofs.NormalForm.Useless

/-!
# What the last step leaves

The last step takes nonterminals out twice: those that derive nothing, and of what is left those
that the start symbol does not reach. Two selections in a row come to one, whose flags are those of
the first with some of them taken back. That holds of names, rows and bodies alike, so the step is
one restriction, and what it leaves can be said of the given grammar: a nonterminal stays if the
start symbol reaches it through bodies whose nonterminals all derive words. The start symbol counts
as one of these, whether it derives a word or not.

## Main definitions

* `narrowed`: the flags of two selections, one after the other
* `Grammar.UsefulFlags.kept`, `Grammar.UsefulFlags.survivors`: the nonterminals that the step leaves
* `Grammar.Productive`, `Grammar.UsesProductively`: deriving a word, and the bodies that can
* `Grammar.productiveBodies`, `placedAmong`: what is left of a row, and of a body

## Main results

* `select_narrowed`, `newPosition_narrowed`, `restricted_restricted`: two selections as one
* `UsefulFlags.kept_iff`: what stays
* `UsefulFlags.derives_result_iff`: the words of what stays
* `withoutUseless_keeps_survivors`: what the step does to a grammar that passes the check
-/

namespace ChomskyChart

open Relation

/-! ### Two selections -/

/-- The flags of two selections, where the second has its flags for what the first has left. What it
has no flag for goes. -/
def narrowed : (outer inner : List Bool) → List Bool
  | [], _ => []
  | false :: outer, inner => false :: narrowed outer inner
  | true :: outer, [] => false :: narrowed outer []
  | true :: outer, flag :: inner => flag :: narrowed outer inner

section

variable {outer inner : List Bool} {i : Nat}

theorem select_narrowed {α : Type} {xs : List α} :
    select (narrowed outer inner) xs = select inner (select outer xs) := by
  induction outer, inner using narrowed.induct generalizing xs with
  | case1 inner => simp [narrowed, select]
  | case2 outer inner ih =>
    cases xs with
    | nil => simp [select]
    | cons x xs => rw [narrowed, select_false_cons, select_false_cons, ih]
  | case3 outer ih =>
    cases xs with
    | nil => simp [select]
    | cons x xs =>
      rw [narrowed, select_false_cons, ih]
      rfl
  | case4 outer flag inner ih =>
    cases xs with
    | nil => simp [select]
    | cons x xs => cases flag <;> simp [narrowed, ih]

theorem newPosition_narrowed :
    newPosition (narrowed outer inner) i = newPosition inner (newPosition outer i) := by
  induction outer, inner using narrowed.induct generalizing i with
  | case1 inner => simp [narrowed, newPosition]
  | case2 outer inner ih => cases i <;> simp [narrowed, ih]
  | case3 outer ih =>
    cases i with
    | zero => rfl
    | succ i =>
      rw [narrowed, newPosition_false_cons, ih]
      simp [newPosition]
  | case4 outer flag inner ih => cases i <;> cases flag <;> simp [narrowed, ih]

theorem getElem?_narrowed_eq_true_iff :
    (narrowed outer inner)[i]? = some true ↔
      outer[i]? = some true ∧ inner[newPosition outer i]? = some true := by
  induction outer, inner using narrowed.induct generalizing i with
  | case1 inner => simp [narrowed]
  | case2 outer inner ih => cases i <;> simp [narrowed, ih]
  | case3 outer ih => cases i <;> simp [narrowed, ih]
  | case4 outer flag inner ih => cases i <;> simp [narrowed, ih]

theorem select_map {α β : Type} {f : α → β} {xs : List α} :
    select outer (xs.map f) = (select outer xs).map f := by
  simp only [select, List.zip_map_right, List.filter_map, List.map_map]
  rfl

theorem moved_narrowed : moved (narrowed outer inner) = moved inner ∘ moved outer := by
  funext s
  cases s with
  | terminal t => rfl
  | nonterminal index => exact congrArg SymbolId.nonterminal newPosition_narrowed

theorem all_staysIn_narrowed {body : Body} :
    body.all (staysIn (narrowed outer inner)) =
      ((body.map (moved outer)).all (staysIn inner) && body.all (staysIn outer)) := by
  rw [Bool.eq_iff_iff, Bool.and_eq_true]
  simp only [all_staysIn_iff, getElem?_narrowed_eq_true_iff, List.mem_map]
  constructor
  · intro h
    refine ⟨?_, fun index hmem => (h index hmem).1⟩
    rintro _ ⟨s, hs, heq⟩
    cases s with
    | terminal t => exact nomatch heq
    | nonterminal index => exact SymbolId.nonterminal.inj heq ▸ (h index hs).2
  · rintro ⟨hinner, houter⟩ index hmem
    exact ⟨houter index hmem, hinner _ ⟨_, hmem, rfl⟩⟩

theorem restrictRow_narrowed {row : Row} :
    restrictRow (narrowed outer inner) row = restrictRow inner (restrictRow outer row) := by
  simp only [restrictRow, List.filter_map, List.filter_filter, List.map_map, Function.comp_def,
    all_staysIn_narrowed, moved_narrowed]

end

/-- A symbol, where the nonterminals are counted among those that stay. -/
def placedAmong (survivors : List Nat) : SymbolId → SymbolId
  | .terminal index => .terminal index
  | .nonterminal index => .nonterminal (survivors.idxOf index)

namespace Grammar

variable {g : Grammar} {keep : List Bool} {i : Nat} {word : List String}

/-- **Two restrictions come to one.** -/
theorem restricted_restricted {outer inner : List Bool} :
    (g.restricted outer).restricted inner = g.restricted (narrowed outer inner) := by
  have hrows : restrictRow (narrowed outer inner) = restrictRow inner ∘ restrictRow outer :=
    funext fun _ => restrictRow_narrowed
  simp only [restricted, select_narrowed, newPosition_narrowed, select_map, hrows, List.map_map]

/-! ### Bodies that can derive words -/

/-- The nonterminal derives a word, or it is the start symbol. -/
def Productive (g : Grammar) (index : Nat) : Prop :=
  index = g.start ∨ ∃ word, g.Derives index word

/-- All nonterminals of the body are productive. -/
def BodyProductive (g : Grammar) (body : Body) : Prop :=
  ∀ index, .nonterminal index ∈ body → g.Productive index

/-- A body of the one nonterminal whose nonterminals are all productive has the other. -/
def UsesProductively (g : Grammar) (a b : Nat) : Prop :=
  ∃ body, g.HasRule a body ∧ g.BodyProductive body ∧ .nonterminal b ∈ body

open Classical in
/-- The bodies of a row whose nonterminals are all productive. -/
noncomputable def productiveBodies (g : Grammar) (row : Row) : Row :=
  row.filter fun body => decide (g.BodyProductive body)

theorem productive_of_reaches (h : ReflTransGen g.UsesProductively g.start i) :
    g.Productive i := by
  rcases h.cases_tail with rfl | ⟨_, -, body, -, hbody, hmem⟩
  · exact .inl rfl
  · exact hbody i hmem

/-- Among the productive nonterminals the start symbol reaches what it reaches through their bodies
in the given grammar. -/
theorem reaches_restricted_iff (hkeep : ∀ i, keep[i]? = some true ↔ g.Productive i)
    (hi : keep[i]? = some true) :
    ReflTransGen (g.restricted keep).Uses (g.restricted keep).start (newPosition keep i) ↔
      ReflTransGen g.UsesProductively g.start i := by
  have hstart : keep[g.start]? = some true := (hkeep g.start).2 (.inl rfl)
  constructor
  · intro hreach
    -- the induction speaks of positions, and every position has one nonterminal that moves there
    generalize hk : newPosition keep i = k at hreach
    induction hreach generalizing i with
    | refl => rw [newPosition_inj hi hstart hk]
    | tail _ huses ih =>
      obtain ⟨body, hrule, hmem⟩ := huses
      obtain ⟨j, old, hj, hposition, hold, hall, rfl⟩ := hasRule_restricted_iff.1 hrule
      obtain ⟨s, hs, heq⟩ := List.mem_map.1 hmem
      cases s with
      | terminal t => exact nomatch heq
      | nonterminal index =>
        obtain rfl := newPosition_inj (hall index hs) hi
          ((SymbolId.nonterminal.inj heq).trans hk.symm)
        exact (ih hj hposition).tail
          ⟨old, hold, fun index hmem => (hkeep index).1 (hall index hmem), hs⟩
  · intro hreach
    clear hi
    induction hreach with
    | refl => exact .refl
    | tail hbefore huses ih =>
      obtain ⟨body, hrule, hbody, hmem⟩ := huses
      have hhead := (hkeep _).2 (productive_of_reaches hbefore)
      refine ih.tail ⟨body.map (moved keep), ?_, List.mem_map.2 ⟨_, hmem, rfl⟩⟩
      exact hasRule_restricted_iff.2 ⟨_, body, hhead, rfl, hrule,
        fun index hindex => (hkeep index).2 (hbody index hindex), rfl⟩

/-! ### What stays -/

namespace UsefulFlags

variable (u : UsefulFlags g)

/-- For each nonterminal, whether the step leaves it. -/
def kept : List Bool :=
  narrowed u.productive u.reached

theorem result_eq : u.result = g.restricted u.kept :=
  restricted_restricted

theorem nonterminals_result : u.result.nonterminals = select u.kept g.nonterminals := by
  rw [u.result_eq]
  rfl

/-- **What stays** is what the start symbol reaches through bodies that can derive words. -/
theorem kept_iff : u.kept[i]? = some true ↔ ReflTransGen g.UsesProductively g.start i := by
  rw [kept, getElem?_narrowed_eq_true_iff, u.reached_iff]
  constructor
  · rintro ⟨hi, hreach⟩
    exact (reaches_restricted_iff u.productive_iff hi).1 hreach
  · intro hreach
    have hi := (u.productive_iff i).2 (productive_of_reaches hreach)
    exact ⟨hi, (reaches_restricted_iff u.productive_iff hi).2 hreach⟩

/-- **What the step leaves keeps its words,** since a body with a word has only nonterminals that
stay with it. -/
theorem derives_result_iff (hi : u.kept[i]? = some true) :
    u.result.Derives (newPosition u.kept i) word ↔ g.Derives i word := by
  rw [u.result_eq]
  refine derives_restricted_iff (fun a body part ha hrule hbody index hmem => ?_) hi
  exact u.kept_iff.2 ((u.kept_iff.1 ha).tail
    ⟨body, hrule, fun b hb => .inr (hbody.exists_of_mem hb), hmem⟩)

/-- The nonterminals that stay, in their order. -/
def survivors : List Nat :=
  select u.kept (List.range g.nonterminals.length)

theorem lt_of_kept (h : g.WellFormed) (hi : u.kept[i]? = some true) :
    i < g.nonterminals.length := by
  rcases productive_of_reaches (u.kept_iff.1 hi) with rfl | ⟨word, hword⟩
  · exact h.start_lt
  · exact h.length_rows ▸ hword.lt_length_rows

theorem getElem?_survivors_iff (h : g.WellFormed) {k : Nat} :
    u.survivors[k]? = some i ↔ u.kept[i]? = some true ∧ newPosition u.kept i = k := by
  rw [survivors, getElem?_select_eq_some_iff]
  constructor
  · rintro ⟨j, hj, hk, hrange⟩
    obtain rfl : j = i := by simpa using (List.getElem?_eq_some_iff.1 hrange).2
    exact ⟨hj, hk⟩
  · rintro ⟨hi, hk⟩
    exact ⟨i, hi, hk, List.getElem?_range (u.lt_of_kept h hi)⟩

theorem pairwise_survivors : u.survivors.Pairwise (· < ·) :=
  List.pairwise_lt_range.sublist select_sublist

theorem mem_survivors_iff (h : g.WellFormed) :
    i ∈ u.survivors ↔ ReflTransGen g.UsesProductively g.start i := by
  rw [List.mem_iff_getElem?, ← u.kept_iff]
  simp only [u.getElem?_survivors_iff h]
  exact ⟨fun ⟨_, hi, _⟩ => hi, fun hi => ⟨_, hi, rfl⟩⟩

/-- A nonterminal moves to its place among those that stay. -/
theorem idxOf_survivors (h : g.WellFormed) (hi : u.kept[i]? = some true) :
    u.survivors.idxOf i = newPosition u.kept i := by
  have hnodup : u.survivors.Nodup := u.pairwise_survivors.imp Nat.ne_of_lt
  obtain ⟨hlt, hat⟩ := List.getElem?_eq_some_iff.1 ((u.getElem?_survivors_iff h).2 ⟨hi, rfl⟩)
  calc u.survivors.idxOf i = u.survivors.idxOf (u.survivors[newPosition u.kept i]) := by rw [hat]
    _ = newPosition u.kept i := hnodup.idxOf_getElem _ hlt

/-- Of the bodies of a nonterminal that stays, those stay that can derive words. -/
theorem filter_staysIn_kept (hi : u.kept[i]? = some true) {row : Row}
    (hrow : g.rows[i]? = some row) :
    row.filter (fun body => body.all (staysIn u.kept)) = g.productiveBodies row := by
  classical
  refine List.filter_congr fun body hbody => ?_
  rw [Bool.eq_iff_iff, decide_eq_true_iff, all_staysIn_iff]
  constructor
  · exact fun hall index hmem => productive_of_reaches (u.kept_iff.1 (hall index hmem))
  · exact fun hproductive index hmem =>
      u.kept_iff.2 ((u.kept_iff.1 hi).tail ⟨body, ⟨row, hrow, hbody⟩, hproductive, hmem⟩)

/-- The row of a nonterminal that stays. -/
theorem getElem?_rows_result (h : g.WellFormed) (hi : u.kept[i]? = some true) {row : Row}
    (hrow : g.rows[i]? = some row) :
    u.result.rows[newPosition u.kept i]? =
      some ((g.productiveBodies row).map fun body => body.map (placedAmong u.survivors)) := by
  have hselected : (select u.kept g.rows)[newPosition u.kept i]? = some row :=
    getElem?_select_eq_some_iff.2 ⟨i, hi, rfl, hrow⟩
  have hplaced : ∀ body ∈ g.productiveBodies row,
      body.map (moved u.kept) = body.map (placedAmong u.survivors) := by
    intro body hbody
    rw [← u.filter_staysIn_kept hi hrow] at hbody
    have hall := all_staysIn_iff.1 (List.mem_filter.1 hbody).2
    refine List.map_congr_left fun s hs => ?_
    cases s with
    | terminal t => rfl
    | nonterminal index =>
      exact congrArg SymbolId.nonterminal (u.idxOf_survivors h (hall index hs)).symm
  rw [u.result_eq, restricted, List.getElem?_map, hselected, Option.map_some, restrictRow,
    u.filter_staysIn_kept hi hrow, List.map_congr_left hplaced]

end UsefulFlags

/-! ### Grammars that pass the check -/

/-- **The step leaves what is useful, and what it leaves keeps its words.** A nonterminal stays if
it is the start symbol, or if it derives a word and the start symbol reaches it through bodies whose
nonterminals are the start symbol or derive words. Those that stay have their names, in the old
order, and of their bodies the ones with such nonterminals only, in the new numbering. -/
theorem withoutUseless_keeps_survivors (h : g.validate = .ok ()) :
    ∃ (r : Grammar) (survivors : List Nat),
      g.withoutUseless = .ok r ∧ r.validate = .ok () ∧
      r.terminals = g.terminals ∧ r.acceptsEmpty = g.acceptsEmpty ∧
      survivors.Pairwise (· < ·) ∧
      (∀ i, i ∈ survivors ↔ i = g.start ∨
        (∃ word, g.Derives i word) ∧ ReflTransGen g.UsesProductively g.start i) ∧
      r.start = survivors.idxOf g.start ∧ r.nonterminals.length = survivors.length ∧
      ∀ k i, survivors[k]? = some i →
        (∃ name, g.nonterminals[i]? = some name ∧ r.nonterminals[k]? = some name) ∧
        (∃ row, g.rows[i]? = some row ∧ r.rows[k]? =
          some ((g.productiveBodies row).map fun body => body.map (placedAmong survivors))) ∧
        ∀ word, r.Derives k word ↔ g.Derives i word := by
  have hg := validate_eq_ok_iff.1 h
  obtain ⟨u, hu⟩ := exists_usefulFlags hg
  have hstart : u.kept[g.start]? = some true := u.kept_iff.2 .refl
  have hnames : u.result.nonterminals.length = u.survivors.length := by
    rw [u.nonterminals_result, UsefulFlags.survivors]
    exact length_select_congr (by rw [List.length_range])
  refine ⟨u.result, u.survivors, hu, validate_eq_ok_iff.2 (u.dropsUseless_result hg).wellFormed,
    rfl, rfl, u.pairwise_survivors, fun i => ?_, ?_, hnames, fun k i hk => ?_⟩
  · rw [u.mem_survivors_iff hg]
    constructor
    · intro hreach
      exact (productive_of_reaches hreach).imp_right fun hderives => ⟨hderives, hreach⟩
    · rintro (rfl | ⟨-, hreach⟩)
      · exact .refl
      · exact hreach
  · rw [u.idxOf_survivors hg hstart, u.result_eq]
    rfl
  · obtain ⟨hi, rfl⟩ := (u.getElem?_survivors_iff hg).1 hk
    have hlt := u.lt_of_kept hg hi
    have hname := List.getElem?_eq_getElem hlt
    have hrow := List.getElem?_eq_getElem (hg.length_rows.symm ▸ hlt : i < g.rows.length)
    refine ⟨⟨_, hname, ?_⟩, ⟨_, hrow, u.getElem?_rows_result hg hi hrow⟩,
      fun word => u.derives_result_iff hi⟩
    rw [u.nonterminals_result]
    exact getElem?_select_eq_some_iff.2 ⟨i, hi, rfl, hname⟩

/-- The start symbol derives nothing and occurs in bodies; `"C"` derives nothing either, and only a
body with `"C"` leads to `"B"`. -/
def cutOff : Grammar where
  nonterminals := ["S", "C", "A", "B"]
  terminals := ["a"]
  start := 0
  rows := [[[.nonterminal 2, .nonterminal 0], [.nonterminal 1, .nonterminal 3]],
    [[.nonterminal 1]],
    [[.terminal 0], [.nonterminal 0, .terminal 0], [.nonterminal 2, .nonterminal 1]],
    [[.terminal 0, .terminal 0]]]

theorem withoutUseless_keeps_survivors_cutOff :
    cutOff.validate = .ok () ∧
    ∃ (r : Grammar) (survivors : List Nat),
      cutOff.withoutUseless = .ok r ∧ r.validate = .ok () ∧ r.terminals = ["a"] ∧
      survivors.Pairwise (· < ·) ∧
      (∀ i, i ∈ survivors ↔ i = 0 ∨
        (∃ word, cutOff.Derives i word) ∧ ReflTransGen cutOff.UsesProductively 0 i) ∧
      r.nonterminals.length = survivors.length ∧
      ∀ k i, survivors[k]? = some i →
        (∃ name, cutOff.nonterminals[i]? = some name ∧ r.nonterminals[k]? = some name) ∧
        (∃ row, cutOff.rows[i]? = some row ∧ r.rows[k]? =
          some ((cutOff.productiveBodies row).map fun body => body.map (placedAmong survivors))) ∧
        ∀ word, r.Derives k word ↔ cutOff.Derives i word := by
  obtain ⟨r, survivors, hr, hvalid, hterminals, -, hsorted, hmem, -, hlength, hrest⟩ :=
    withoutUseless_keeps_survivors (g := cutOff) (by decide)
  exact ⟨by decide, r, survivors, hr, hvalid, hterminals, hsorted, hmem, hlength, hrest⟩

example : cutOff.withoutUseless = .ok {
    nonterminals := ["S", "A"]
    terminals := ["a"]
    start := 0
    rows := [[[.nonterminal 1, .nonterminal 0]],
      [[.terminal 0], [.nonterminal 0, .terminal 0]]] } := by cbv

end Grammar

end ChomskyChart
