import Mathlib.Data.List.Basic
import ChomskyChart.Grammar.Table
import ChomskyChart.NormalForm.Terminals

/-!
# Stand-ins in one run

The step that isolates terminals goes through the table once, and what it makes of a symbol depends
on which terminals came up before. Two facts make it a map nevertheless. The state depends on
nothing but these terminals, so it is a function of them, `Grammar.standInsAt`. And a stand-in keeps
its position, so what becomes of a symbol can be said with the positions that the stand-ins have in
the end.

A run is described by an equation between outcomes. The state before may be a fault, and so may the
state after, so grammars in which terminals are missing need no treatment of their own.

## Main definitions

* `Grammar.isolatedTerminals`: the terminals that get a stand-in
* `standIn`, `isolateBody`: a symbol of a long body and a body afterwards
* `Grammar.withStandIns`: the grammar with stand-ins under given names
* `Tracks`: runs whose state is a function of what has come up

## Main results

* `tracks_mapM`: such runs one after the other
* `Grammar.tracks_standInFor`: the stand-in of one terminal
* `Grammar.withIsolatedTerminals_eq`: the step, for every grammar
-/

namespace ChomskyChart

/-! ### What is written in the end -/

/-- What stands for a symbol of a long body, given that the terminals in `isolated` have stand-ins
from position `offset` on, in this order. -/
def standIn (offset : Nat) (isolated : List Nat) : SymbolId → SymbolId
  | .terminal index => .nonterminal (offset + isolated.idxOf index)
  | .nonterminal index => .nonterminal index

/-- A body with stand-ins. Short bodies are left alone. -/
def isolateBody (offset : Nat) (isolated : List Nat) (body : Body) : Body :=
  if isLong body then body.map (standIn offset isolated) else body

namespace Grammar

/-- The terminals that occur in long bodies, in the order of their first occurrence. -/
def isolatedTerminals (g : Grammar) : List Nat :=
  ((g.rows.flatten.filter isLong).flatMap fun body =>
    body.filterMap SymbolId.terminal?).eraseDups

/-- Names for the stand-ins of terminals. A terminal without a name is a fault. -/
def nameStandIns (g : Grammar) (stem : String) (names : FreshNames) :
    List Nat → Except Failure (List String × FreshNames)
  | [] => return ([], names)
  | index :: rest => do
    let terminal ← lookUp g.terminals index
    let (name, names) := names.fresh (stem ++ terminal)
    let (more, names) ← g.nameStandIns stem names rest
    return (name :: more, names)

/-- The grammar in which terminals occur only as whole bodies, and the stand-ins have the names in
`added`. -/
def withStandIns (g : Grammar) (added : List String) : Grammar :=
  { g with
    nonterminals := g.nonterminals ++ added
    rows := g.rows.map (·.map (isolateBody g.nonterminals.length g.isolatedTerminals)) ++
      g.isolatedTerminals.map fun index => [[.terminal index]] }

/-- The terminals in bodies of two or more symbols, once for each time that they occur, in the order
of the table. -/
def longBodyTerminals (g : Grammar) : List Nat :=
  g.rows.flatten.flatMap fun body =>
    if 2 ≤ body.length then body.filterMap SymbolId.terminal? else []

theorem isolatedTerminals_eq (g : Grammar) :
    g.isolatedTerminals = g.longBodyTerminals.eraseDups := by
  have hfilter : ∀ bodies : List Body,
      (bodies.filter isLong).flatMap (fun body => body.filterMap SymbolId.terminal?) =
        bodies.flatMap fun body =>
          if 2 ≤ body.length then body.filterMap SymbolId.terminal? else [] := by
    intro bodies
    induction bodies with
    | nil => rfl
    | cons body rest ih =>
      rw [List.flatMap_cons, ← ih, List.filter_cons, isLong]
      by_cases hlength : 2 ≤ body.length <;> simp [hlength]
  rw [isolatedTerminals, hfilter, longBodyTerminals]

end Grammar

/-! ### Runs whose state is a function -/

section

variable {α β γ σ : Type} {stateAt : List γ → Except Failure σ} {total : List γ}

/-- The run has the result `b`, and what comes up on the way is `found`: from the state for what
came up before, it leads to the state for what has come up by then. All that comes up in the end is
`total`. -/
def Tracks (stateAt : List γ → Except Failure σ) (total found : List γ)
    (run : StateT σ (Except Failure) β) (b : β) : Prop :=
  ∀ seen, seen ++ found <+: total →
    (stateAt seen >>= fun s => run.run s) = (do return (b, ← stateAt (seen ++ found)))

theorem tracks_pure (b : β) : Tracks stateAt total [] (pure b) b := by
  intro seen _
  rw [List.append_nil]
  rfl

theorem Tracks.bind {found more : List γ} {run : StateT σ (Except Failure) α}
    {next : α → StateT σ (Except Failure) β} {a : α} {b : β}
    (hrun : Tracks stateAt total found run a) (hnext : Tracks stateAt total more (next a) b) :
    Tracks stateAt total (found ++ more) (run >>= next) b := by
  intro seen hfront
  rw [← List.append_assoc] at hfront ⊢
  have hfirst := hrun seen ((List.prefix_append _ _).trans hfront)
  calc (stateAt seen >>= fun s => (run >>= next).run s)
      = (stateAt seen >>= fun s => run.run s) >>= fun p => (next p.1).run p.2 := by
        rw [bind_assoc]
        rfl
    _ = stateAt (seen ++ found) >>= fun s => (next a).run s := by
        rw [hfirst, bind_assoc]
        rfl
    _ = do return (b, ← stateAt (seen ++ found ++ more)) := hnext _ hfront

theorem Tracks.map {found : List γ} {run : StateT σ (Except Failure) α} {a : α} (f : α → β)
    (hrun : Tracks stateAt total found run a) :
    Tracks stateAt total found (do return f (← run)) (f a) := by
  have hboth : Tracks stateAt total (found ++ []) (do return f (← run)) (f a) :=
    hrun.bind (tracks_pure (f a))
  rwa [List.append_nil] at hboth

/-- **A run over a list is a map,** if it is one on every entry. -/
theorem tracks_mapM {xs : List α} {step : α → StateT σ (Except Failure) β} {found : α → List γ}
    {F : α → β} (h : ∀ x ∈ xs, Tracks stateAt total (found x) (step x) (F x)) :
    Tracks stateAt total (xs.flatMap found) (xs.mapM step) (xs.map F) := by
  induction xs with
  | nil => exact tracks_pure []
  | cons x rest ih =>
    rw [List.mapM_cons, List.flatMap_cons, List.map_cons]
    have hrest := ih fun y hy => h y (List.mem_cons_of_mem _ hy)
    exact (h x List.mem_cons_self).bind (hrest.map (F x :: ·))

end

namespace Grammar

variable (g : Grammar) (stem : String)

/-! ### The state of the step -/

theorem nameStandIns_append (names : FreshNames) (front back : List Nat) :
    g.nameStandIns stem names (front ++ back) = do
      let (added, names) ← g.nameStandIns stem names front
      let (more, names) ← g.nameStandIns stem names back
      return (added ++ more, names) := by
  induction front generalizing names with
  | nil => simp [nameStandIns]
  | cons index rest ih => simp [nameStandIns, ih]

section

variable {g : Grammar} {stem : String} {names after : FreshNames} {indices : List Nat}
  {added : List String} (h : g.nameStandIns stem names indices = .ok (added, after))
include h

/-- There is one stand-in per terminal, whatever it is called. -/
theorem length_nameStandIns : added.length = indices.length := by
  induction indices generalizing names added after with
  | nil =>
    obtain ⟨rfl, -⟩ := Prod.mk.inj (Except.ok.inj h)
    rfl
  | cons index rest ih =>
    rw [nameStandIns, bind_eq_ok_iff] at h
    obtain ⟨terminal, -, h⟩ := h
    obtain ⟨⟨more, last⟩, hmore, h⟩ := bind_eq_ok_iff.1 h
    obtain ⟨rfl, -⟩ := Prod.mk.inj (Except.ok.inj h)
    rw [List.length_cons, ih hmore, List.length_cons]

theorem lt_of_nameStandIns {index : Nat} (hindex : index ∈ indices) :
    index < g.terminals.length := by
  induction indices generalizing names added after with
  | nil => exact nomatch hindex
  | cons first rest ih =>
    rw [nameStandIns, bind_eq_ok_iff] at h
    obtain ⟨terminal, hterminal, h⟩ := h
    obtain ⟨⟨more, last⟩, hmore, -⟩ := bind_eq_ok_iff.1 h
    rcases List.mem_cons.1 hindex with rfl | hindex
    · exact (List.getElem?_eq_some_iff.1 (lookUp_eq_ok_iff.1 hterminal)).1
    · exact ih hmore hindex

end

/-- For each of `count` terminals the position of its stand-in, if the terminal is in `seen`. -/
def standInPositions (offset count : Nat) (seen : List Nat) : List (Option Nat) :=
  (List.range count).map fun index =>
    if index ∈ seen then some (offset + seen.eraseDups.idxOf index) else none

section

variable {offset count index : Nat} {seen : List Nat}

theorem lookUp_standInPositions (hlt : index < count) :
    lookUp (standInPositions offset count seen) index =
      .ok (if index ∈ seen then some (offset + seen.eraseDups.idxOf index) else none) := by
  rw [lookUp_eq_ok_iff]
  simp [standInPositions, hlt]

theorem standInPositions_concat_of_mem (hseen : index ∈ seen) :
    standInPositions offset count (seen ++ [index]) = standInPositions offset count seen := by
  have hsubset : [index] ⊆ seen := by simpa using hseen
  have hmem : ∀ other, other ∈ seen ++ [index] ↔ other ∈ seen := by
    simp only [List.mem_append, List.mem_singleton, or_iff_left_iff_imp]
    rintro _ rfl
    exact hseen
  simp only [standInPositions, eraseDups_append_of_subset hsubset, hmem]

theorem standInPositions_concat_of_not_mem (hseen : index ∉ seen) :
    standInPositions offset count (seen ++ [index]) =
      (standInPositions offset count seen).set index (some (offset + seen.eraseDups.length)) := by
  refine List.ext_getElem (by simp [standInPositions]) fun i _ _ => ?_
  rw [List.getElem_set]
  simp only [standInPositions, List.getElem_map, List.getElem_range]
  by_cases heq : index = i
  · subst heq
    have hlast : (seen ++ [index]).eraseDups.idxOf index = seen.eraseDups.length := by
      rw [eraseDups_concat_of_not_mem hseen, List.idxOf_append,
        if_neg (mt List.mem_eraseDups.1 hseen)]
      simp
    rw [if_pos (List.mem_concat_self), if_pos rfl, hlast]
  · have hmem : i ∈ seen ++ [index] ↔ i ∈ seen := by simp [Ne.symm heq]
    simp only [hmem, if_neg heq]
    by_cases hi : i ∈ seen
    · rw [if_pos hi, if_pos hi, idxOf_eraseDups_append hi]
    · rw [if_neg hi, if_neg hi]

end

/-- The state of the step when the terminals in `seen` have come up. -/
def standInsAt (g : Grammar) (stem : String) (names : FreshNames) (seen : List Nat) :
    Except Failure StandIns := do
  let (added, names) ← g.nameStandIns stem names seen.eraseDups
  return {
    nonterminals := g.nonterminals ++ added
    positions := standInPositions g.nonterminals.length g.terminals.length seen
    rows := seen.eraseDups.map fun index => [[.terminal index]]
    names }

section

variable {g : Grammar} {stem : String} {names : FreshNames} {seen : List Nat} {index : Nat}

/-- A terminal that came up before changes nothing. -/
theorem standInsAt_concat_of_mem (hseen : index ∈ seen) :
    g.standInsAt stem names (seen ++ [index]) = g.standInsAt stem names seen := by
  have hsubset : [index] ⊆ seen := by simpa using hseen
  rw [standInsAt, standInsAt, eraseDups_append_of_subset hsubset,
    standInPositions_concat_of_mem hseen]

/-- A terminal that comes up for the first time gets a stand-in. -/
theorem standInsAt_concat_of_not_mem (hseen : index ∉ seen) :
    g.standInsAt stem names (seen ++ [index]) = do
      let s ← g.standInsAt stem names seen
      let terminal ← lookUp g.terminals index
      return s.add index (stem ++ terminal) := by
  rw [standInsAt, eraseDups_concat_of_not_mem hseen, nameStandIns_append, standInsAt]
  cases hnames : g.nameStandIns stem names seen.eraseDups with
  | error e => rfl
  | ok found =>
    obtain ⟨added, after⟩ := found
    cases hterminal : lookUp g.terminals index with
    | error e =>
      simp only [nameStandIns, hterminal, bind, Except.bind]
      rfl
    | ok terminal =>
      simp only [nameStandIns, hterminal, bind, Except.bind, pure, Except.pure, StandIns.add,
        standInPositions_concat_of_not_mem hseen, List.length_append, length_nameStandIns hnames,
        List.append_assoc, List.map_append, List.map_singleton]

theorem of_standInsAt_eq_ok {s : StandIns} (hs : g.standInsAt stem names seen = .ok s) :
    s.positions = standInPositions g.nonterminals.length g.terminals.length seen ∧
      s.nonterminals.length = g.nonterminals.length + seen.eraseDups.length ∧
      ∀ other ∈ seen, other < g.terminals.length := by
  obtain ⟨⟨added, after⟩, hnames, hs⟩ := bind_eq_ok_iff.1 hs
  rw [← Except.ok.inj hs]
  refine ⟨rfl, ?_, fun other hother => lt_of_nameStandIns hnames (List.mem_eraseDups.2 hother)⟩
  rw [List.length_append, length_nameStandIns hnames]

theorem run_standInFor (s : StandIns) :
    (g.standInFor stem index).run s = do
      match ← lookUp s.positions index with
      | some position => return (position, s)
      | none =>
        let terminal ← lookUp g.terminals index
        return (s.nonterminals.length, s.add index (stem ++ terminal)) := by
  simp only [standInFor, StateT.run_bind, StateT.run_get, pure_bind, StateT.run_monadLift,
    bind_assoc]
  refine bind_congr fun found => ?_
  cases found with
  | some position => rfl
  | none => simp

/-- **A stand-in is found at the position that it has in the end.** It is made the first time and
found again from then on. A terminal that does not exist is a fault in the run and in the state that
it would lead to. -/
theorem tracks_standInFor (total : List Nat) :
    Tracks (g.standInsAt stem names) total [index] (g.standInFor stem index)
      (g.nonterminals.length + total.eraseDups.idxOf index) := by
  intro seen hfront
  have hposition : total.eraseDups.idxOf index = (seen ++ [index]).eraseDups.idxOf index := by
    obtain ⟨back, rfl⟩ := hfront
    exact idxOf_eraseDups_append List.mem_concat_self
  rw [hposition]
  by_cases hseen : index ∈ seen
  · rw [standInsAt_concat_of_mem hseen, idxOf_eraseDups_append hseen]
    cases hs : g.standInsAt stem names seen with
    | error e => rfl
    | ok s =>
      obtain ⟨hpositions, -, hlt⟩ := of_standInsAt_eq_ok hs
      have hfound : lookUp s.positions index =
          .ok (some (g.nonterminals.length + seen.eraseDups.idxOf index)) := by
        rw [hpositions, lookUp_standInPositions (hlt index hseen), if_pos hseen]
      show (g.standInFor stem index).run s = _
      rw [run_standInFor, hfound]
      rfl
  · rw [standInsAt_concat_of_not_mem hseen, eraseDups_concat_of_not_mem hseen]
    cases hs : g.standInsAt stem names seen with
    | error e => rfl
    | ok s =>
      obtain ⟨hpositions, hlength, -⟩ := of_standInsAt_eq_ok hs
      have hlast : g.nonterminals.length + (seen.eraseDups ++ [index]).idxOf index =
          s.nonterminals.length := by
        rw [hlength, List.idxOf_append, if_neg (mt List.mem_eraseDups.1 hseen)]
        simp
      rw [hlast]
      show (g.standInFor stem index).run s = _
      rcases Nat.lt_or_ge index g.terminals.length with hlt | hge
      · have hnew : lookUp s.positions index = .ok none := by
          rw [hpositions, lookUp_standInPositions hlt, if_neg hseen]
        rw [run_standInFor, hnew, lookUp_of_lt hlt]
        rfl
      · have hfault : lookUp s.positions index = outOfRange :=
          lookUp_eq_error_iff.2 ⟨by simpa [hpositions, standInPositions] using hge, rfl⟩
        have hfault' : lookUp g.terminals index = outOfRange := lookUp_eq_error_iff.2 ⟨hge, rfl⟩
        rw [run_standInFor, hfault, hfault']
        rfl

/-! ### The run through the table -/

theorem tracks_replaceSymbol (total : List Nat) (s : SymbolId) :
    Tracks (g.standInsAt stem names) total s.terminal?.toList (g.replaceSymbol stem s)
      (standIn g.nonterminals.length total.eraseDups s) := by
  cases s with
  | terminal index => exact (tracks_standInFor total).map SymbolId.nonterminal
  | nonterminal index => exact tracks_pure _

theorem tracks_replaceTerminals (total : List Nat) (body : Body) :
    Tracks (g.standInsAt stem names) total
      (if 2 ≤ body.length then body.filterMap SymbolId.terminal? else [])
      (g.replaceTerminals stem body) (isolateBody g.nonterminals.length total.eraseDups body) := by
  by_cases hlength : 2 ≤ body.length
  · have hlong : isLong body = true := decide_eq_true hlength
    rw [if_pos hlength, replaceTerminals, isolateBody, if_pos hlong, if_pos hlong,
      List.filterMap_eq_flatMap_toList]
    exact tracks_mapM fun s _ => tracks_replaceSymbol total s
  · have hshort : ¬isLong body = true := by simpa [isLong] using hlength
    rw [if_neg hlength, replaceTerminals, isolateBody, if_neg hshort, if_neg hshort]
    exact tracks_pure _

/-- **The step in one run is the step at once:** names are drawn for all terminals that occur in
long bodies, and then each body is rewritten by itself. This holds for every grammar, faults
included. -/
theorem withIsolatedTerminals_eq (config : NormalFormNames) :
    g.withIsolatedTerminals names config = do
      let (added, after) ← g.nameStandIns config.terminalStem names g.isolatedTerminals
      return (g.withStandIns added, after) := by
  have hstart : g.standInsAt config.terminalStem names [] = .ok {
      nonterminals := g.nonterminals
      positions := .replicate g.terminals.length none
      rows := []
      names } := by
    simp [standInsAt, nameStandIns, standInPositions, List.map_const']
    rfl
  have hfound : (g.rows.flatMap fun row => row.flatMap fun body =>
      if 2 ≤ body.length then body.filterMap SymbolId.terminal? else []) = g.longBodyTerminals := by
    rw [longBodyTerminals, ← List.flatMap_id', List.flatMap_assoc]
  have hrun : Tracks (g.standInsAt config.terminalStem names) g.longBodyTerminals
      (g.rows.flatMap fun row => row.flatMap fun body =>
        if 2 ≤ body.length then body.filterMap SymbolId.terminal? else [])
      (g.rows.mapM fun row => row.mapM (g.replaceTerminals config.terminalStem))
      (g.rows.map (·.map (isolateBody g.nonterminals.length g.longBodyTerminals.eraseDups))) :=
    tracks_mapM fun row _ => tracks_mapM fun body _ => tracks_replaceTerminals _ body
  rw [hfound, ← isolatedTerminals_eq] at hrun
  have hall := hrun [] List.prefix_rfl
  rw [hstart, List.nil_append, standInsAt, ← isolatedTerminals_eq] at hall
  refine (congrArg (· >>= fun p => return ({ g with
      nonterminals := p.2.nonterminals, rows := p.1 ++ p.2.rows }, p.2.names)) hall).trans ?_
  cases g.nameStandIns config.terminalStem names g.isolatedTerminals <;> rfl

end

end Grammar

end ChomskyChart
