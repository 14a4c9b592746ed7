import Mathlib.Data.List.Nodup
import Mathlib.Data.List.Perm.Subperm
import Mathlib.Logic.Relation
import ChomskyChart.Grammar.Search
import ChomskyChart.Grammar.Table
import ChomskyChart.Proofs.Language.Reading

/-!
# The searches find what can be reached

The list of a search falls into a first part that is expanded and a last part that is pending. What
is expanded has all its neighbours in the list, and no node comes twice. So the budget, which starts
at the number of nodes, lasts until nothing is pending, and then the list is closed under the edges.

## Main definitions

* `Joined`: the edges of a graph given by its neighbour lists
* `SearchState`: the invariant of a search
* `Grammar.UnitStep`, `Grammar.Uses`: the edges of the two searches in a grammar

## Main results

* `SearchState.exists_explore`, `exists_discover`: a search succeeds and finds what it can reach
* `exists_unitClosures`, `exists_reachable`: the searches in a well-formed grammar
-/

namespace ChomskyChart

open Relation

/-! ### Search in a graph -/

/-- There is an edge between the nodes. -/
def Joined (edges : List (List Nat)) (a b : Nat) : Prop :=
  ∃ neighbours, edges[a]? = some neighbours ∧ b ∈ neighbours

/-- A search from `node` has expanded `closed` and has yet to expand `pending`. -/
structure SearchState (edges : List (List Nat)) (node : Nat) (closed pending : List Nat) :
    Prop where
  nodup : (closed ++ pending).Nodup
  lt_length : ∀ a ∈ closed ++ pending, a < edges.length
  reached : ∀ a ∈ closed ++ pending, ReflTransGen (Joined edges) node a
  neighbours_found : ∀ a ∈ closed, ∀ b, Joined edges a b → b ∈ closed ++ pending

section

variable {edges : List (List Nat)} {node : Nat} {closed pending : List Nat}

/-- The nodes that are pending fit into the graph beside those that are expanded. -/
theorem SearchState.length_add_length_le (h : SearchState edges node closed pending) :
    closed.length + pending.length ≤ edges.length := by
  have hsub : closed ++ pending ⊆ List.range edges.length :=
    fun a ha => List.mem_range.2 (h.lt_length a ha)
  have := (h.nodup.subperm hsub).length_le
  rwa [List.length_append, List.length_range] at this

/-- Expanding the first pending node. -/
theorem SearchState.expand {a : Nat} {rest neighbours : List Nat}
    (hedges : ∀ a b, Joined edges a b → b < edges.length)
    (h : SearchState edges node closed (a :: rest)) (ha : edges[a]? = some neighbours) :
    SearchState edges node (closed ++ [a])
      (rest ++ (neighbours.filter fun b => !(closed ++ a :: rest).contains b).eraseDups) := by
  have hlist : ∀ found : List Nat,
      closed ++ [a] ++ (rest ++ found) = (closed ++ a :: rest) ++ found := by simp
  have hmem : ∀ b, b ∈ (neighbours.filter fun b => !(closed ++ a :: rest).contains b).eraseDups ↔
      Joined edges a b ∧ b ∉ closed ++ a :: rest := by
    intro b
    rw [List.mem_eraseDups, List.mem_filter, Bool.not_eq_true', List.contains_eq_mem,
      decide_eq_false_iff_not]
    refine and_congr_left fun _ => ⟨fun hb => ⟨neighbours, ha, hb⟩, ?_⟩
    rintro ⟨others, hothers, hb⟩
    exact Option.some.inj (ha.symm.trans hothers) ▸ hb
  have hnew : ∀ b, Joined edges a b → b ∈ (closed ++ a :: rest) ++
      (neighbours.filter fun b => !(closed ++ a :: rest).contains b).eraseDups := by
    intro b hb
    rw [List.mem_append, hmem]
    exact (Decidable.em _).imp_right fun hnot => ⟨hb, hnot⟩
  have hamem : a ∈ closed ++ a :: rest := List.mem_append_right _ List.mem_cons_self
  constructor
  · rw [hlist]
    refine List.Nodup.append h.nodup (nodup_eraseDups _) fun b hold hfound => ?_
    exact ((hmem b).1 hfound).2 hold
  · intro b hb
    rw [hlist, List.mem_append, hmem] at hb
    rcases hb with hold | ⟨hjoined, -⟩
    · exact h.lt_length b hold
    · exact hedges a b hjoined
  · intro b hb
    rw [hlist, List.mem_append, hmem] at hb
    rcases hb with hold | ⟨hjoined, -⟩
    · exact h.reached b hold
    · exact (h.reached a hamem).tail hjoined
  · intro c hc b hjoined
    rw [hlist]
    rcases List.mem_append.1 hc with hold | hlast
    · exact List.mem_append_left _ (h.neighbours_found c hold b hjoined)
    · obtain rfl := List.mem_singleton.1 hlast
      exact hnew b hjoined

/-- A search begins with its own node pending. -/
theorem SearchState.start (hnode : node < edges.length) : SearchState edges node [] [node] where
  nodup := List.nodup_singleton node
  lt_length := fun _ ha => List.mem_singleton.1 ha ▸ hnode
  reached := fun _ ha => List.mem_singleton.1 ha ▸ .refl
  neighbours_found := fun _ ha => nomatch ha

/-- With nothing pending the search has found all that can be reached. -/
theorem SearchState.mem_iff (h : SearchState edges node closed []) (hnode : node ∈ closed)
    {a : Nat} :
    a ∈ closed ↔ ReflTransGen (Joined edges) node a := by
  constructor
  · intro ha
    exact h.reached a (List.mem_append_left _ ha)
  · intro hreach
    induction hreach with
    | refl => exact hnode
    | tail _ hjoined ih => simpa using h.neighbours_found _ ih _ hjoined

/-- **A search with enough budget succeeds** and ends with nothing pending. -/
theorem SearchState.exists_explore (hedges : ∀ a b, Joined edges a b → b < edges.length)
    {budget : Nat} (h : SearchState edges node closed pending)
    (hbudget : edges.length ≤ budget + closed.length) :
    ∃ found, explore edges budget (closed ++ pending) pending = .ok found ∧
      SearchState edges node found [] ∧ closed ++ pending <+: found := by
  induction budget generalizing closed pending with
  | zero =>
    have hlength := h.length_add_length_le
    obtain rfl : pending = [] := List.eq_nil_of_length_eq_zero (by omega)
    exact ⟨closed ++ [], rfl, by simpa using h, List.prefix_refl _⟩
  | succ budget ih =>
    cases pending with
    | nil => exact ⟨closed ++ [], rfl, by simpa using h, List.prefix_refl _⟩
    | cons a rest =>
      have hlt := h.lt_length a (List.mem_append_right _ List.mem_cons_self)
      have hnext := h.expand hedges (List.getElem?_eq_getElem hlt)
      obtain ⟨found, hfound, hstate, hprefix⟩ :=
        ih hnext (by rw [List.length_append, List.length_singleton]; omega)
      rw [← List.append_assoc, List.append_assoc closed, List.singleton_append] at hfound hprefix
      refine ⟨found, ?_, hstate, (List.prefix_append _ _).trans hprefix⟩
      simp only [explore, lookUp_of_lt hlt, bind, Except.bind]
      exact hfound

/-- **A search finds exactly what can be reached,** the start first and nothing twice. -/
theorem exists_discover (hedges : ∀ a b, Joined edges a b → b < edges.length)
    (hnode : node < edges.length) :
    ∃ found, discover edges node = .ok found ∧ found.Nodup ∧ found.head? = some node ∧
      ∀ a, a ∈ found ↔ ReflTransGen (Joined edges) node a := by
  obtain ⟨found, hfound, hstate, rest, rfl⟩ :=
    (SearchState.start hnode).exists_explore hedges (Nat.le_refl _)
  exact ⟨_, hfound, by simpa using hstate.nodup, rfl, fun _ => hstate.mem_iff List.mem_cons_self⟩

end

/-! ### Searches in a grammar -/

namespace Grammar

variable {g : Grammar}

/-- A unit rule leads from one nonterminal to the other. -/
def UnitStep (g : Grammar) (a b : Nat) : Prop :=
  g.HasRule a [.nonterminal b]

/-- A body of the one nonterminal has the other. -/
def Uses (g : Grammar) (a b : Nat) : Prop :=
  ∃ body, g.HasRule a body ∧ .nonterminal b ∈ body

theorem unitTarget?_eq_some_iff {body : Body} {index : Nat} :
    unitTarget? body = some index ↔ body = [.nonterminal index] := by
  fun_cases unitTarget? body with
  | case1 i => simp
  | case2 body hnot =>
    constructor
    · intro h
      exact nomatch h
    · rintro rfl
      exact (hnot index rfl).elim

theorem joined_unitEdges_iff {a b : Nat} : Joined g.unitEdges a b ↔ g.UnitStep a b := by
  simp only [Joined, unitEdges, List.getElem?_map, Option.map_eq_some_iff, UnitStep, HasRule]
  constructor
  · rintro ⟨_, ⟨row, hrow, rfl⟩, hb⟩
    obtain ⟨body, hbody, htarget⟩ := List.mem_filterMap.1 hb
    exact ⟨row, hrow, unitTarget?_eq_some_iff.1 htarget ▸ hbody⟩
  · rintro ⟨row, hrow, hbody⟩
    exact ⟨_, ⟨row, hrow, rfl⟩, List.mem_filterMap.2 ⟨_, hbody, rfl⟩⟩

theorem joined_useEdges_iff {a b : Nat} : Joined g.useEdges a b ↔ g.Uses a b := by
  simp only [Joined, useEdges, List.getElem?_map, Option.map_eq_some_iff, Uses, HasRule]
  constructor
  · rintro ⟨_, ⟨row, hrow, rfl⟩, hb⟩
    obtain ⟨s, hs, hindex⟩ := List.mem_filterMap.1 hb
    obtain ⟨body, hbody, hmem⟩ := List.mem_flatten.1 hs
    cases s with
    | terminal t => cases hindex
    | nonterminal i =>
      obtain rfl : i = b := Option.some.inj hindex
      exact ⟨body, ⟨row, hrow, hbody⟩, hmem⟩
  · rintro ⟨body, ⟨row, hrow, hbody⟩, hmem⟩
    exact ⟨_, ⟨row, hrow, rfl⟩,
      List.mem_filterMap.2 ⟨_, List.mem_flatten.2 ⟨body, hbody, hmem⟩, rfl⟩⟩

theorem joined_unitEdges : Joined g.unitEdges = g.UnitStep :=
  funext fun _ => funext fun _ => propext joined_unitEdges_iff

theorem joined_useEdges : Joined g.useEdges = g.Uses :=
  funext fun _ => funext fun _ => propext joined_useEdges_iff

theorem UnitStep.uses {a b : Nat} (h : g.UnitStep a b) : g.Uses a b :=
  ⟨_, h, List.mem_cons_self⟩

theorem WellFormed.lt_of_uses (h : g.WellFormed) {a b : Nat} (huses : g.Uses a b) :
    b < g.rows.length := by
  obtain ⟨body, hrule, hmem⟩ := huses
  exact h.nonterminal_lt hrule hmem

theorem WellFormed.lt_length_unitEdges (h : g.WellFormed) (a b : Nat)
    (hjoined : Joined g.unitEdges a b) : b < g.unitEdges.length := by
  rw [length_unitEdges]
  exact h.lt_of_uses (joined_unitEdges_iff.1 hjoined).uses

theorem WellFormed.lt_length_useEdges (h : g.WellFormed) (a b : Nat)
    (hjoined : Joined g.useEdges a b) : b < g.useEdges.length := by
  rw [length_useEdges]
  exact h.lt_of_uses (joined_useEdges_iff.1 hjoined)

theorem WellFormed.start_lt_length_useEdges (h : g.WellFormed) : g.start < g.useEdges.length := by
  rw [length_useEdges, h.length_rows]
  exact h.start_lt

/-- **Each unit closure is found.** -/
theorem exists_unitClosures (h : g.WellFormed) :
    ∃ closure : Nat → List Nat,
      g.unitClosures = .ok ((List.range g.rows.length).map closure) ∧
      ∀ a < g.rows.length, (closure a).Nodup ∧ (closure a).head? = some a ∧
        ∀ b, b ∈ closure a ↔ ReflTransGen g.UnitStep a b := by
  have hnode : ∀ a ∈ List.range g.rows.length, ∃ found, discover g.unitEdges a = .ok found ∧
      (found.Nodup ∧ found.head? = some a ∧ ∀ b, b ∈ found ↔ ReflTransGen g.UnitStep a b) := by
    intro a ha
    rw [← joined_unitEdges]
    exact exists_discover h.lt_length_unitEdges (by simpa using ha)
  obtain ⟨closure, hclosure, hfound⟩ := exists_mapM hnode
  exact ⟨closure, hclosure, fun a ha => hfound a (List.mem_range.2 ha)⟩

/-- **The nonterminals that the start symbol reaches are found.** -/
theorem exists_reachable (h : g.WellFormed) :
    ∃ flags, g.reachable = .ok flags ∧ flags.length = g.rows.length ∧
      ∀ index, flags[index]? = some true ↔ ReflTransGen g.Uses g.start index := by
  have hstart : g.start < g.rows.length := h.length_rows ▸ h.start_lt
  obtain ⟨found, hfound, -, -, hmem⟩ :=
    exists_discover h.lt_length_useEdges h.start_lt_length_useEdges
  refine ⟨(List.range g.rows.length).map found.contains, ?_, by simp, fun index => ?_⟩
  · simp only [reachable, hfound, bind, Except.bind]
    rfl
  · rw [← joined_useEdges, ← hmem, List.getElem?_map]
    rcases Nat.lt_or_ge index g.rows.length with hlt | hge
    · simp [List.getElem?_range hlt]
    · have hnot : index ∉ found := by
        intro hindex
        rw [hmem, joined_useEdges] at hindex
        rcases hindex.cases_tail with heq | ⟨_, -, huses⟩
        · omega
        · have := h.lt_of_uses huses
          omega
      simp [hge, hnot]

end Grammar

end ChomskyChart
