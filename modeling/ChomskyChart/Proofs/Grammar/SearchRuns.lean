import Mathlib.Data.List.Forall2
import Mathlib.Order.Bounds.Defs
import Mathlib.Order.Lattice.Nat
import ChomskyChart.Proofs.Grammar.Search

/-!
# Runs of a search

Which of its pending nodes a search expands next matters neither to its end nor to what it finds: a
queue and a stack do equally well. No node is expanded twice, so there are no more expansions than
the graph has nodes. This holds also of edges that lead out of the graph, as they may in a grammar
whose parts do not fit together: a node out there cannot be expanded and stays pending.

The order of the finds does depend on it. If the first pending node is always the next, then nodes
are found in the order of their distance. The pending nodes are at the distance of the first one or
one step further, and so are the neighbours that join them at the end: the first node is a step away
from them, and a shorter chain would have to leave the list through a node that is pending.

## Main definitions

* `ChainOf`, `distance`: chains of a known length, and the length of the shortest
* `InOrderOfDistance`: lists with the nodes of shorter chains first
* `SearchRun`: how far a search can come, whichever pending node it expands
* `SearchTerminates`: what its end is
* `Layered`: the invariant of a search that expands the first pending node

## Main results

* `SearchRun.perm`, `SearchRun.length_closed_le`, `SearchRun.mem_iff`: what holds of every run
* `searchTerminates`: a search in any graph ends
* `Layered.expand`, `Layered.of_explore`: what an expansion and a run keep
* `searches_correct`: the searches in a grammar
-/

namespace ChomskyChart

open Relation

/-! ### Chains -/

/-- A chain of that many steps leads from the one to the other. -/
inductive ChainOf {α : Type} (r : α → α → Prop) (a : α) : Nat → α → Prop
  | refl : ChainOf r a 0 a
  | tail {n : Nat} {b c : α} (hchain : ChainOf r a n b) (hstep : r b c) : ChainOf r a (n + 1) c

/-- The length of a shortest chain, if there is a chain. -/
noncomputable def distance {α : Type} (r : α → α → Prop) (a b : α) : Nat :=
  sInf {n | ChainOf r a n b}

/-- There are chains to all that is listed, and the shortest ones do not get shorter from one entry
to the next. -/
def InOrderOfDistance {α : Type} (r : α → α → Prop) (a : α) (xs : List α) : Prop :=
  ∃ lengths : List Nat,
    List.Forall₂ (fun b length => IsLeast {n | ChainOf r a n b} length) xs lengths ∧
      lengths.Pairwise (· ≤ ·)

section

variable {α : Type} {r : α → α → Prop} {a b c : α}

theorem reflTransGen_iff_exists_chainOf : ReflTransGen r a b ↔ ∃ n, ChainOf r a n b := by
  constructor
  · intro hreach
    induction hreach with
    | refl => exact ⟨0, .refl⟩
    | tail _ hstep ih =>
      obtain ⟨n, hchain⟩ := ih
      exact ⟨n + 1, hchain.tail hstep⟩
  · rintro ⟨n, hchain⟩
    induction hchain with
    | refl => exact .refl
    | tail _ hstep ih => exact ih.tail hstep

theorem isLeast_distance (hreach : ReflTransGen r a b) :
    IsLeast {n | ChainOf r a n b} (distance r a b) :=
  ⟨Nat.sInf_mem (reflTransGen_iff_exists_chainOf.1 hreach), fun _ hchain => Nat.sInf_le hchain⟩

theorem distance_le_succ (hreach : ReflTransGen r a b) (hstep : r b c) :
    distance r a c ≤ distance r a b + 1 :=
  Nat.sInf_le ((isLeast_distance hreach).1.tail hstep)

theorem inOrderOfDistance_of_pairwise {xs : List α} (hreach : ∀ b ∈ xs, ReflTransGen r a b)
    (h : xs.Pairwise fun b c => distance r a b ≤ distance r a c) : InOrderOfDistance r a xs := by
  refine ⟨xs.map (distance r a), ?_, List.pairwise_map.2 h⟩
  rw [List.forall₂_map_right_iff, List.forall₂_same]
  exact fun b hb => isLeast_distance (hreach b hb)

end

/-! ### Any pending node next -/

/-- The neighbours that are not found yet, each once. -/
def newNodes (seen neighbours : List Nat) : List Nat :=
  (neighbours.filter fun next => !seen.contains next).eraseDups

/-- A search from `node` can come to where it has expanded `closed`, in this order, has found `seen`
and has yet to expand `pending`. The next node is any of the pending ones, and what is found joins
them at the end. So a search that goes on with the first one has a queue, and one that goes on with
the last one has a stack. -/
inductive SearchRun (edges : List (List Nat)) (node : Nat) :
    (closed seen pending : List Nat) → Prop
  | start : SearchRun edges node [] [node] [node]
  | expand {closed seen before after neighbours : List Nat} {a : Nat}
      (hrun : SearchRun edges node closed seen (before ++ a :: after))
      (ha : edges[a]? = some neighbours) :
      SearchRun edges node (closed ++ [a]) (seen ++ newNodes seen neighbours)
        (before ++ after ++ newNodes seen neighbours)

/-- However a search from `node` goes, it expands no more nodes than the graph has. The one that
`discover` makes ends with nothing pending, or at a pending node outside of the graph. -/
structure SearchTerminates (edges : List (List Nat)) (node : Nat) : Prop where
  length_le : ∀ closed seen pending, SearchRun edges node closed seen pending →
    closed.length ≤ edges.length
  discover_eq : ∃ closed seen pending, SearchRun edges node closed seen pending ∧
    (pending = [] ∧ discover edges node = .ok seen ∨
      (∃ a ∈ pending, edges.length ≤ a) ∧ discover edges node = outOfRange)

section

variable {edges : List (List Nat)} {node a b : Nat} {closed seen pending neighbours : List Nat}

theorem mem_newNodes_iff : b ∈ newNodes seen neighbours ↔ b ∈ neighbours ∧ b ∉ seen := by
  rw [newNodes, List.mem_eraseDups, List.mem_filter, Bool.not_eq_true', List.contains_eq_mem,
    decide_eq_false_iff_not]

theorem newNodes_perm {seen' : List Nat} (h : seen.Perm seen') :
    newNodes seen neighbours = newNodes seen' neighbours := by
  simp only [newNodes, List.contains_eq_mem, h.mem_iff]

/-- One expansion of the search that takes the first pending node. -/
theorem explore_cons {budget : Nat} {rest : List Nat} (ha : edges[a]? = some neighbours) :
    explore edges (budget + 1) seen (a :: rest) =
      explore edges budget (seen ++ newNodes seen neighbours)
        (rest ++ newNodes seen neighbours) := by
  rw [explore, lookUp_eq_ok_iff.2 ha]
  rfl

/-- **What is found is either expanded or pending.** -/
theorem SearchRun.perm (h : SearchRun edges node closed seen pending) :
    seen.Perm (closed ++ pending) := by
  induction h with
  | start => exact .refl _
  | @expand closed seen before after neighbours a _ _ ih =>
    have hmiddle : (before ++ a :: after).Perm ([a] ++ (before ++ after)) := List.perm_middle
    have hseen := (ih.trans (hmiddle.append_left closed)).append_right (newNodes seen neighbours)
    simpa only [List.append_assoc] using hseen

theorem SearchRun.node_mem (h : SearchRun edges node closed seen pending) : node ∈ seen := by
  induction h with
  | start => exact List.mem_singleton_self node
  | expand _ _ ih => exact List.mem_append_left _ ih

theorem SearchRun.nodup (h : SearchRun edges node closed seen pending) : seen.Nodup := by
  induction h with
  | start => exact List.nodup_singleton node
  | expand _ _ ih =>
    exact ih.append (nodup_eraseDups _) fun b hold hnew => (mem_newNodes_iff.1 hnew).2 hold

/-- Only nodes of the graph are expanded. -/
theorem SearchRun.closed_subset (h : SearchRun edges node closed seen pending) :
    closed ⊆ List.range edges.length := by
  induction h with
  | start => exact List.nil_subset _
  | expand _ ha ih =>
    refine List.append_subset.2 ⟨ih, List.cons_subset.2 ⟨?_, List.nil_subset _⟩⟩
    exact List.mem_range.2 (List.getElem?_eq_some_iff.1 ha).1

theorem SearchRun.nodup_closed_append (h : SearchRun edges node closed seen pending) :
    (closed ++ pending).Nodup :=
  h.perm.nodup_iff.1 h.nodup

/-- **A search expands no more nodes than the graph has.** -/
theorem SearchRun.length_closed_le (h : SearchRun edges node closed seen pending) :
    closed.length ≤ edges.length := by
  have hnodup := h.nodup_closed_append.of_append_left
  simpa using (hnodup.subperm h.closed_subset).length_le

/-- Once as many nodes are expanded as there are, the pending ones lie outside of the graph. -/
theorem SearchRun.length_le_of_mem_pending (h : SearchRun edges node closed seen pending)
    (hall : edges.length ≤ closed.length) (ha : a ∈ pending) : edges.length ≤ a := by
  by_contra hlt
  have hnodup : (a :: closed).Nodup :=
    List.nodup_cons.2 ⟨fun hclosed =>
      List.disjoint_of_nodup_append h.nodup_closed_append hclosed ha,
      h.nodup_closed_append.of_append_left⟩
  have hsubset : a :: closed ⊆ List.range edges.length :=
    List.cons_subset.2 ⟨List.mem_range.2 (Nat.lt_of_not_le hlt), h.closed_subset⟩
  have := (hnodup.subperm hsubset).length_le
  rw [List.length_cons, List.length_range] at this
  omega

/-- The search that expands the first pending node goes on from any point to its end, if its budget
is the number of nodes that are not expanded. -/
theorem SearchRun.exists_explore {budget : Nat} (h : SearchRun edges node closed seen pending)
    (hbudget : edges.length ≤ budget + closed.length) :
    ∃ closed' seen' pending', SearchRun edges node closed' seen' pending' ∧
      (pending' = [] ∧ explore edges budget seen pending = .ok seen' ∨
        (∃ a ∈ pending', edges.length ≤ a) ∧ explore edges budget seen pending = outOfRange) := by
  induction budget generalizing closed seen pending with
  | zero =>
    cases pending with
    | nil => exact ⟨closed, seen, [], h, .inl ⟨rfl, rfl⟩⟩
    | cons a rest =>
      have ha := h.length_le_of_mem_pending (by omega) (List.mem_cons_self (a := a))
      exact ⟨closed, seen, a :: rest, h, .inr ⟨⟨a, List.mem_cons_self, ha⟩, rfl⟩⟩
  | succ budget ih =>
    cases pending with
    | nil => exact ⟨closed, seen, [], h, .inl ⟨rfl, rfl⟩⟩
    | cons a rest =>
      rcases Nat.lt_or_ge a edges.length with hlt | hge
      · have ha := List.getElem?_eq_getElem hlt
        have hfirst : SearchRun edges node closed seen ([] ++ a :: rest) := h
        have hnext : SearchRun edges node (closed ++ [a]) (seen ++ newNodes seen edges[a])
            (rest ++ newNodes seen edges[a]) := hfirst.expand ha
        rw [explore_cons ha]
        exact ih hnext (by rw [List.length_append, List.length_singleton]; omega)
      · refine ⟨closed, seen, a :: rest, h, .inr ⟨⟨a, List.mem_cons_self, hge⟩, ?_⟩⟩
        simp only [explore, lookUp_eq_error_iff.2 ⟨hge, rfl⟩]
        rfl

/-- **Every search ends.** -/
theorem searchTerminates (edges : List (List Nat)) (node : Nat) : SearchTerminates edges node where
  length_le := fun _ _ _ hrun => hrun.length_closed_le
  discover_eq := SearchRun.start.exists_explore (Nat.le_refl _)

/-! #### What is found -/

/-- The invariant of a search does not depend on the order in which nodes are pending. -/
theorem SearchState.perm {pending' : List Nat} (h : SearchState edges node closed pending)
    (hperm : pending.Perm pending') : SearchState edges node closed pending' := by
  have hlists := hperm.append_left closed
  constructor
  · exact hlists.nodup_iff.1 h.nodup
  · exact fun a ha => h.lt_length a (hlists.mem_iff.2 ha)
  · exact fun a ha => h.reached a (hlists.mem_iff.2 ha)
  · exact fun a ha b hjoined => hlists.mem_iff.1 (h.neighbours_found a ha b hjoined)

theorem SearchRun.searchState (hedges : ∀ a b, Joined edges a b → b < edges.length)
    (hnode : node < edges.length) (h : SearchRun edges node closed seen pending) :
    SearchState edges node closed pending := by
  induction h with
  | start => exact .start hnode
  | @expand closed seen before after neighbours a hrun ha ih =>
    have hfirst : SearchState edges node closed (a :: (before ++ after)) := ih.perm List.perm_middle
    have hseen : seen.Perm (closed ++ a :: (before ++ after)) :=
      hrun.perm.trans (List.perm_middle.append_left closed)
    rw [newNodes_perm hseen]
    exact hfirst.expand hedges ha

/-- **Whichever pending node is expanded next, the same nodes are found.** -/
theorem SearchRun.mem_iff (hedges : ∀ a b, Joined edges a b → b < edges.length)
    (hnode : node < edges.length) (h : SearchRun edges node closed seen []) :
    a ∈ seen ↔ ReflTransGen (Joined edges) node a := by
  have hmem : ∀ b, b ∈ seen ↔ b ∈ closed := fun b => by simpa using h.perm.mem_iff (a := b)
  rw [hmem, (h.searchState hedges hnode).mem_iff ((hmem node).1 h.node_mem)]

/-! ### The first pending node next -/

/-- A search from `node` that expands the first pending node has found nodes in the order of their
distance, and those that are pending differ by one step at most. -/
structure Layered (edges : List (List Nat)) (node : Nat) (closed pending : List Nat) : Prop
    extends SearchState edges node closed pending where
  node_mem : node ∈ closed ++ pending
  ascending : (closed ++ pending).Pairwise fun b c =>
    distance (Joined edges) node b ≤ distance (Joined edges) node c
  span : ∀ b ∈ pending, ∀ c ∈ pending,
    distance (Joined edges) node b ≤ distance (Joined edges) node c + 1

/-- A chain to what is not found yet passes through a pending node. -/
theorem Layered.exists_mem_pending (h : Layered edges node closed pending) {n : Nat}
    (hchain : ChainOf (Joined edges) node n b) (hnot : b ∉ closed ++ pending) :
    ∃ c ∈ pending, ∃ m < n, ChainOf (Joined edges) node m c := by
  induction hchain with
  | refl => exact absurd h.node_mem hnot
  | @tail n b c hchain hstep ih =>
    by_cases hfound : b ∈ closed ++ pending
    · -- an expanded node has all its neighbours in the list
      rcases List.mem_append.1 hfound with hclosed | hpending
      · exact absurd (h.neighbours_found b hclosed c hstep) hnot
      · exact ⟨b, hpending, n, Nat.lt_succ_self n, hchain⟩
    · obtain ⟨d, hd, m, hlt, hshorter⟩ := ih hfound
      exact ⟨d, hd, m, Nat.lt_succ_of_lt hlt, hshorter⟩

/-- The first pending node is the nearest one. -/
theorem Layered.first_le {rest : List Nat} (h : Layered edges node closed (a :: rest))
    (hb : b ∈ a :: rest) : distance (Joined edges) node a ≤ distance (Joined edges) node b := by
  rcases List.mem_cons.1 hb with rfl | hrest
  · exact Nat.le_refl _
  · exact List.rel_of_pairwise_cons (List.pairwise_append.1 h.ascending).2.1 hrest

/-- Nothing is found yet beyond the neighbours of the first pending node. -/
theorem Layered.le_succ_first {rest : List Nat} (h : Layered edges node closed (a :: rest))
    (hb : b ∈ closed ++ a :: rest) :
    distance (Joined edges) node b ≤ distance (Joined edges) node a + 1 := by
  rcases List.mem_append.1 hb with hclosed | hpending
  · exact Nat.le_succ_of_le
      ((List.pairwise_append.1 h.ascending).2.2 b hclosed a List.mem_cons_self)
  · exact h.span b hpending a List.mem_cons_self

/-- **A neighbour that is not found yet is one step further** than the first pending node. -/
theorem Layered.distance_eq {rest : List Nat} (h : Layered edges node closed (a :: rest))
    (hjoined : Joined edges a b) (hnot : b ∉ closed ++ a :: rest) :
    distance (Joined edges) node b = distance (Joined edges) node a + 1 := by
  have hreach := h.reached a (List.mem_append_right _ List.mem_cons_self)
  refine Nat.le_antisymm (distance_le_succ hreach hjoined) ?_
  obtain ⟨c, hc, m, hlt, hchain⟩ :=
    h.exists_mem_pending (isLeast_distance (hreach.tail hjoined)).1 hnot
  calc distance (Joined edges) node a + 1
      ≤ distance (Joined edges) node c + 1 := Nat.succ_le_succ (h.first_le hc)
    _ ≤ m + 1 := Nat.succ_le_succ (Nat.sInf_le hchain)
    _ ≤ distance (Joined edges) node b := hlt

/-- **Expanding the first pending node keeps the finds in order.** -/
theorem Layered.expand {rest : List Nat} (hedges : ∀ a b, Joined edges a b → b < edges.length)
    (h : Layered edges node closed (a :: rest)) (ha : edges[a]? = some neighbours) :
    Layered edges node (closed ++ [a])
      (rest ++ newNodes (closed ++ a :: rest) neighbours) := by
  have hlist : closed ++ [a] ++ (rest ++ newNodes (closed ++ a :: rest) neighbours) =
      closed ++ a :: rest ++ newNodes (closed ++ a :: rest) neighbours := by simp
  have hnew : ∀ b ∈ newNodes (closed ++ a :: rest) neighbours,
      distance (Joined edges) node b = distance (Joined edges) node a + 1 := by
    intro b hb
    obtain ⟨hneighbour, hnot⟩ := mem_newNodes_iff.1 hb
    exact h.distance_eq ⟨neighbours, ha, hneighbour⟩ hnot
  -- whatever is pending next is as far as the first node or one step further
  have hbounds : ∀ b ∈ rest ++ newNodes (closed ++ a :: rest) neighbours,
      distance (Joined edges) node a ≤ distance (Joined edges) node b ∧
        distance (Joined edges) node b ≤ distance (Joined edges) node a + 1 := by
    intro b hb
    rcases List.mem_append.1 hb with hrest | hfound
    · have hpending := List.mem_cons_of_mem a hrest
      exact ⟨h.first_le hpending, h.le_succ_first (List.mem_append_right _ hpending)⟩
    · rw [hnew b hfound]
      exact ⟨Nat.le_succ _, Nat.le_refl _⟩
  refine ⟨h.toSearchState.expand hedges ha, ?_, ?_, ?_⟩
  · rw [hlist]
    exact List.mem_append_left _ h.node_mem
  · rw [hlist]
    refine List.pairwise_append.2 ⟨h.ascending, ?_, fun b hb c hc => ?_⟩
    · exact List.pairwise_of_forall_mem_list fun b hb c hc => by rw [hnew b hb, hnew c hc]
    · rw [hnew c hc]
      exact h.le_succ_first hb
  · intro b hb c hc
    exact (hbounds b hb).2.trans (Nat.succ_le_succ (hbounds c hc).1)

/-- **The whole search finds nodes in order.** -/
theorem Layered.of_explore {budget : Nat} {found : List Nat}
    (hedges : ∀ a b, Joined edges a b → b < edges.length) (h : Layered edges node closed pending)
    (hfound : explore edges budget (closed ++ pending) pending = .ok found) :
    Layered edges node found [] := by
  induction budget generalizing closed pending with
  | zero =>
    cases pending with
    | nil =>
      obtain rfl : closed ++ [] = found := Except.ok.inj hfound
      simpa using h
    | cons a rest => exact nomatch hfound
  | succ budget ih =>
    cases pending with
    | nil =>
      obtain rfl : closed ++ [] = found := Except.ok.inj hfound
      simpa using h
    | cons a rest =>
      have hlt := h.lt_length a (List.mem_append_right _ List.mem_cons_self)
      have ha := List.getElem?_eq_getElem hlt
      rw [explore_cons ha] at hfound
      refine ih (h.expand hedges ha) ?_
      rwa [← List.append_assoc, List.append_assoc closed, List.singleton_append]

theorem layered_of_discover {found : List Nat}
    (hedges : ∀ a b, Joined edges a b → b < edges.length) (hnode : node < edges.length)
    (hfound : discover edges node = .ok found) : Layered edges node found [] := by
  have hstart : Layered edges node [] [node] :=
    { toSearchState := .start hnode
      node_mem := List.mem_singleton_self node
      ascending := List.pairwise_singleton _ _
      span := fun b hb c hc => by
        rw [List.mem_singleton.1 hb, List.mem_singleton.1 hc]
        exact Nat.le_succ _ }
  exact hstart.of_explore hedges hfound

theorem Layered.inOrderOfDistance (h : Layered edges node closed []) :
    InOrderOfDistance (Joined edges) node closed := by
  refine inOrderOfDistance_of_pairwise (fun b hb => h.reached b (List.mem_append_left _ hb)) ?_
  simpa using h.ascending

end

/-! ### Searches in a grammar -/

namespace Grammar

variable {g : Grammar}

theorem exists_unitClosures_inOrder (h : g.WellFormed) :
    ∃ closure : Nat → List Nat,
      g.unitClosures = .ok ((List.range g.rows.length).map closure) ∧
      ∀ a < g.rows.length, (closure a).Nodup ∧ (closure a).head? = some a ∧
        (∀ b, b ∈ closure a ↔ ReflTransGen g.UnitStep a b) ∧
        InOrderOfDistance g.UnitStep a (closure a) := by
  have hnode : ∀ a ∈ List.range g.rows.length, ∃ found, discover g.unitEdges a = .ok found ∧
      (found.Nodup ∧ found.head? = some a ∧ (∀ b, b ∈ found ↔ ReflTransGen g.UnitStep a b) ∧
        InOrderOfDistance g.UnitStep a found) := by
    intro a ha
    have hlt : a < g.unitEdges.length := by simpa using ha
    rw [← joined_unitEdges]
    obtain ⟨found, hfound, hnodup, hhead, hmem⟩ := exists_discover h.lt_length_unitEdges hlt
    exact ⟨found, hfound, hnodup, hhead, hmem,
      (layered_of_discover h.lt_length_unitEdges hlt hfound).inOrderOfDistance⟩
  obtain ⟨closure, hclosure, hfound⟩ := exists_mapM hnode
  exact ⟨closure, hclosure, fun a ha => hfound a (List.mem_range.2 ha)⟩

/-- **The searches end, and they find exactly what can be reached.** In a grammar that passes the
check the flags are set for the nonterminals that the start symbol reaches through bodies, and any
other order of expansion would find the same. The unit closure of a nonterminal begins with itself
and lists what it reaches through unit rules, each once and those of shorter chains first. -/
theorem searches_correct (g : Grammar) :
    (∀ node, SearchTerminates g.useEdges node ∧ SearchTerminates g.unitEdges node) ∧
    (g.validate = .ok () →
      (∃ flags, g.reachable = .ok flags ∧ flags.length = g.nonterminals.length ∧
        ∀ index, flags[index]? = some true ↔ ReflTransGen g.Uses g.start index) ∧
      (∀ closed seen, SearchRun g.useEdges g.start closed seen [] →
        ∀ index, index ∈ seen ↔ ReflTransGen g.Uses g.start index) ∧
      ∃ closures, g.unitClosures = .ok closures ∧ closures.length = g.nonterminals.length ∧
        ∀ index < g.nonterminals.length, ∃ closure, closures[index]? = some closure ∧
          closure.head? = some index ∧ closure.Nodup ∧
          (∀ member, member ∈ closure ↔ ReflTransGen g.UnitStep index member) ∧
          InOrderOfDistance g.UnitStep index closure) := by
  refine ⟨fun node => ⟨searchTerminates _ node, searchTerminates _ node⟩, fun h => ?_⟩
  have hg := validate_eq_ok_iff.1 h
  rw [← hg.length_rows]
  refine ⟨exists_reachable hg, fun closed seen hrun index => ?_, ?_⟩
  · rw [← joined_useEdges]
    exact hrun.mem_iff hg.lt_length_useEdges hg.start_lt_length_useEdges
  · obtain ⟨closure, hclosure, hfound⟩ := exists_unitClosures_inOrder hg
    refine ⟨_, hclosure, by simp, fun index hlt => ?_⟩
    obtain ⟨hnodup, hhead, hmem, horder⟩ := hfound index hlt
    refine ⟨closure index, ?_, hhead, hnodup, hmem, horder⟩
    rw [List.getElem?_map, List.getElem?_range hlt, Option.map_some]

/-- Unit rules in circles, with two ways to most nonterminals, and a nonterminal that the start
symbol does not reach. -/
def unitCircles : Grammar where
  nonterminals := ["S", "A", "B", "C", "D", "E"]
  terminals := ["a", "b"]
  start := 0
  rows := [[[.nonterminal 2], [.nonterminal 1], [.nonterminal 0]],
    [[.nonterminal 4], [.nonterminal 3], [.terminal 0]],
    [[.nonterminal 1], [.nonterminal 3], [.nonterminal 0]],
    [[.nonterminal 3, .terminal 1], [.nonterminal 4]],
    [[.nonterminal 0, .nonterminal 1], [.terminal 1]],
    [[.nonterminal 0], [.nonterminal 5]]]

theorem searches_correct_unitCircles :
    (∀ node, SearchTerminates unitCircles.useEdges node ∧
      SearchTerminates unitCircles.unitEdges node) ∧
    unitCircles.validate = .ok () ∧
    (∃ flags, unitCircles.reachable = .ok flags ∧ flags.length = 6 ∧
      ∀ index, flags[index]? = some true ↔ ReflTransGen unitCircles.Uses 0 index) ∧
    (∀ closed seen, SearchRun unitCircles.useEdges 0 closed seen [] →
      ∀ index, index ∈ seen ↔ ReflTransGen unitCircles.Uses 0 index) ∧
    ∃ closures, unitCircles.unitClosures = .ok closures ∧ closures.length = 6 ∧
      ∀ index < 6, ∃ closure, closures[index]? = some closure ∧
        closure.head? = some index ∧ closure.Nodup ∧
        (∀ member, member ∈ closure ↔ ReflTransGen unitCircles.UnitStep index member) ∧
        InOrderOfDistance unitCircles.UnitStep index closure := by
  obtain ⟨hends, hfound⟩ := searches_correct unitCircles
  exact ⟨hends, by decide, hfound (by decide)⟩

example : unitCircles.unitClosures = .ok
    [[0, 2, 1, 3, 4], [1, 4, 3], [2, 1, 3, 0, 4], [3, 4], [4], [5, 0, 2, 1, 3, 4]] := by decide

end Grammar

end ChomskyChart
