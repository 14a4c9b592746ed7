import Mathlib.Order.Bounds.Defs
import ChomskyChart.Proofs.Grammar.NewNames

/-!
# Runs of an allocator

An allocator is asked for names again and again, for fresh and for numbered ones in any order. Each
answer is described by the taken names alone, as if nothing were remembered but them. For fresh
names this is how they are made. A numbered name is looked for from the counter of its stem on, and
what makes this the same as a search from zero is that all numbers below a counter are used up:
their spellings are taken. Other stems and fresh names do not disturb this, though they may have the
same spellings, since no name is ever given back.

## Main definitions

* `SearchEnds`: the search for a free number, one number after the other
* `FreshNames.Request`, `FreshNames.serve`, `FreshNames.serveAll`: requests, and what they get
* `FreshNames.Request.Wants`: the name for a request, by the taken names
* `FreshNames.Searches`: the name for a request, by the search
* `FreshNames.UsedUp`: the numbers below the counters are used up

## Main results

* `searchEnds_iff`: where the search ends
* `FreshNames.usedUp_serve`, `FreshNames.usedUp_serveAll`: what a request and a run keep
* `FreshNames.serveAll_correct`: all that a run gives out
-/

namespace ChomskyChart

/-! ### The search, number by number -/

/-- The search that begins at the first number ends at the second. -/
inductive SearchEnds (taken : List String) (spell : Nat → String) : Nat → Nat → Prop
  | free {k : Nat} (hfree : spell k ∉ taken) : SearchEnds taken spell k k
  | next {k n : Nat} (htaken : spell k ∈ taken) (hends : SearchEnds taken spell (k + 1) n) :
      SearchEnds taken spell k n

section

variable {taken : List String} {spell : Nat → String} {k n : Nat}

/-- The search ends at the least free number. -/
theorem searchEnds_iff :
    SearchEnds taken spell k n ↔ IsLeast {m | k ≤ m ∧ spell m ∉ taken} n := by
  constructor
  · intro hends
    induction hends with
    | free hfree => exact ⟨⟨Nat.le_refl _, hfree⟩, fun m hm => hm.1⟩
    | @next k n htaken _ ih =>
      refine ⟨⟨Nat.le_of_succ_le ih.1.1, ih.1.2⟩, fun m ⟨hle, hfree⟩ => ih.2 ⟨?_, hfree⟩⟩
      refine Nat.lt_of_le_of_ne hle ?_
      rintro rfl
      exact hfree htaken
  · rintro ⟨⟨hle, hfree⟩, hleast⟩
    -- by induction on the distance to the number where the search is to end
    obtain ⟨d, rfl⟩ := Nat.exists_eq_add_of_le hle
    clear hle
    induction d generalizing k with
    | zero => exact .free hfree
    | succ d ih =>
      have htaken : spell k ∈ taken := by
        by_contra hnot
        have := hleast ⟨Nat.le_refl k, hnot⟩
        omega
      rw [← Nat.succ_add_eq_add_succ] at hfree hleast ⊢
      exact .next htaken (ih (fun m hm => hleast ⟨Nat.le_of_succ_le hm.1, hm.2⟩) hfree)

/-- If all numbers are spelled in different ways, then there is a free one. -/
theorem isLeast_firstFree (hspell : ∀ i j, spell i = spell j → i = j) (k : Nat) :
    IsLeast {m | k ≤ m ∧ spell m ∉ taken} (firstFree taken spell k) := by
  refine ⟨⟨le_firstFree taken spell k, firstFree_not_mem hspell k⟩, fun m ⟨hle, hfree⟩ => ?_⟩
  exact Nat.le_of_not_lt fun hlt => hfree (firstFree_minimal hle hlt)

end

theorem lookup_filter_fst_ne {α : Type} {entries : List (String × α)} {stem other : String}
    (h : other ≠ stem) :
    (entries.filter fun entry => entry.1 != stem).lookup other = entries.lookup other := by
  have hother : (other == stem) = false := beq_eq_false_iff_ne.2 h
  induction entries with
  | nil => rfl
  | cons entry rest ih =>
    obtain ⟨key, k⟩ := entry
    by_cases hstem : key = stem
    · simp [hstem, List.lookup_cons, hother, ih]
    · simp [hstem, List.lookup_cons, ih]

namespace FreshNames

/-! ### Requests -/

/-- A request for a fresh name, or for a numbered one. -/
inductive Request
  | fresh (base : String)
  | numbered (stem : String)
deriving DecidableEq, Repr

/-- The name that a request gets. -/
def serve (names : FreshNames) : Request → String × FreshNames
  | .fresh base => names.fresh base
  | .numbered stem => names.numbered stem

/-- The names that a run of requests gets. -/
def serveAll (names : FreshNames) : List Request → List String × FreshNames
  | [] => ([], names)
  | request :: rest =>
    let (name, names) := names.serve request
    let (more, names) := names.serveAll rest
    (name :: more, names)

/-- The name that a request is to get: the base itself if it is free, else the base with the least
number from one on that makes it free; or the stem with the least number from zero on. -/
def Request.Wants (taken : List String) : Request → String → Prop
  | .fresh base, name =>
    (base ∉ taken ∧ name = base) ∨
      base ∈ taken ∧ ∃ k, IsLeast {k | 1 ≤ k ∧ suffixed base k ∉ taken} k ∧ name = suffixed base k
  | .numbered stem, name => ∃ k, IsLeast {k | spelled stem k ∉ taken} k ∧ name = spelled stem k

/-- The search for a request ends at a name. Numbered names are looked for from the counter on. -/
def Searches (names : FreshNames) : Request → String → Prop
  | .fresh base, name =>
    (base ∉ names.taken ∧ name = base) ∨
      base ∈ names.taken ∧
        ∃ k, SearchEnds names.taken (suffixed base) 1 k ∧ name = suffixed base k
  | .numbered stem, name =>
    ∃ k, SearchEnds names.taken (spelled stem) (names.counter stem) k ∧ name = spelled stem k

/-! ### Counters -/

section

variable {names : FreshNames} {stem : String}

theorem counter_setCounter_self {k : Nat} : (names.setCounter stem k).counter stem = k := by
  simp [counter, setCounter]

theorem counter_setCounter_of_ne {other : String} {k : Nat} (h : other ≠ stem) :
    (names.setCounter stem k).counter other = names.counter other := by
  have hother : (other == stem) = false := beq_eq_false_iff_ne.2 h
  simp [counter, setCounter, List.lookup_cons, hother, lookup_filter_fst_ne h]

/-- All numbers below the counter of a stem are used up. -/
def UsedUp (names : FreshNames) : Prop :=
  ∀ stem, ∀ k < names.counter stem, spelled stem k ∈ names.taken

theorem usedUp_ofGrammar (g : Grammar) : (ofGrammar g).UsedUp :=
  fun _ k hk => absurd hk (Nat.not_lt_zero k)

/-- Taking a name moves no counter. -/
theorem UsedUp.take (h : names.UsedUp) (name : String) : (names.take name).UsedUp :=
  fun stem k hk => List.mem_cons_of_mem name (h stem k hk)

/-- The counter may move up to a number if the numbers on its way are used up as well. -/
theorem UsedUp.setCounter (h : names.UsedUp) {k : Nat}
    (hstem : ∀ j, names.counter stem ≤ j → j < k → spelled stem j ∈ names.taken) :
    (names.setCounter stem k).UsedUp := by
  intro other j hj
  rw [taken_setCounter]
  by_cases heq : other = stem
  · subst heq
    rw [counter_setCounter_self] at hj
    rcases Nat.lt_or_ge j (names.counter other) with hlt | hge
    · exact h other j hlt
    · exact hstem j hge hj
  · rw [counter_setCounter_of_ne heq] at hj
    exact h other j hj

theorem usedUp_serve (h : names.UsedUp) (request : Request) : (names.serve request).2.UsedUp := by
  cases request with
  | fresh base => exact h.take _
  | numbered stem =>
    -- the numbers passed over were taken before, and the number found is taken now
    refine (h.take _).setCounter fun j hle hlt => ?_
    rcases Nat.eq_or_lt_of_le (Nat.le_of_lt_succ hlt) with rfl | hlt
    · exact List.mem_cons_self
    · exact List.mem_cons_of_mem _ (firstFree_minimal hle hlt)

theorem usedUp_serveAll (h : names.UsedUp) (requests : List Request) :
    (names.serveAll requests).2.UsedUp := by
  induction requests generalizing names with
  | nil => exact h
  | cons request rest ih => exact ih (usedUp_serve h request)

end

/-! ### Answers -/

section

variable (names : FreshNames) (request : Request)

theorem serve_not_mem : (names.serve request).1 ∉ names.taken := by
  cases request with
  | fresh base => exact names.fresh_not_mem base
  | numbered stem => exact names.numbered_not_mem stem

theorem taken_serve : (names.serve request).2.taken = (names.serve request).1 :: names.taken := by
  cases request with
  | fresh base => rfl
  | numbered stem => rfl

/-- The search for a request ends, at the name that the request gets. -/
theorem searches_serve : names.Searches request (names.serve request).1 := by
  cases request with
  | fresh base =>
    by_cases hbase : base ∈ names.taken
    · refine .inr ⟨hbase, _, ?_, if_pos hbase⟩
      exact searchEnds_iff.2 (isLeast_firstFree (fun _ _ => suffixed_injective base) 1)
    · exact .inl ⟨hbase, if_neg hbase⟩
  | numbered stem =>
    exact ⟨_, searchEnds_iff.2 (isLeast_firstFree (fun _ _ => spelled_injective stem) _), rfl⟩

end

/-- If the numbers below the counters are used up, then no search passes over a free one. -/
theorem Searches.wants {names : FreshNames} {request : Request} {name : String}
    (h : names.Searches request name) (hused : names.UsedUp) : request.Wants names.taken name := by
  cases request with
  | fresh base =>
    exact h.imp_right (And.imp_right (Exists.imp fun k => And.imp_left searchEnds_iff.1))
  | numbered stem =>
    obtain ⟨k, hends, rfl⟩ := h
    obtain ⟨⟨-, hfree⟩, hleast⟩ := searchEnds_iff.1 hends
    refine ⟨k, ⟨hfree, fun m hm => hleast ⟨?_, hm⟩⟩, rfl⟩
    exact Nat.le_of_not_lt fun hlt => hm (hused stem m hlt)

/-! ### Runs -/

theorem length_serveAll (names : FreshNames) (requests : List Request) :
    (names.serveAll requests).1.length = requests.length := by
  induction requests generalizing names with
  | nil => rfl
  | cons request rest ih => exact congrArg Nat.succ (ih _)

theorem draws_serveAll (names : FreshNames) (requests : List Request) :
    names.Draws (names.serveAll requests).1 (names.serveAll requests).2 := by
  induction requests generalizing names with
  | nil => exact .nil names
  | cons request rest ih =>
    exact .cons (names.serve_not_mem request) (names.taken_serve request) (ih _)

/-- A run is served in two parts. -/
theorem serveAll_append (names : FreshNames) (before after : List Request) :
    names.serveAll (before ++ after) =
      ((names.serveAll before).1 ++ ((names.serveAll before).2.serveAll after).1,
        ((names.serveAll before).2.serveAll after).2) := by
  induction before generalizing names with
  | nil => rfl
  | cons request rest ih =>
    simp only [List.cons_append, serveAll, ih]

theorem isTaken_iff {names : FreshNames} {name : String} :
    names.isTaken name = true ↔ name ∈ names.taken :=
  List.contains_iff_mem

theorem mem_taken_ofGrammar_iff {g : Grammar} {name : String} :
    name ∈ (ofGrammar g).taken ↔ name ∈ g.nonterminals ∨ name ∈ g.terminals :=
  List.mem_append

/-- **What a run of requests gets.** All names are new to the grammar and no two are equal, and they
are the only ones taken besides those of the grammar. The search for each of them ends, and though
it may begin at a number further on, it finds the name that the taken names of this moment
determine. -/
theorem serveAll_correct (g : Grammar) (requests : List Request) :
    ∃ given names, (ofGrammar g).serveAll requests = (given, names) ∧
      given.length = requests.length ∧ given.Nodup ∧
      (∀ name ∈ given, name ∉ g.nonterminals ∧ name ∉ g.terminals) ∧
      (∀ name, names.isTaken name = true ↔
        name ∈ given ∨ name ∈ g.nonterminals ∨ name ∈ g.terminals) ∧
      ∀ before request after, requests = before ++ request :: after →
        ∃ earlier middle name later more,
          (ofGrammar g).serveAll before = (earlier, middle) ∧
          middle.serve request = (name, later) ∧ later.serveAll after = (more, names) ∧
          given = earlier ++ name :: more ∧ middle.isTaken name = false ∧
          (∀ other, later.isTaken other = true ↔ other = name ∨ middle.isTaken other = true) ∧
          middle.Searches request name ∧ request.Wants middle.taken name := by
  have hdraws := (ofGrammar g).draws_serveAll requests
  refine ⟨_, _, rfl, length_serveAll _ requests, hdraws.nodup, fun name hname => ?_,
    fun name => ?_, ?_⟩
  · have hfree := hdraws.free name hname
    rwa [mem_taken_ofGrammar_iff, not_or] at hfree
  · rw [isTaken_iff, hdraws.mem_taken_iff, mem_taken_ofGrammar_iff]
  · rintro before request after rfl
    have hused := usedUp_serveAll (usedUp_ofGrammar g) before
    rw [serveAll_append]
    generalize (ofGrammar g).serveAll before = run at hused ⊢
    obtain ⟨earlier, middle⟩ := run
    have hsearches := middle.searches_serve request
    refine ⟨earlier, middle, (middle.serve request).1, (middle.serve request).2, _, rfl, rfl, rfl,
      rfl, ?_, fun other => ?_, hsearches, hsearches.wants hused⟩
    · rw [← Bool.not_eq_true, isTaken_iff]
      exact middle.serve_not_mem request
    · rw [isTaken_iff, isTaken_iff, taken_serve, List.mem_cons]

-- the first number of one stem is spelled like the tenth of another
example :
    ((ofGrammar { nonterminals := ["B"], terminals := ["B3"], start := 0, rows := [[]] }).serveAll
      (.numbered "B1" :: .fresh "B" :: List.replicate 10 (.numbered "B"))).1 =
      ["B10", "B_1", "B0", "B1", "B2", "B4", "B5", "B6", "B7", "B8", "B9", "B11"] := by
  cbv

end FreshNames

end ChomskyChart
