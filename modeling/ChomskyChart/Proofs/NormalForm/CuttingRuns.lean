import ChomskyChart.NormalForm.Binary
import ChomskyChart.Proofs.Grammar.NewNames

/-!
# Bodies cut in one run

The step that cuts bodies stops early: if an end has come up before, then the rules for it and for
its own ends are not written again. It may stop because they are there, and they are there because a
body that was cut before was cut to its end. Within a body this does not hold, since the end that
has just got its nonterminal is yet to be cut. But only shorter ends can come up from there on, so
it is enough that all ends *shorter than what is left of the body* are settled.

What is written is the same as if nothing were left out. The state is a function of the ends that
have come up and of the rules that are written, and both may be listed with repetitions.

A table with fewer rows than named nonterminals has no row for the last end that gets a nonterminal.
That end is written to in any case, by the rest of the body or by the rule for an old end.

## Main definitions

* `longEnds`, `shorten`, `binaryEntries`: the ends of a body that get a nonterminal, the body
  afterwards, and all rules that are written for it
* `Grammar.withSharedEnds`: the grammar with cut bodies under given names
* `Grammar.sharedEndsAt`: the state of the step
* `Grammar.Settled`: the ends up to some length have been cut

## Main results

* `Grammar.cut_sharedEndsAt`: one body
* `Grammar.cut_eq_outOfRange`: a nonterminal without a row
* `Grammar.withBinaryBodies_eq`: the step, for every grammar
-/

namespace ChomskyChart

/-! ### What is written in the end -/

/-- The proper ends of a body that have two or more symbols, the longest first. -/
def longEnds : Body → List Body
  | [] => []
  | _ :: rest => if 2 ≤ rest.length then rest :: longEnds rest else []

/-- The first symbol of a body of more than two, and the nonterminal for the rest of it. `position`
says where the nonterminal for an end stands. -/
def shorten (position : Body → Nat) (body : Body) : Body :=
  match body with
  | first :: rest =>
    if 2 ≤ rest.length then [first, .nonterminal (position rest)] else first :: rest
  | [] => []

/-- The table entries for a body: the body itself, shortened, under its head, and its ends,
shortened, under their nonterminals. -/
def binaryEntries (position : Body → Nat) (head : Nat) (body : Body) : List (Nat × Body) :=
  (head, shorten position body) ::
    (longEnds body).map fun rest => (position rest, shorten position rest)

theorem longEnds_cons_of_le {s : SymbolId} {rest : Body} (h : 2 ≤ rest.length) :
    longEnds (s :: rest) = rest :: longEnds rest := by
  rw [longEnds, if_pos h]

theorem longEnds_cons_of_lt {s : SymbolId} {rest : Body} (h : rest.length < 2) :
    longEnds (s :: rest) = [] := by
  rw [longEnds, if_neg (by omega)]

/-- The ends of an end of a body are ends of the body. -/
theorem longEnds_subset {body rest : Body} (h : rest ∈ longEnds body) :
    longEnds rest ⊆ longEnds body := by
  induction body with
  | nil => exact nomatch h
  | cons s tail ih =>
    rcases Nat.lt_or_ge tail.length 2 with hlt | hge
    · rw [longEnds_cons_of_lt hlt] at h
      exact nomatch h
    · rw [longEnds_cons_of_le hge] at h ⊢
      rcases List.mem_cons.1 h with rfl | h
      · exact List.subset_cons_self _ _
      · exact List.Subset.trans (ih h) (List.subset_cons_self _ _)

theorem shorten_cons_of_le {position : Body → Nat} {first : SymbolId} {rest : Body}
    (h : 2 ≤ rest.length) :
    shorten position (first :: rest) = [first, .nonterminal (position rest)] := by
  rw [shorten, if_pos h]

theorem shorten_of_length_le {position : Body → Nat} {body : Body} (h : body.length ≤ 2) :
    shorten position body = body := by
  cases body with
  | nil => rfl
  | cons first rest => rw [shorten, if_neg (by simp only [List.length_cons] at h; omega)]

theorem binaryEntries_cons_of_le {position : Body → Nat} {head : Nat} {first : SymbolId}
    {rest : Body} (h : 2 ≤ rest.length) :
    binaryEntries position head (first :: rest) =
      (head, [first, .nonterminal (position rest)]) ::
        binaryEntries position (position rest) rest := by
  rw [binaryEntries, shorten_cons_of_le h, longEnds_cons_of_le h, List.map_cons, binaryEntries]

/-- The rules for an end of a body are among those for the body. -/
theorem binaryEntries_subset {position : Body → Nat} {head : Nat} {body rest : Body}
    (h : rest ∈ longEnds body) :
    binaryEntries position (position rest) rest ⊆ binaryEntries position head body :=
  List.Subset.trans (List.map_subset (fun rest => (position rest, shorten position rest))
    (List.cons_subset.2 ⟨h, longEnds_subset h⟩)) (List.subset_cons_self _ _)

namespace Grammar

/-- The distinct ends of bodies that get a nonterminal, in the order of their first occurrence. -/
def sharedEnds (g : Grammar) : List Body :=
  (g.rows.flatten.flatMap longEnds).eraseDups

/-- Where the nonterminal of a shared end stands. -/
def endPosition (g : Grammar) (rest : Body) : Nat :=
  g.nonterminals.length + g.sharedEnds.idxOf rest

/-- The table entries of all bodies. -/
def cutEntries (g : Grammar) : List (Nat × Body) :=
  g.headedBodies.flatMap fun (head, body) => binaryEntries g.endPosition head body

/-- The grammar in which no body has more than two symbols, and the nonterminals of shared ends
have the names in `added`. -/
def withSharedEnds (g : Grammar) (added : List String) : Grammar :=
  { g with
    nonterminals := g.nonterminals ++ added
    rows := tableOf (g.rows.length + g.sharedEnds.length) g.cutEntries }

/-! ### The state of the step -/

/-- For each end that has come up the position of its nonterminal. -/
def endPositions (offset : Nat) (seen : List Body) : List (Body × Nat) :=
  seen.eraseDups.map fun rest => (rest, offset + seen.eraseDups.idxOf rest)

section

variable {offset : Nat} {seen : List Body} {rest : Body}

theorem lookup_endPositions (offset : Nat) (seen : List Body) (rest : Body) :
    (endPositions offset seen).lookup rest =
      if rest ∈ seen then some (offset + seen.eraseDups.idxOf rest) else none := by
  have hlookup : ∀ (ends : List Body) (position : Body → Nat),
      (ends.map fun rest => (rest, position rest)).lookup rest =
        if rest ∈ ends then some (position rest) else none := by
    intro ends position
    induction ends with
    | nil => rfl
    | cons first more ih =>
      by_cases heq : rest = first
      · simp [heq]
      · have hne : (rest == first) = false := beq_eq_false_iff_ne.2 heq
        simp [List.lookup_cons, hne, heq, ih]
  rw [endPositions, hlookup]
  simp only [List.mem_eraseDups]

theorem endPositions_concat (hrest : rest ∉ seen) :
    endPositions offset (seen ++ [rest]) =
      endPositions offset seen ++ [(rest, offset + seen.eraseDups.length)] := by
  have hnew : rest ∉ seen.eraseDups := mt List.mem_eraseDups.1 hrest
  rw [endPositions, eraseDups_concat_of_not_mem hrest, List.map_append, endPositions]
  refine congrArg₂ _ (List.map_congr_left fun other hother => ?_) ?_
  · rw [List.idxOf_append, if_pos hother]
  · rw [List.map_singleton, List.idxOf_append, if_neg hnew]
    simp

end

variable {g : Grammar} {stem : String} {names : FreshNames}

/-- The state of the step when the ends in `seen` have come up and the rules in `written` are
written. -/
def sharedEndsAt (g : Grammar) (stem : String) (names : FreshNames) (seen : List Body)
    (written : List (Nat × Body)) : SharedEnds where
  nonterminals := g.nonterminals ++ (names.numberedMany stem seen.eraseDups.length).1
  rows := tableOf (g.rows.length + seen.eraseDups.length) written
  positions := endPositions g.nonterminals.length seen
  names := (names.numberedMany stem seen.eraseDups.length).2

section

variable {seen : List Body} {written : List (Nat × Body)}

theorem length_eraseDups_concat {rest : Body} (hrest : rest ∉ seen) :
    (seen ++ [rest]).eraseDups.length = seen.eraseDups.length + 1 := by
  rw [eraseDups_concat_of_not_mem hrest, List.length_append, List.length_singleton]

theorem length_nonterminals_sharedEndsAt :
    (g.sharedEndsAt stem names seen written).nonterminals.length =
      g.nonterminals.length + seen.eraseDups.length := by
  rw [sharedEndsAt, List.length_append, FreshNames.length_numberedMany]

/-- What has come up before and is written already changes nothing. -/
theorem sharedEndsAt_append_of_subset {known : List Body} {old : List (Nat × Body)}
    (hknown : known ⊆ seen) (hold : old ⊆ written) :
    g.sharedEndsAt stem names (seen ++ known) (written ++ old) =
      g.sharedEndsAt stem names seen written := by
  rw [sharedEndsAt, endPositions, eraseDups_append_of_subset hknown,
    tableOf_append_of_subset _ hold]
  rfl

theorem addBody_sharedEndsAt {head : Nat} (hhead : head < g.rows.length + seen.eraseDups.length)
    (body : Body) :
    (g.sharedEndsAt stem names seen written).addBody head body =
      .ok (g.sharedEndsAt stem names seen (written ++ [(head, body)])) := by
  have hrows : replaceAt (g.sharedEndsAt stem names seen written).rows head
      (fun row => pushUnique row body) =
      .ok (tableOf (g.rows.length + seen.eraseDups.length) (written ++ [(head, body)])) :=
    (replaceAt_tableOf _ written head body).trans (if_pos hhead)
  rw [SharedEnds.addBody, hrows]
  rfl

theorem addEnd_sharedEndsAt {rest : Body} (hrest : rest ∉ seen)
    (hwritten : ∀ entry ∈ written, entry.1 < g.rows.length + seen.eraseDups.length) :
    (g.sharedEndsAt stem names seen written).addEnd stem rest =
      g.sharedEndsAt stem names (seen ++ [rest]) written := by
  have htable : tableOf (g.rows.length + (seen.eraseDups.length + 1)) written =
      tableOf (g.rows.length + seen.eraseDups.length) written ++ [[]] :=
    tableOf_succ fun entry hentry => Nat.ne_of_lt (hwritten entry hentry)
  rw [SharedEnds.addEnd, sharedEndsAt, sharedEndsAt, length_eraseDups_concat hrest, htable,
    endPositions_concat hrest, FreshNames.numberedMany_succ]
  simp only [List.length_append, FreshNames.length_numberedMany, List.append_assoc]

theorem endPosition_of_mem {rest : Body} (hfront : seen <+: g.rows.flatten.flatMap longEnds)
    (hrest : rest ∈ seen) :
    g.endPosition rest = g.nonterminals.length + seen.eraseDups.idxOf rest := by
  obtain ⟨later, hall⟩ := hfront
  rw [endPosition, sharedEnds, ← hall, idxOf_eraseDups_append hrest]

/-! ### One body -/

/-- The rules that are written fit in the table, and the ends with fewer than `bound` symbols that
have come up have been cut to their ends. -/
structure Settled (g : Grammar) (seen : List Body) (written : List (Nat × Body)) (bound : Nat) :
    Prop where
  lt : ∀ entry ∈ written, entry.1 < g.rows.length + seen.eraseDups.length
  ends_subset : ∀ rest ∈ seen, rest.length < bound → longEnds rest ⊆ seen
  entries_subset : ∀ rest ∈ seen, rest.length < bound →
    binaryEntries g.endPosition (g.endPosition rest) rest ⊆ written

/-- An end that gets its nonterminal is itself not settled, but all shorter ones are. -/
theorem Settled.next {rest : Body} (h : g.Settled seen written (rest.length + 1))
    (hrest : rest ∉ seen) {head : Nat} (hhead : head < g.rows.length + seen.eraseDups.length)
    (body : Body) : g.Settled (seen ++ [rest]) (written ++ [(head, body)]) rest.length := by
  have hmem : ∀ other ∈ seen ++ [rest], other.length < rest.length → other ∈ seen := by
    intro other hother hlt
    rcases List.mem_append.1 hother with hother | hother
    · exact hother
    · rw [List.mem_singleton.1 hother] at hlt
      exact absurd hlt (Nat.lt_irrefl _)
  refine ⟨fun entry hentry => ?_, fun other hother hlt => ?_, fun other hother hlt => ?_⟩
  · rw [length_eraseDups_concat hrest]
    rcases List.mem_append.1 hentry with hentry | hentry
    · exact Nat.lt_succ_of_lt (h.lt entry hentry)
    · rw [List.mem_singleton.1 hentry]
      exact Nat.lt_succ_of_lt hhead
  · exact List.subset_append_of_subset_left _
      (h.ends_subset other (hmem other hother hlt) (Nat.lt_succ_of_lt hlt))
  · exact List.subset_append_of_subset_left _
      (h.entries_subset other (hmem other hother hlt) (Nat.lt_succ_of_lt hlt))

/-- **One body is cut as if nothing were left out.** The induction is on the body, and what carries
it is that the ends shorter than what is left are settled. -/
theorem cut_sharedEndsAt {head : Nat} {body : Body}
    (hrows : longEnds body = [] ∨ g.nonterminals.length ≤ g.rows.length)
    (hfront : seen ++ longEnds body <+: g.rows.flatten.flatMap longEnds)
    (hhead : head < g.rows.length + seen.eraseDups.length)
    (hsettled : g.Settled seen written body.length) :
    (g.sharedEndsAt stem names seen written).cut stem head body =
      .ok (g.sharedEndsAt stem names (seen ++ longEnds body)
        (written ++ binaryEntries g.endPosition head body)) := by
  induction body generalizing head seen written with
  | nil =>
    rw [SharedEnds.cut, addBody_sharedEndsAt hhead, longEnds, List.append_nil]
    rfl
  | cons first rest ih =>
    rcases Nat.lt_or_ge rest.length 2 with hshort | hlong
    · have hbody : (first :: rest).length ≤ 2 := by simp only [List.length_cons]; omega
      rw [SharedEnds.cut, if_neg (Nat.not_le.2 hshort), addBody_sharedEndsAt hhead, binaryEntries,
        longEnds_cons_of_lt hshort, shorten_of_length_le hbody, List.append_nil, List.map_nil]
    rw [longEnds_cons_of_le hlong] at hrows hfront ⊢
    rw [SharedEnds.cut, if_pos hlong, binaryEntries_cons_of_le hlong]
    have hlookup : (g.sharedEndsAt stem names seen written).positions.lookup rest = _ :=
      lookup_endPositions _ seen rest
    by_cases hseen : rest ∈ seen
    · -- the rest has been cut before, with all of its ends
      have hposition : g.endPosition rest = g.nonterminals.length + seen.eraseDups.idxOf rest :=
        endPosition_of_mem ((List.prefix_append _ _).trans hfront) hseen
      have hknown : rest :: longEnds rest ⊆ seen :=
        List.cons_subset.2 ⟨hseen, hsettled.ends_subset rest hseen (Nat.lt_succ_self _)⟩
      have hold : binaryEntries g.endPosition (g.endPosition rest) rest ⊆
          written ++ [(head, [first, .nonterminal (g.endPosition rest)])] :=
        List.subset_append_of_subset_left _
          (hsettled.entries_subset rest hseen (Nat.lt_succ_self _))
      rw [hlookup, if_pos hseen, ← hposition]
      show (g.sharedEndsAt stem names seen written).addBody head
        [first, .nonterminal (g.endPosition rest)] = _
      rw [addBody_sharedEndsAt hhead, ← sharedEndsAt_append_of_subset hknown hold,
        List.append_assoc, List.singleton_append]
    · -- the rest is new, and its row is the last one
      have hle : g.nonterminals.length ≤ g.rows.length :=
        hrows.resolve_left (List.cons_ne_nil _ _)
      have hcount : (seen ++ [rest]).eraseDups.length = seen.eraseDups.length + 1 :=
        length_eraseDups_concat hseen
      rw [List.append_cons] at hfront
      have hposition : g.endPosition rest = g.nonterminals.length + seen.eraseDups.length := by
        rw [endPosition_of_mem ((List.prefix_append _ _).trans hfront) List.mem_concat_self,
          eraseDups_concat_of_not_mem hseen, List.idxOf_append,
          if_neg (mt List.mem_eraseDups.1 hseen)]
        simp
      rw [hlookup, if_neg hseen, length_nonterminals_sharedEndsAt, ← hposition,
        addEnd_sharedEndsAt hseen hsettled.lt]
      have hfits : head < g.rows.length + (seen ++ [rest]).eraseDups.length := by omega
      show (g.sharedEndsAt stem names (seen ++ [rest]) written).addBody head
        [first, .nonterminal (g.endPosition rest)] >>= _ = _
      rw [addBody_sharedEndsAt hfits, List.append_cons seen rest (longEnds rest),
        List.append_cons written _ (binaryEntries g.endPosition (g.endPosition rest) rest)]
      exact ih (.inr hle) hfront (by omega) (hsettled.next hseen hhead _)

end

/-! ### All bodies -/

theorem map_snd_headedBodies : g.headedBodies.map Prod.snd = g.rows.flatten := by
  rw [headedBodies, List.map_flatMap]
  simp only [List.map_map, Function.comp_def, List.map_id']
  rw [List.flatMap_def, List.zipIdx_map_fst]

theorem flatMap_longEnds_headedBodies :
    (g.headedBodies.flatMap fun entry => longEnds entry.2) = g.rows.flatten.flatMap longEnds := by
  rw [← map_snd_headedBodies, List.flatMap_map]

theorem mem_sharedEnds_of_mem_headedBodies {entry : Nat × Body} (hentry : entry ∈ g.headedBodies)
    {rest : Body} (hrest : rest ∈ longEnds entry.2) : rest ∈ g.sharedEnds := by
  rw [sharedEnds, List.mem_eraseDups, ← flatMap_longEnds_headedBodies]
  exact List.mem_flatMap.2 ⟨entry, hentry, hrest⟩

section

variable {done todo : List (Nat × Body)} (hall : done ++ todo = g.headedBodies)
  (hrows : g.sharedEnds = [] ∨ g.nonterminals.length ≤ g.rows.length)
include hall hrows

/-- After whole bodies all ends are settled. -/
theorem settled_of_append (bound : Nat) :
    g.Settled (done.flatMap fun entry => longEnds entry.2)
      (done.flatMap fun entry => binaryEntries g.endPosition entry.1 entry.2) bound := by
  have hfront : (done.flatMap fun entry => longEnds entry.2) <+:
      g.rows.flatten.flatMap longEnds := by
    rw [← flatMap_longEnds_headedBodies, ← hall, List.flatMap_append]
    exact List.prefix_append _ _
  have hdone : ∀ entry ∈ done, entry ∈ g.headedBodies := fun entry hentry =>
    hall ▸ List.mem_append_left _ hentry
  refine ⟨fun entry hentry => ?_, fun rest hrest _ => ?_, fun rest hrest _ => ?_⟩
  · obtain ⟨⟨head, body⟩, hbody, hmem⟩ := List.mem_flatMap.1 hentry
    rcases List.mem_cons.1 hmem with rfl | hmem
    · obtain ⟨row, hrow, -⟩ := mem_headedBodies.1 (hdone _ hbody)
      exact Nat.lt_add_right _ (List.getElem?_eq_some_iff.1 hrow).1
    · obtain ⟨rest, hrest, rfl⟩ := List.mem_map.1 hmem
      have hshared := mem_sharedEnds_of_mem_headedBodies (hdone _ hbody) hrest
      have hle := hrows.resolve_left (List.ne_nil_of_mem hshared)
      have hseen : rest ∈ done.flatMap fun entry => longEnds entry.2 :=
        List.mem_flatMap.2 ⟨_, hbody, hrest⟩
      have hlt := List.idxOf_lt_length_of_mem (List.mem_eraseDups.2 hseen)
      rw [endPosition_of_mem hfront hseen]
      omega
  · obtain ⟨entry, hentry, hmem⟩ := List.mem_flatMap.1 hrest
    exact fun shorter hshorter => List.mem_flatMap.2 ⟨entry, hentry, longEnds_subset hmem hshorter⟩
  · obtain ⟨entry, hentry, hmem⟩ := List.mem_flatMap.1 hrest
    exact fun old hold => List.mem_flatMap.2 ⟨entry, hentry, binaryEntries_subset hmem hold⟩

/-- **All bodies are cut as if nothing were left out.** -/
theorem foldlM_cut_sharedEndsAt :
    todo.foldlM (fun s entry => s.cut stem entry.1 entry.2)
      (g.sharedEndsAt stem names (done.flatMap fun entry => longEnds entry.2)
        (done.flatMap fun entry => binaryEntries g.endPosition entry.1 entry.2)) =
      .ok (g.sharedEndsAt stem names (g.rows.flatten.flatMap longEnds) g.cutEntries) := by
  induction todo generalizing done with
  | nil =>
    rw [List.append_nil] at hall
    rw [hall, flatMap_longEnds_headedBodies]
    rfl
  | cons entry rest ih =>
    have hentry : entry ∈ g.headedBodies := hall ▸ List.mem_append_right _ List.mem_cons_self
    have hends : longEnds entry.2 = [] ∨ g.nonterminals.length ≤ g.rows.length :=
      hrows.imp_left fun hnone => List.eq_nil_iff_forall_not_mem.2 fun rest hrest =>
        List.ne_nil_of_mem (mem_sharedEnds_of_mem_headedBodies hentry hrest) hnone
    have hfront : (done.flatMap fun entry => longEnds entry.2) ++ longEnds entry.2 <+:
        g.rows.flatten.flatMap longEnds := by
      rw [← flatMap_longEnds_headedBodies, ← hall, List.flatMap_append, List.flatMap_cons]
      exact List.prefix_append_right_inj _ |>.2 (List.prefix_append _ _)
    have hhead : entry.1 < g.rows.length := by
      obtain ⟨row, hrow, -⟩ := mem_headedBodies.1 hentry
      exact (List.getElem?_eq_some_iff.1 hrow).1
    have hrest := ih (List.append_cons done entry rest ▸ hall)
    simp only [List.flatMap_append, List.flatMap_singleton] at hrest
    rw [List.foldlM_cons, cut_sharedEndsAt hends hfront (Nat.lt_add_right _ hhead)
      (settled_of_append hall hrows _)]
    exact hrest

end

end Grammar

namespace SharedEnds

variable {s : SharedEnds} {head : Nat}

/-! ### Tables with fewer rows -/

theorem addBody_eq_outOfRange (h : s.rows.length ≤ head) (body : Body) :
    s.addBody head body = outOfRange := by
  rw [addBody, replaceAt, lookUp_eq_error_iff.2 ⟨h, rfl⟩]
  rfl

/-- A rule that is written changes no length, and none of the other parts. -/
theorem addBody_cases (s : SharedEnds) (head : Nat) (body : Body) :
    s.addBody head body = outOfRange ∨
      ∃ rows, rows.length = s.rows.length ∧ s.addBody head body = .ok { s with rows } := by
  rcases Nat.lt_or_ge head s.rows.length with hlt | hge
  · refine .inr ⟨s.rows.set head (pushUnique s.rows[head] body), List.length_set, ?_⟩
    rw [addBody, replaceAt, lookUp_of_lt hlt]
    rfl
  · exact .inl (addBody_eq_outOfRange hge body)

/-- A nonterminal without a row for a new end, of which it is known that cutting the end fails. -/
theorem addEnd_eq_outOfRange {stem : String} {rest : Body}
    (hrows : s.rows.length < s.nonterminals.length)
    (hcut : ∀ after : SharedEnds, after.rows.length < after.nonterminals.length →
      s.nonterminals.length + 1 = after.nonterminals.length →
      after.cut stem s.nonterminals.length rest = outOfRange) (body : Body) :
    (do
      let after ← (s.addEnd stem rest).addBody head body
      after.cut stem s.nonterminals.length rest) = outOfRange := by
  rcases addBody_cases (s.addEnd stem rest) head body with hfault | ⟨rows, hlength, hok⟩
  · rw [hfault]
    rfl
  · have hnonterminals : (s.addEnd stem rest).nonterminals.length = s.nonterminals.length + 1 :=
      List.length_append
    have hcount : (s.addEnd stem rest).rows.length = s.rows.length + 1 := List.length_append
    rw [hok]
    refine hcut _ ?_ hnonterminals.symm
    show rows.length < (s.addEnd stem rest).nonterminals.length
    omega

/-- **A nonterminal without a row is written to** before the body is done. -/
theorem cut_eq_outOfRange {stem : String} {body : Body}
    (hrows : s.rows.length < s.nonterminals.length) (hhead : s.nonterminals.length = head + 1) :
    s.cut stem head body = outOfRange := by
  induction body generalizing s head with
  | nil => exact addBody_eq_outOfRange (by omega) _
  | cons first rest ih =>
    rw [cut]
    by_cases hlong : 2 ≤ rest.length
    · rw [if_pos hlong]
      cases s.positions.lookup rest with
      | some position => exact addBody_eq_outOfRange (by omega) _
      | none => exact addEnd_eq_outOfRange hrows (fun _ hafter heq => ih hafter heq.symm) _
    · rw [if_neg hlong]
      exact addBody_eq_outOfRange (by omega) _

/-- A body without long ends is written as it is. -/
theorem cut_of_longEnds_eq_nil {stem : String} {body : Body} (h : longEnds body = []) :
    s.cut stem head body = s.addBody head body := by
  cases body with
  | nil => rfl
  | cons first rest =>
    rcases Nat.lt_or_ge rest.length 2 with hshort | hlong
    · rw [cut, if_neg (Nat.not_le.2 hshort)]
    · rw [longEnds_cons_of_le hlong] at h
      exact nomatch h

/-- Among many bodies a nonterminal without a row is noticed at the first one that has to be cut.
Before that no end has come up, and the table keeps its length. -/
theorem foldlM_cut_eq_outOfRange {stem : String} {bodies : List (Nat × Body)}
    (hrows : s.rows.length < s.nonterminals.length) (hnone : s.positions = [])
    (h : ∃ entry ∈ bodies, longEnds entry.2 ≠ []) :
    bodies.foldlM (fun s entry => s.cut stem entry.1 entry.2) s = outOfRange := by
  induction bodies generalizing s with
  | nil =>
    obtain ⟨_, hentry, -⟩ := h
    exact nomatch hentry
  | cons entry more ih =>
    obtain ⟨head, body⟩ := entry
    rw [List.foldlM_cons]
    by_cases hends : longEnds body = []
    · obtain ⟨other, hother, hlong⟩ := h
      have hmore : other ∈ more := (List.mem_cons.1 hother).resolve_left fun heq =>
        hlong (heq ▸ hends)
      rw [cut_of_longEnds_eq_nil hends]
      rcases addBody_cases s head body with hfault | ⟨rows, hlength, hok⟩
      · rw [hfault]
        rfl
      · rw [hok]
        exact ih (hlength ▸ hrows) hnone ⟨other, hmore, hlong⟩
    · have hfault : s.cut stem head body = outOfRange := by
        cases body with
        | nil => exact absurd rfl hends
        | cons first rest =>
          rcases Nat.lt_or_ge rest.length 2 with hshort | hlong
          · exact absurd (longEnds_cons_of_lt hshort) hends
          · rw [cut, if_pos hlong, hnone]
            exact addEnd_eq_outOfRange hrows
              (fun _ hafter heq => cut_eq_outOfRange hafter heq.symm) _
      rw [hfault]
      rfl

end SharedEnds

namespace Grammar

/-- **The step in one run is the step at once:** the ends of all bodies get their nonterminals, and
then all rules are written. A grammar with fewer rows than nonterminals is a fault, unless there is
nothing to cut. This holds for every grammar. -/
theorem withBinaryBodies_eq (g : Grammar) (names : FreshNames) (config : NormalFormNames) :
    g.withBinaryBodies names config =
      if g.rows.length < g.nonterminals.length ∧ g.sharedEnds ≠ [] then outOfRange
      else
        let (added, after) := names.numberedMany config.binaryStem g.sharedEnds.length
        .ok (g.withSharedEnds added, after) := by
  by_cases h : g.rows.length < g.nonterminals.length ∧ g.sharedEnds ≠ []
  · obtain ⟨rest, hrest⟩ := List.exists_mem_of_ne_nil _ h.2
    rw [sharedEnds, List.mem_eraseDups, ← flatMap_longEnds_headedBodies] at hrest
    obtain ⟨entry, hentry, hmem⟩ := List.mem_flatMap.1 hrest
    have hfault : g.headedBodies.foldlM (fun s entry => s.cut config.binaryStem entry.1 entry.2)
        (⟨g.nonterminals, .replicate g.rows.length [], [], names⟩ : SharedEnds) = outOfRange :=
      SharedEnds.foldlM_cut_eq_outOfRange (by simpa using h.1) rfl
        ⟨entry, hentry, List.ne_nil_of_mem hmem⟩
    rw [if_pos h]
    exact congrArg (· >>= _) hfault
  · have hrows : g.sharedEnds = [] ∨ g.nonterminals.length ≤ g.rows.length :=
      (not_and_or.1 h).symm.imp not_not.1 Nat.not_lt.1
    have hstart : (⟨g.nonterminals, .replicate g.rows.length [], [], names⟩ : SharedEnds) =
        g.sharedEndsAt config.binaryStem names [] [] := by
      simp [sharedEndsAt, endPositions, tableOf, entriesAt, FreshNames.numberedMany,
        List.map_const']
    have hrun : g.headedBodies.foldlM (fun s entry => s.cut config.binaryStem entry.1 entry.2)
        (g.sharedEndsAt config.binaryStem names [] []) =
        .ok (g.sharedEndsAt config.binaryStem names (g.rows.flatten.flatMap longEnds)
          g.cutEntries) :=
      foldlM_cut_sharedEndsAt (List.nil_append g.headedBodies) hrows
    rw [if_neg h, withBinaryBodies, hstart]
    exact congrArg (· >>= _) hrun

end Grammar

end ChomskyChart
