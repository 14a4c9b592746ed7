import ChomskyChart.Grammar.Basic

/-!
# Tables filled entry by entry

A table of bodies is often given as a sequence of entries, each a row and a body that goes to its
end. A row keeps one copy of each body, so an entry whose body is already in its row changes
nothing. What a row holds in the end therefore depends only on its own entries, and in the order of
their first occurrence.

## Main definitions

* `pushUnique`: a row with one more body
* `tableOf`: the table with a given number of rows that a sequence of entries fills

## Main results

* `Grammar.entriesAt_headedBodies`: the bodies of a grammar are the entries that fill its rows
* `length_tableOf`, `getElem?_tableOf`: the rows of a filled table
* `nodup_of_mem_tableOf`: no row repeats a body
* `replaceAt_tableOf`, `tableOf_append_of_subset`: one more entry, and entries that are there
  already
-/

namespace ChomskyChart

/-- The row with a body at its end, if it does not have that body yet. -/
def pushUnique (row : Row) (body : Body) : Row :=
  if body ∈ row then row else row ++ [body]

/-- The bodies that the entries bring to row `i`, in order. -/
def entriesAt (entries : List (Nat × Body)) (i : Nat) : Row :=
  entries.filterMap fun entry => if entry.1 = i then some entry.2 else none

/-- The table with `count` rows that the entries fill one by one. Entries for rows that the table
does not have are left out. -/
def tableOf (count : Nat) (entries : List (Nat × Body)) : List Row :=
  (List.range count).map fun i => (entriesAt entries i).eraseDups

theorem entriesAt_cons {entry : Nat × Body} {rest : List (Nat × Body)} {i : Nat} :
    entriesAt (entry :: rest) i =
      if entry.1 = i then entry.2 :: entriesAt rest i else entriesAt rest i := by
  by_cases h : entry.1 = i <;> simp [entriesAt, h]

theorem entriesAt_append {front back : List (Nat × Body)} {i : Nat} :
    entriesAt (front ++ back) i = entriesAt front i ++ entriesAt back i :=
  List.filterMap_append

theorem entriesAt_map_mk {row : Row} {head i : Nat} :
    entriesAt (row.map fun body => (head, body)) i = if head = i then row else [] := by
  rw [entriesAt, List.filterMap_map]
  by_cases h : head = i
  · have hkeep : ((fun entry : Nat × Body => if entry.1 = i then some entry.2 else none) ∘
        fun body => (head, body)) = some := funext fun _ => if_pos h
    rw [if_pos h, hkeep, List.filterMap_some]
  · rw [if_neg h]
    exact List.filterMap_eq_nil_iff.2 fun body _ => if_neg h

/-- The bodies of a grammar, each headed by its nonterminal, are the entries of its rows. -/
theorem Grammar.entriesAt_headedBodies (g : Grammar) (i : Nat) :
    entriesAt g.headedBodies i = g.rows[i]?.getD [] := by
  have hfrom : ∀ (rows : List Row) (first : Nat),
      entriesAt ((rows.zipIdx first).flatMap fun entry =>
        entry.1.map fun body => (entry.2, body)) i =
        if first ≤ i then rows[i - first]?.getD [] else [] := by
    intro rows
    induction rows with
    | nil => simp [entriesAt]
    | cons head rest ih =>
      intro first
      rw [List.zipIdx_cons, List.flatMap_cons, entriesAt_append, entriesAt_map_mk, ih]
      rcases Nat.lt_trichotomy first i with hlt | rfl | hgt
      · have hsub : i - first = i - (first + 1) + 1 := by omega
        rw [if_neg (Nat.ne_of_lt hlt), if_pos (Nat.succ_le_of_lt hlt), if_pos (Nat.le_of_lt hlt),
          hsub, List.getElem?_cons_succ, List.nil_append]
      · rw [if_pos rfl, if_neg (Nat.not_succ_le_self first), if_pos (Nat.le_refl first),
          List.append_nil, Nat.sub_self]
        rfl
      · rw [if_neg (Nat.ne_of_gt hgt), if_neg (by omega), if_neg (by omega), List.nil_append]
  exact (hfrom g.rows 0).trans (by simp)

@[simp] theorem length_tableOf (count : Nat) (entries : List (Nat × Body)) :
    (tableOf count entries).length = count := by
  simp [tableOf]

theorem getElem?_tableOf {count i : Nat} {entries : List (Nat × Body)} (h : i < count) :
    (tableOf count entries)[i]? = some (entriesAt entries i).eraseDups := by
  simp [tableOf, h]

/-! ### Repetitions -/

section

variable {α : Type} [BEq α] [LawfulBEq α] {front back : List α} {x : α}

theorem eraseDups_append_of_subset (h : back ⊆ front) :
    (front ++ back).eraseDups = front.eraseDups := by
  have hnone : back.removeAll front = [] :=
    List.filter_eq_nil_iff.2 fun y hy => by simpa using h hy
  rw [List.eraseDups_append, hnone, List.eraseDups_nil, List.append_nil]

theorem eraseDups_concat_of_not_mem (h : x ∉ front) :
    (front ++ [x]).eraseDups = front.eraseDups ++ [x] := by
  have hall : [x].removeAll front = [x] :=
    List.filter_eq_self.2 fun y hy => by simpa [List.mem_singleton.1 hy] using h
  rw [List.eraseDups_append, hall, List.eraseDups_cons, List.filter_nil, List.eraseDups_nil]

/-- What follows later has no influence on the places of the first occurrences. -/
theorem idxOf_eraseDups_append (h : x ∈ front) :
    (front ++ back).eraseDups.idxOf x = front.eraseDups.idxOf x := by
  rw [List.eraseDups_append, List.idxOf_append, if_pos (List.mem_eraseDups.2 h)]

end

theorem nodup_eraseDups {α : Type} [BEq α] [LawfulBEq α] (xs : List α) : xs.eraseDups.Nodup := by
  induction h : xs.length using Nat.strongRecOn generalizing xs with
  | ind n ih =>
    cases xs with
    | nil => simp
    | cons x rest =>
      rw [List.eraseDups_cons, List.nodup_cons]
      have hlen : (rest.filter fun b => !b == x).length < n := by
        have := List.length_filter_le (fun b => !b == x) rest
        simp only [List.length_cons] at h
        omega
      exact ⟨by simp [List.mem_eraseDups], ih _ hlen _ rfl⟩

theorem nodup_of_mem_tableOf {count : Nat} {entries : List (Nat × Body)} {row : Row}
    (h : row ∈ tableOf count entries) : row.Nodup := by
  obtain ⟨i, -, rfl⟩ := List.mem_map.1 h
  exact nodup_eraseDups _

/-! ### More entries -/

theorem pushUnique_eraseDups (row : Row) (body : Body) :
    pushUnique row.eraseDups body = (row ++ [body]).eraseDups := by
  by_cases h : body ∈ row
  · rw [pushUnique, if_pos (List.mem_eraseDups.2 h),
      eraseDups_append_of_subset (by simpa using h)]
  · rw [pushUnique, if_neg (mt List.mem_eraseDups.1 h), eraseDups_concat_of_not_mem h]

/-- **Writing one more body** is one more entry, if the table has the row. -/
theorem replaceAt_tableOf (count : Nat) (entries : List (Nat × Body)) (i : Nat) (body : Body) :
    replaceAt (tableOf count entries) i (fun row => pushUnique row body) =
      if i < count then .ok (tableOf count (entries ++ [(i, body)])) else outOfRange := by
  rcases Nat.lt_or_ge i count with hlt | hge
  · rw [if_pos hlt, replaceAt, lookUp_eq_ok_iff.2 (getElem?_tableOf hlt)]
    refine congrArg Except.ok (List.ext_getElem? fun j => ?_)
    rw [pushUnique_eraseDups, List.getElem?_set, length_tableOf, if_pos hlt]
    rcases Nat.lt_or_ge j count with hj | hj
    · rw [getElem?_tableOf hj, getElem?_tableOf hj, entriesAt_append, entriesAt_cons]
      by_cases heq : i = j
      · subst heq
        simp [entriesAt]
      · simp [entriesAt, heq]
    · have hne : i ≠ j := Nat.ne_of_lt (Nat.lt_of_lt_of_le hlt hj)
      have hnone : ∀ es, (tableOf count es)[j]? = none := fun es =>
        List.getElem?_eq_none (by simpa using hj)
      rw [if_neg hne, hnone, hnone]
  · have hnone : lookUp (tableOf count entries) i = outOfRange :=
      lookUp_eq_error_iff.2 ⟨by simpa using hge, rfl⟩
    rw [if_neg (Nat.not_lt.2 hge), replaceAt, hnone]
    rfl

/-- Entries that are there already change nothing. -/
theorem tableOf_append_of_subset (count : Nat) {entries more : List (Nat × Body)}
    (h : more ⊆ entries) : tableOf count (entries ++ more) = tableOf count entries := by
  refine List.map_congr_left fun i _ => ?_
  rw [entriesAt_append]
  refine eraseDups_append_of_subset fun body hbody => ?_
  obtain ⟨entry, hentry, heq⟩ := List.mem_filterMap.1 hbody
  exact List.mem_filterMap.2 ⟨entry, h hentry, heq⟩

/-- A further row at the end is empty if no entry is for it. -/
theorem tableOf_succ {count : Nat} {entries : List (Nat × Body)}
    (h : ∀ entry ∈ entries, entry.1 ≠ count) :
    tableOf (count + 1) entries = tableOf count entries ++ [[]] := by
  have hnone : entriesAt entries count = [] :=
    List.filterMap_eq_nil_iff.2 fun entry hentry => if_neg (h entry hentry)
  rw [tableOf, List.range_succ, List.map_append, ← tableOf]
  simp [hnone]

end ChomskyChart
