import ChomskyChart.Production

/-!
# Positions of names

A name index answers where a name stands in a list of names. It is a snapshot: once made, it does
not follow later changes of the list. A name that is repeated stands at its last position.

## Main definitions

* `NameIndex`, `NameIndex.ofNames`: an index of a list of names
* `NameIndex.find?`: the position of a name
* `NameIndex.entries`: all names with their positions, in the order of the names

## Main results

* `NameIndex.find?_eq_some_iff`: the position found is the last one
* `NameIndex.find?_isSome_iff`: every listed name is found, and no other
-/

namespace ChomskyChart

/-- The names as they were listed when the index was made. -/
structure NameIndex where
  names : List String
deriving DecidableEq, Repr, Inhabited

namespace NameIndex

/-- The index of a list of names. -/
def ofNames (names : List String) : NameIndex :=
  ⟨names⟩

/-- The last position of `name` in a list whose first entry has position `offset`. -/
def lastPosition (name : String) : (offset : Nat) → List String → Option Nat
  | _, [] => none
  | offset, first :: rest =>
    match lastPosition name (offset + 1) rest with
    | some i => some i
    | none => if first = name then some offset else none

/-- The position of a name. -/
def find? (index : NameIndex) (name : String) : Option Nat :=
  lastPosition name 0 index.names

/-- The names with their positions, in ascending order of the names. -/
def entries (index : NameIndex) : List (String × Nat) :=
  (sortNames index.names).filterMap fun name => (index.find? name).map fun i => (name, i)

/-! ### What is found -/

theorem lastPosition_eq_none_iff {name : String} {offset : Nat} {names : List String} :
    lastPosition name offset names = none ↔ name ∉ names := by
  induction names generalizing offset with
  | nil => simp [lastPosition]
  | cons first rest ih =>
    have hrest := @ih (offset + 1)
    rw [lastPosition, List.mem_cons, not_or]
    cases h : lastPosition name (offset + 1) rest with
    | none => simp [hrest.1 h, eq_comm]
    | some i =>
      rw [h] at hrest
      simpa using fun _ => Classical.not_not.1 fun hm => nomatch hrest.2 hm

theorem lastPosition_eq_some_iff {name : String} {offset i : Nat} {names : List String} :
    lastPosition name offset names = some i ↔
      offset ≤ i ∧ names[i - offset]? = some name ∧
        ∀ j, i < j → names[j - offset]? ≠ some name := by
  induction names generalizing offset i with
  | nil => simp [lastPosition]
  | cons first rest ih =>
    have shift : ∀ j, offset < j → (first :: rest)[j - offset]? = rest[j - (offset + 1)]? := by
      intro j hj
      rw [show j - offset = j - (offset + 1) + 1 by omega, List.getElem?_cons_succ]
    rw [lastPosition]
    cases h : lastPosition name (offset + 1) rest with
    | some k =>
      obtain ⟨hk, hat, hlast⟩ := ih.1 h
      constructor
      · rintro ⟨⟩
        exact ⟨by omega, by rw [shift _ (by omega)]; exact hat,
          fun j hj => by rw [shift j (by omega)]; exact hlast j hj⟩
      · rintro ⟨hi, hat', hlast'⟩
        rcases Nat.lt_trichotomy k i with hlt | heq | hgt
        · exact absurd (shift i (by omega) ▸ hat') (hlast i hlt)
        · rw [heq]
        · exact absurd ((shift k (by omega)).trans hat) (hlast' k hgt)
    | none =>
      have hrest : ∀ j, rest[j]? ≠ some name := fun j hj =>
        lastPosition_eq_none_iff.1 h (List.mem_of_getElem? hj)
      constructor
      · intro hi
        by_cases hf : first = name
        · obtain rfl : offset = i := by simpa [hf] using hi
          exact ⟨Nat.le_refl _, by simp [hf], fun j hj => by rw [shift j hj]; exact hrest _⟩
        · simp [hf] at hi
      · rintro ⟨hi, hat, _⟩
        rcases Nat.lt_or_ge offset i with hlt | hge
        · exact absurd (shift i hlt ▸ hat) (hrest _)
        · obtain rfl : i = offset := by omega
          simp_all

theorem find?_eq_some_iff {index : NameIndex} {name : String} {i : Nat} :
    index.find? name = some i ↔
      index.names[i]? = some name ∧ ∀ j, i < j → index.names[j]? ≠ some name := by
  simp [find?, lastPosition_eq_some_iff]

theorem find?_eq_none_iff {index : NameIndex} {name : String} :
    index.find? name = none ↔ name ∉ index.names :=
  lastPosition_eq_none_iff

theorem find?_isSome_iff {index : NameIndex} {name : String} :
    (index.find? name).isSome = true ↔ name ∈ index.names := by
  cases h : index.find? name with
  | none => simpa using find?_eq_none_iff.1 h
  | some i => simpa using List.mem_of_getElem? (find?_eq_some_iff.1 h).1

end NameIndex

end ChomskyChart
