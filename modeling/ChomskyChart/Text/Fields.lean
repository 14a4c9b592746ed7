import ChomskyChart.Text.Blank

/-!
# Cutting text into fields

A text is cut at separator characters into fields, and a text without separators is one field, so
the empty text has one empty field. Words are the fields between blanks, less the empty ones.

## Main definitions

* `Text.fields`: the fields between the separators
* `Text.words`: the fields between blanks that are not empty
* `Text.splitArrow`: the two sides of the first arrow `->`

## Main results

* `Text.splitArrow_eq_some`: the two sides and the arrow make up the text
-/

namespace ChomskyChart

namespace Text

/-! ### Fields between separators -/

/-- The maximal runs of characters that are no separators, empty runs included. -/
def fields (sep : Char → Bool) : List Char → List (List Char)
  | [] => [[]]
  | c :: rest =>
    if sep c then [] :: fields sep rest
    else
      match fields sep rest with
      | [] => [[c]]
      | field :: more => (c :: field) :: more

theorem fields_ne_nil (sep : Char → Bool) (s : List Char) : fields sep s ≠ [] := by
  cases s with
  | nil => simp [fields]
  | cons c rest => rw [fields]; repeat' split <;> simp

/-- The words of a text: what stands between blanks. -/
def words (s : List Char) : List (List Char) :=
  (fields isBlank s).filter fun field => !field.isEmpty

/-! ### The first arrow -/

/-- What stands before and after the first `->`; `none` if there is no arrow. -/
def splitArrow : List Char → Option (List Char × List Char)
  | [] => none
  | '-' :: '>' :: rest => some ([], rest)
  | c :: rest => (splitArrow rest).map fun sides => (c :: sides.1, sides.2)

theorem splitArrow_eq_some {s before after : List Char} (h : splitArrow s = some (before, after)) :
    s = before ++ '-' :: '>' :: after := by
  fun_induction splitArrow s generalizing before with
  | case1 => simp at h
  | case2 rest => simp_all
  | case3 c rest _ ih =>
    obtain ⟨⟨b, a⟩, hsides, heq⟩ := Option.map_eq_some_iff.1 h
    obtain ⟨rfl, rfl⟩ := Prod.mk.inj heq
    simpa using ih hsides

end Text

end ChomskyChart
