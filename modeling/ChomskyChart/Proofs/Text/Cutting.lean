import Mathlib.Data.List.DropRight
import Mathlib.Data.List.Induction
import ChomskyChart.Text.Fields

/-!
# Cutting what was put together

A text that is put together from fields and separators is cut into the same fields again, as long as
no field holds a separator. Blanks are a special case: there may be any number of them between two
words, so what is cut are the words and not the fields. An arrow is cut at its first place, so what
stands before it must not hold one.

## Main results

* `fields_append_cons`, `fields_intercalate`: fields between separators
* `words_append_cons`, `words_append`, `words_rdropWhile`: words between blanks
* `splitArrow_eq_none`, `splitArrow_append`: the text before an arrow
* `trim_append_cons`, `rdropWhile_append_cons`: blanks at the ends of a text
-/

namespace ChomskyChart

namespace Text

variable {sep : Char → Bool} {s t blanks word : List Char} {c : Char}

/-! ### Fields -/

theorem fields_of_forall_not_sep (hs : ∀ d ∈ s, sep d = false) : fields sep s = [s] := by
  induction s with
  | nil => rfl
  | cons d rest ih =>
    obtain ⟨hd, hrest⟩ := List.forall_mem_cons.1 hs
    rw [fields, if_neg (by simp [hd]), ih hrest]

/-- **A separator cuts the text in two,** and each side is cut by itself. -/
theorem fields_append_cons (hc : sep c = true) :
    fields sep (s ++ c :: t) = fields sep s ++ fields sep t := by
  induction s with
  | nil =>
    show fields sep (c :: t) = [] :: fields sep t
    rw [fields, if_pos hc]
  | cons d rest ih =>
    rw [List.cons_append, fields, fields, ih]
    by_cases hd : sep d = true
    · rw [if_pos hd, if_pos hd, List.cons_append]
    · rw [if_neg hd, if_neg hd]
      cases hrest : fields sep rest with
      | nil => exact absurd hrest (fields_ne_nil sep rest)
      | cons field more => rfl

/-- **Fields that are joined are cut again.** -/
theorem fields_intercalate {lines : List (List Char)} (hne : lines ≠ [])
    (hlines : ∀ line ∈ lines, c ∉ line) :
    fields (· == c) (List.intercalate [c] lines) = lines := by
  have hfield : ∀ line ∈ lines, fields (· == c) line = [line] := fun line hline =>
    fields_of_forall_not_sep fun d hd =>
      beq_eq_false_iff_ne.2 fun heq => hlines line hline (heq ▸ hd)
  have hcut : ∀ line text, fields (· == c) (line ++ c :: text) =
      fields (· == c) line ++ fields (· == c) text := fun _ _ =>
    fields_append_cons (beq_self_eq_true c)
  clear hlines
  induction lines with
  | nil => exact absurd rfl hne
  | cons line rest ih =>
    obtain ⟨hline, hrest⟩ := List.forall_mem_cons.1 hfield
    cases rest with
    | nil => rw [List.intercalate_singleton, hline]
    | cons next more =>
      rw [List.intercalate_cons_cons, List.append_assoc, List.singleton_append,
        hcut, hline, ih (List.cons_ne_nil _ _) hrest, List.singleton_append]

/-! ### Words -/

/-- A blank cuts the text in two. -/
theorem words_append_cons (hc : isBlank c = true) : words (s ++ c :: t) = words s ++ words t := by
  rw [words, fields_append_cons hc, List.filter_append, words, words]

theorem words_blank_append (hblanks : ∀ d ∈ blanks, isBlank d = true) :
    words (blanks ++ t) = words t := by
  induction blanks with
  | nil => rfl
  | cons d rest ih =>
    obtain ⟨hd, hrest⟩ := List.forall_mem_cons.1 hblanks
    rw [List.cons_append, ← ih hrest]
    exact words_append_cons (s := []) hd

theorem words_of_forall_blank (hblanks : ∀ d ∈ blanks, isBlank d = true) : words blanks = [] := by
  rw [← List.append_nil blanks, words_blank_append hblanks]
  rfl

theorem words_append_blank (hblanks : ∀ d ∈ blanks, isBlank d = true) :
    words (s ++ blanks) = words s := by
  cases blanks with
  | nil => rw [List.append_nil]
  | cons d rest =>
    obtain ⟨hd, hrest⟩ := List.forall_mem_cons.1 hblanks
    rw [words_append_cons hd, words_of_forall_blank hrest, List.append_nil]

theorem words_rdropWhile : words (s.rdropWhile isBlank) = words s := by
  conv_rhs => rw [← List.rdropWhile_append_rtakeWhile (p := isBlank) (l := s)]
  exact (words_append_blank fun _ => List.mem_rtakeWhile_imp).symm

theorem words_of_word (hne : word ≠ []) (hword : ∀ d ∈ word, isBlank d = false) :
    words word = [word] := by
  rw [words, fields_of_forall_not_sep hword]
  exact List.filter_cons_of_pos (by simpa using hne)

/-- **A word ends where a blank follows,** or at the end of the text. -/
theorem words_append (hne : word ≠ []) (hword : ∀ d ∈ word, isBlank d = false)
    (hnext : ∀ d ∈ t.head?, isBlank d = true) : words (word ++ t) = word :: words t := by
  have hwords := words_of_word hne hword
  cases t with
  | nil =>
    rw [List.append_nil, hwords]
    rfl
  | cons d rest =>
    have hd : isBlank d = true := hnext d rfl
    have hrest : words (d :: rest) = words rest := words_append_cons (s := []) hd
    rw [words_append_cons hd, hwords, hrest, List.singleton_append]

/-! ### The first arrow -/

theorem splitArrow_eq_none (hs : ¬['-', '>'] <:+: s) : splitArrow s = none := by
  refine Option.eq_none_iff_forall_ne_some.2 fun sides hsides => hs ?_
  rw [splitArrow_eq_some hsides]
  exact ⟨sides.1, sides.2, by simp⟩

/-- **What holds no arrow stands before the first arrow,** if it does not make one with what comes
after it. -/
theorem splitArrow_append (hs : splitArrow s = none) (ht : t.head? ≠ some '>') :
    splitArrow (s ++ t) = (splitArrow t).map fun sides => (s ++ sides.1, sides.2) := by
  fun_induction splitArrow s with
  | case1 => simp
  | case2 rest => simp at hs
  | case3 c rest hne ih =>
    have hrest : splitArrow rest = none := by simpa using hs
    have hnext : ∀ more, c = '-' → rest ++ t = '>' :: more → False := by
      intro more hc hmore
      cases rest with
      | nil => exact ht (by rw [← List.nil_append t, hmore]; rfl)
      | cons d rest => exact hne rest hc (by rw [(List.cons.inj hmore).1])
    rw [List.cons_append, splitArrow, ih hrest, Option.map_map]
    · rfl
    · exact hnext

/-! ### Blanks at the ends -/

/-- What is dropped from the end stands after every character that is kept. -/
theorem rdropWhile_append_cons {p : Char → Bool} (hc : p c = false) :
    (s ++ c :: t).rdropWhile p = s ++ c :: t.rdropWhile p := by
  induction t using List.reverseRecOn with
  | nil => exact List.rdropWhile_concat_neg p s c (by simp [hc])
  | append_singleton t d ih =>
    rw [← List.cons_append, ← List.append_assoc, List.rdropWhile_concat, List.rdropWhile_concat, ih]
    split <;> simp

theorem trim_of_forall_blank (hblanks : ∀ d ∈ blanks, isBlank d = true) : trim blanks = [] := by
  rw [trim, List.dropWhile_eq_nil_iff.2 hblanks]
  rfl

/-- Blanks before the first other character are dropped, and so are the blanks at the end. -/
theorem trim_append_cons (hblanks : ∀ d ∈ blanks, isBlank d = true) (hc : isBlank c = false) :
    trim (blanks ++ c :: t) = c :: t.rdropWhile isBlank := by
  rw [trim, List.dropWhile_append_of_pos hblanks, List.dropWhile_cons_of_neg (by simp [hc])]
  exact rdropWhile_append_cons (s := []) hc

/-- Blanks after a word are dropped. -/
theorem trim_word_append (hword : ∀ d ∈ word, isBlank d = false)
    (hblanks : ∀ d ∈ blanks, isBlank d = true) : trim (word ++ blanks) = word := by
  have hback : ∀ d ∈ blanks.reverse, isBlank d = true := fun d hd =>
    hblanks d (List.mem_reverse.1 hd)
  have hkept : ∀ w : List Char, (∀ d ∈ w, isBlank d = false) → w.dropWhile isBlank = w := by
    intro w hw
    cases w with
    | nil => rfl
    | cons d rest => exact List.dropWhile_cons_of_neg (by simp [hw d List.mem_cons_self])
  cases word with
  | nil => exact trim_of_forall_blank hblanks
  | cons c rest =>
    rw [trim, List.cons_append, List.dropWhile_cons_of_neg (by simp [hword c List.mem_cons_self]),
      ← List.cons_append, List.reverse_append, List.dropWhile_append_of_pos hback,
      hkept _ fun d hd => hword d (List.mem_reverse.1 hd), List.reverse_reverse]

end Text

end ChomskyChart
