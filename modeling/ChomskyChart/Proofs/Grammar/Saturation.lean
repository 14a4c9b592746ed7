import Mathlib.Data.List.Count
import Mathlib.Data.List.Nodup
import ChomskyChart.Grammar.Saturation
import ChomskyChart.Proofs.Language.Reading

/-!
# The counters find the least set

A body in play waits for those of its nonterminals that are not yet *credited*, where a nonterminal
is credited once it is found and off the stack. This one equation, for the rows that are not found,
is what a credit, a find and a pop all keep. It makes the counters positive where they are counted
down, so that no credit faults, and at the end, when the stack is empty, it says that a body of a
row that is not found still waits for a nonterminal that is not found.

While the finds of one nonterminal are credited, some of its uses are still to come. The equation
therefore carries the list of these.

## Main definitions

* `Grammar.Saturated`: the least set, by its rules
* `Grammar.BodyAt`: the body at a place of a row
* `Tally.Accurate`: the invariant

## Main results

* `Tally.Accurate.credit`, `Tally.Accurate.foldlM_credit`, `Tally.Accurate.pop`: what keeps it
* `exists_saturate`: the computation ends without a fault and finds the least set
-/

namespace ChomskyChart

namespace Grammar

/-- The nonterminal has a body in play whose nonterminals are all in the set. -/
inductive Saturated (g : Grammar) (outOfPlay : Body → Bool) : Nat → Prop where
  | of_hasRule {head : Nat} {body : Body} (hrule : g.HasRule head body)
      (hplay : outOfPlay body = false)
      (hall : ∀ index, .nonterminal index ∈ body → Saturated g outOfPlay index) :
      Saturated g outOfPlay head

/-- Row `head` has the body at a place. -/
def BodyAt (g : Grammar) (head place : Nat) (body : Body) : Prop :=
  ∃ row, g.rows[head]? = some row ∧ row[place]? = some body

theorem BodyAt.hasRule {g : Grammar} {head place : Nat} {body : Body}
    (h : g.BodyAt head place body) : g.HasRule head body := by
  obtain ⟨row, hrow, hbody⟩ := h
  exact ⟨row, hrow, List.mem_of_getElem? hbody⟩

theorem HasRule.exists_bodyAt {g : Grammar} {head : Nat} {body : Body}
    (h : g.HasRule head body) : ∃ place, g.BodyAt head place body := by
  obtain ⟨row, hrow, hbody⟩ := h
  obtain ⟨place, hplace⟩ := List.getElem?_of_mem hbody
  exact ⟨place, row, hrow, hplace⟩

theorem BodyAt.eq {g : Grammar} {head place : Nat} {body body' : Body}
    (h : g.BodyAt head place body) (h' : g.BodyAt head place body') : body = body' := by
  obtain ⟨row, hrow, hbody⟩ := h
  obtain ⟨row', hrow', hbody'⟩ := h'
  obtain rfl : row = row' := Option.some.inj (hrow.symm.trans hrow')
  exact Option.some.inj (hbody.symm.trans hbody')

end Grammar

theorem mem_nonterminalsIn_iff {body : Body} {index : Nat} :
    index ∈ nonterminalsIn body ↔ .nonterminal index ∈ body := by
  rw [nonterminalsIn, List.mem_filterMap]
  constructor
  · rintro ⟨s, hs, heq⟩
    cases s with
    | terminal i => exact nomatch heq
    | nonterminal i => exact Option.some.inj heq ▸ hs
  · intro h
    exact ⟨_, h, rfl⟩

theorem getElem?_set_true_iff {flags : List Bool} {i j : Nat} (hi : i < flags.length) :
    (flags.set i true)[j]? = some true ↔ j = i ∨ flags[j]? = some true := by
  by_cases hj : j = i
  · simp [hj, hi]
  · simp [hj, List.getElem?_set_ne (Ne.symm hj)]

/-! ### Uses -/

/-- Only the entry at one position contributes to the count, and it is counted there. -/
theorem count_flatMap_zipIdx {α β : Type} [BEq β] [LawfulBEq β] {F : α × Nat → List β} {x : β}
    {position : Nat} (hF : ∀ entry, x ∈ F entry → entry.2 = position) (xs : List α)
    (offset : Nat) (hoffset : offset ≤ position) :
    ((xs.zipIdx offset).flatMap F).count x =
      (xs[position - offset]?.map fun a => (F (a, position)).count x).getD 0 := by
  induction xs generalizing offset with
  | nil => simp
  | cons a rest ih =>
    rw [List.zipIdx_cons, List.flatMap_cons, List.count_append]
    rcases Nat.eq_or_lt_of_le hoffset with rfl | hlt
    · have hrest : ((rest.zipIdx (offset + 1)).flatMap F).count x = 0 := by
        refine List.count_eq_zero.2 fun hmem => ?_
        obtain ⟨entry, hentry, hx⟩ := List.mem_flatMap.1 hmem
        have := (List.mem_zipIdx hentry).1
        have := hF entry hx
        omega
      simp [hrest]
    · have hfirst : (F (a, offset)).count x = 0 :=
        List.count_eq_zero.2 fun hx => Nat.ne_of_lt hlt (hF _ hx)
      rw [hfirst, Nat.zero_add, ih (offset + 1) hlt,
        show position - offset = position - (offset + 1) + 1 by omega, List.getElem?_cons_succ]

namespace Grammar

variable {g : Grammar} {outOfPlay : Body → Bool}

theorem mem_uses_iff {index head place : Nat} :
    (index, head, place) ∈ g.uses outOfPlay ↔
      ∃ body, g.BodyAt head place body ∧ outOfPlay body = false ∧
        .nonterminal index ∈ body := by
  simp only [uses, List.mem_flatMap, Prod.exists, List.mem_zipIdx_iff_getElem?]
  constructor
  · rintro ⟨row, i, hrow, body, p, hbody, hmem⟩
    split at hmem
    · exact nomatch hmem
    · rename_i hplay
      obtain ⟨j, hj, heq⟩ := List.mem_map.1 hmem
      obtain ⟨rfl, rfl, rfl⟩ : j = index ∧ i = head ∧ p = place := by simpa using heq
      exact ⟨body, ⟨row, hrow, hbody⟩, by simpa using hplay, mem_nonterminalsIn_iff.1 hj⟩
  · rintro ⟨body, ⟨row, hrow, hbody⟩, hplay, hmem⟩
    refine ⟨row, head, hrow, body, place, hbody, ?_⟩
    rw [hplay, if_neg Bool.false_ne_true]
    exact List.mem_map.2 ⟨index, mem_nonterminalsIn_iff.2 hmem, rfl⟩

/-- A nonterminal is used by a body in play as often as it occurs in it. -/
theorem count_uses {index head place : Nat} {body : Body} (hbody : g.BodyAt head place body)
    (hplay : outOfPlay body = false) :
    (g.uses outOfPlay).count (index, head, place) = (nonterminalsIn body).count index := by
  obtain ⟨row, hrow, hplace⟩ := hbody
  have hinjective : Function.Injective fun i : Nat => (i, head, place) :=
    fun _ _ heq => (Prod.mk.inj heq).1
  rw [uses, count_flatMap_zipIdx ?_ g.rows 0 (Nat.zero_le head), Nat.sub_zero, hrow]
  · show List.count (index, head, place) (row.zipIdx.flatMap _) = _
    rw [count_flatMap_zipIdx ?_ row 0 (Nat.zero_le place), Nat.sub_zero, hplace]
    · show List.count (index, head, place) (if outOfPlay body then [] else _) = _
      rw [hplay, if_neg Bool.false_ne_true]
      exact List.count_map_of_injective _ _ hinjective index
    · rintro ⟨b, p⟩ hmem
      dsimp only at hmem
      split at hmem
      · exact nomatch hmem
      · obtain ⟨j, -, heq⟩ := List.mem_map.1 hmem
        exact (Prod.mk.inj (Prod.mk.inj heq).2).2
  · rintro ⟨r, i⟩ hmem
    obtain ⟨⟨b, p⟩, -, hmem⟩ := List.mem_flatMap.1 hmem
    dsimp only at hmem
    split at hmem
    · exact nomatch hmem
    · obtain ⟨j, -, heq⟩ := List.mem_map.1 hmem
      exact (Prod.mk.inj (Prod.mk.inj heq).2).1

/-- The uses of one nonterminal. -/
def usesOf (g : Grammar) (outOfPlay : Body → Bool) (index : Nat) : List (Nat × Nat) :=
  (g.uses outOfPlay).filterMap fun use => if use.1 = index then some use.2 else none

theorem lookUp_usesByRow {index : Nat} (h : index < g.rows.length) :
    lookUp (g.usesByRow outOfPlay) index = .ok (g.usesOf outOfPlay index) := by
  rw [lookUp_eq_ok_iff, usesByRow, List.getElem?_map, List.getElem?_range h]
  rfl

theorem mem_usesOf_iff {index head place : Nat} :
    (head, place) ∈ g.usesOf outOfPlay index ↔ (index, head, place) ∈ g.uses outOfPlay := by
  rw [usesOf, List.mem_filterMap]
  constructor
  · rintro ⟨⟨i, use⟩, hmem, heq⟩
    obtain ⟨rfl, rfl⟩ : i = index ∧ use = (head, place) := by simpa using heq
    exact hmem
  · intro hmem
    exact ⟨_, hmem, if_pos rfl⟩

theorem count_usesOf {index head place : Nat} {body : Body} (hbody : g.BodyAt head place body)
    (hplay : outOfPlay body = false) :
    (g.usesOf outOfPlay index).count (head, place) = (nonterminalsIn body).count index := by
  rw [← count_uses hbody hplay, usesOf, List.count_filterMap, List.count_eq_countP]
  refine List.countP_congr fun use _ => ?_
  obtain ⟨i, h, p⟩ := use
  by_cases hi : i = index <;> simp [hi]

end Grammar

/-! ### The invariant -/

namespace Tally

variable {g : Grammar} {outOfPlay : Body → Bool} {t : Tally}

/-- The nonterminal is found, and its finds have been passed on. -/
def credited (t : Tally) (index : Nat) : Bool :=
  decide (t.found[index]? = some true ∧ index ∉ t.stack)

/-- How many occurrences of nonterminals in the body are not credited. -/
def missing (t : Tally) (body : Body) : Nat :=
  (nonterminalsIn body).countP fun index => !t.credited index

/-- The counter of the body at a place of a row. -/
def counter? (t : Tally) (head place : Nat) : Option (Option Nat) :=
  t.waiting[head]?.bind fun counters => counters[place]?

/-- The state tells the truth, while the uses in `todo` are still to be credited. -/
structure Accurate (t : Tally) (g : Grammar) (outOfPlay : Body → Bool)
    (todo : List (Nat × Nat)) : Prop where
  length_found : t.found.length = g.rows.length
  saturated_of_found : ∀ index, t.found[index]? = some true → g.Saturated outOfPlay index
  found_of_mem_stack : ∀ index ∈ t.stack, t.found[index]? = some true
  nodup_stack : t.stack.Nodup
  bodyAt_of_mem_todo : ∀ use ∈ todo, ∃ body, g.BodyAt use.1 use.2 body ∧ outOfPlay body = false
  /-- Bodies in play of rows that are not found wait for what is missing, and for something. -/
  counter?_eq : ∀ head place body, g.BodyAt head place body → outOfPlay body = false →
    t.found[head]? = some false → ∃ left, t.counter? head place = some (some (left + 1)) ∧
      left + 1 = t.missing body + todo.count (head, place)

/-- A body of a row that is not found misses nothing only while uses are to be credited. -/
theorem Accurate.missing_pos (h : t.Accurate g outOfPlay []) {head place : Nat} {body : Body}
    (hbody : g.BodyAt head place body) (hplay : outOfPlay body = false)
    (hfound : t.found[head]? = some false) : 0 < t.missing body := by
  obtain ⟨left, -, hleft⟩ := h.counter?_eq head place body hbody hplay hfound
  rw [List.count_nil] at hleft
  omega

theorem missing_eq_zero_iff {body : Body} :
    t.missing body = 0 ↔ ∀ index, .nonterminal index ∈ body → t.credited index = true := by
  rw [missing, List.countP_eq_zero]
  constructor
  · intro h index hmem
    simpa using h index (mem_nonterminalsIn_iff.2 hmem)
  · intro h index hmem
    simpa using h index (mem_nonterminalsIn_iff.1 hmem)

theorem found_of_credited {index : Nat} (h : t.credited index = true) :
    t.found[index]? = some true :=
  (of_decide_eq_true h).1

/-- Crediting a row that is found changes nothing, as its counters do not matter any more. -/
private theorem Accurate.credit_found {use : Nat × Nat} {todo : List (Nat × Nat)}
    (h : t.Accurate g outOfPlay (use :: todo)) (hfound : t.found[use.1]? = some true) :
    t.Accurate g outOfPlay todo where
  length_found := h.length_found
  saturated_of_found := h.saturated_of_found
  found_of_mem_stack := h.found_of_mem_stack
  nodup_stack := h.nodup_stack
  bodyAt_of_mem_todo := fun other hother =>
    h.bodyAt_of_mem_todo other (List.mem_cons_of_mem _ hother)
  counter?_eq := by
    intro head place body hbody hplay hhead
    obtain ⟨left, hcounter, hleft⟩ := h.counter?_eq head place body hbody hplay hhead
    refine ⟨left, hcounter, ?_⟩
    rwa [List.count_cons_of_ne ?_] at hleft
    rintro rfl
    rw [hfound] at hhead
    exact nomatch hhead

/-- Counting down one counter of a row leaves the counters of all other bodies alone. -/
theorem counter?_set {counters : List (Option Nat)} {use : Nat × Nat} {value : Option Nat}
    (hcounters : t.waiting[use.1]? = some counters) (hplace : use.2 < counters.length)
    (found : List Bool) (stack : List Nat) (head place : Nat) :
    counter? ⟨found, t.waiting.set use.1 (counters.set use.2 value), stack⟩ head place =
      if (head, place) = use then some value else t.counter? head place := by
  obtain ⟨row, position⟩ := use
  have hrow : row < t.waiting.length := (List.getElem?_eq_some_iff.1 hcounters).1
  by_cases hhead : head = row
  · subst hhead
    simp only [counter?, List.getElem?_set_self hrow, hcounters, Option.bind_some]
    by_cases hposition : place = position
    · subst hposition
      rw [List.getElem?_set_self hplace, if_pos rfl]
    · rw [List.getElem?_set_ne (Ne.symm hposition), if_neg (by simp [hposition])]
  · rw [counter?, List.getElem?_set_ne (Ne.symm hhead), if_neg (by simp [hhead])]
    rfl

section

variable {use : Nat × Nat} {todo : List (Nat × Nat)} {body : Body} {counters : List (Option Nat)}

/-- The last find that a body waits for finds its head, which is then to be credited itself. -/
private theorem Accurate.credit_last (h : t.Accurate g outOfPlay (use :: todo))
    (hbody : g.BodyAt use.1 use.2 body) (hplay : outOfPlay body = false)
    (hfound : t.found[use.1]? = some false) (hmissing : t.missing body = 0)
    (hcounters : t.waiting[use.1]? = some counters) (hplace : use.2 < counters.length) :
    Accurate ⟨t.found.set use.1 true, t.waiting.set use.1 (counters.set use.2 (some 0)),
      use.1 :: t.stack⟩ g outOfPlay todo := by
  have hlt : use.1 < t.found.length := (List.getElem?_eq_some_iff.1 hfound).1
  have hnot : t.found[use.1]? ≠ some true := by simp [hfound]
  have hfound_iff : ∀ index, (t.found.set use.1 true)[index]? = some true ↔
      index = use.1 ∨ t.found[index]? = some true := fun index => getElem?_set_true_iff hlt
  have hcredited : ∀ index, Tally.credited ⟨t.found.set use.1 true,
      t.waiting.set use.1 (counters.set use.2 (some 0)), use.1 :: t.stack⟩ index =
        t.credited index := by
    intro index
    rw [Tally.credited, Tally.credited, decide_eq_decide, hfound_iff, List.mem_cons, not_or]
    constructor
    · rintro ⟨rfl | hold, hne, hstack⟩
      · exact absurd rfl hne
      · exact ⟨hold, hstack⟩
    · rintro ⟨hold, hstack⟩
      exact ⟨.inr hold, fun heq => hnot (heq ▸ hold), hstack⟩
  constructor
  · rw [List.length_set, h.length_found]
  · intro index hindex
    rcases (hfound_iff index).1 hindex with rfl | hold
    · refine .of_hasRule hbody.hasRule hplay fun i hi => ?_
      exact h.saturated_of_found i (found_of_credited (missing_eq_zero_iff.1 hmissing i hi))
    · exact h.saturated_of_found index hold
  · intro index hindex
    rcases List.mem_cons.1 hindex with rfl | hold
    · exact (hfound_iff _).2 (.inl rfl)
    · exact (hfound_iff _).2 (.inr (h.found_of_mem_stack index hold))
  · exact List.nodup_cons.2 ⟨fun hstack => hnot (h.found_of_mem_stack _ hstack), h.nodup_stack⟩
  · exact fun other hother => h.bodyAt_of_mem_todo other (List.mem_cons_of_mem _ hother)
  · intro head place other hother hplay' hhead
    have hne : head ≠ use.1 := by
      rintro rfl
      rw [(hfound_iff use.1).2 (.inl rfl)] at hhead
      exact nomatch hhead
    have huse : (head, place) ≠ use := fun heq => hne (congrArg Prod.fst heq)
    rw [List.getElem?_set_ne (Ne.symm hne)] at hhead
    obtain ⟨left, hcounter, hleft⟩ := h.counter?_eq head place other hother hplay' hhead
    refine ⟨left, ?_, ?_⟩
    · rw [counter?_set hcounters hplace, if_neg huse, hcounter]
    · rw [List.count_cons_of_ne (Ne.symm huse)] at hleft
      simpa only [missing, hcredited] using hleft

/-- Any other find only counts the body down. -/
private theorem Accurate.credit_more {left : Nat} (h : t.Accurate g outOfPlay (use :: todo))
    (hbody : g.BodyAt use.1 use.2 body) (hleft : left + 1 = t.missing body + todo.count use)
    (hcounters : t.waiting[use.1]? = some counters) (hplace : use.2 < counters.length) :
    ({ t with waiting := t.waiting.set use.1 (counters.set use.2 (some (left + 1))) } :
      Tally).Accurate g outOfPlay todo where
  length_found := h.length_found
  saturated_of_found := h.saturated_of_found
  found_of_mem_stack := h.found_of_mem_stack
  nodup_stack := h.nodup_stack
  bodyAt_of_mem_todo := fun other hother =>
    h.bodyAt_of_mem_todo other (List.mem_cons_of_mem _ hother)
  counter?_eq := by
    intro head place other hother hplay' hhead
    rw [counter?_set hcounters hplace]
    by_cases huse : (head, place) = use
    · subst huse
      obtain rfl := hbody.eq hother
      exact ⟨left, if_pos rfl, hleft⟩
    · obtain ⟨left, hcounter, hleft⟩ := h.counter?_eq head place other hother hplay' hhead
      rw [List.count_cons_of_ne (Ne.symm huse)] at hleft
      exact ⟨left, by rw [if_neg huse, hcounter], hleft⟩

/-- **A use is credited without a fault,** and then it is no longer to come. -/
theorem Accurate.credit (h : t.Accurate g outOfPlay (use :: todo)) :
    ∃ t', t.credit use = .ok t' ∧ t'.Accurate g outOfPlay todo := by
  obtain ⟨body, hbody, hplay⟩ := h.bodyAt_of_mem_todo use List.mem_cons_self
  have hlt : use.1 < t.found.length := h.length_found ▸ hbody.hasRule.lt_length_rows
  have hlook : lookUp t.found use.1 = .ok t.found[use.1] := lookUp_of_lt hlt
  cases hfound : t.found[use.1] with
  | true =>
    refine ⟨t, ?_, h.credit_found (List.getElem?_eq_some_iff.2 ⟨hlt, hfound⟩)⟩
    simp only [Tally.credit, hlook, hfound, bind, Except.bind, if_true]
    rfl
  | false =>
    have hfound' : t.found[use.1]? = some false := List.getElem?_eq_some_iff.2 ⟨hlt, hfound⟩
    obtain ⟨left, hcounter, hleft⟩ := h.counter?_eq _ _ body hbody hplay hfound'
    rw [List.count_cons_self] at hleft
    obtain ⟨counters, hcounters, hplace⟩ := Option.bind_eq_some_iff.1 hcounter
    have hplace_lt := (List.getElem?_eq_some_iff.1 hplace).1
    simp only [Tally.credit, hlook, hfound, lookUp_eq_ok_iff.2 hcounters, lookUp_eq_ok_iff.2 hplace,
      bind, Except.bind, Bool.false_eq_true, if_false]
    cases left with
    | zero =>
      exact ⟨_, rfl, h.credit_last hbody hplay hfound' (by omega) hcounters hplace_lt⟩
    | succ left =>
      exact ⟨_, if_neg (Nat.succ_ne_zero left),
        h.credit_more hbody (Nat.succ.inj hleft) hcounters hplace_lt⟩

end

theorem Accurate.foldlM_credit {todo : List (Nat × Nat)} (h : t.Accurate g outOfPlay todo) :
    ∃ t', todo.foldlM Tally.credit t = .ok t' ∧ t'.Accurate g outOfPlay [] := by
  induction todo generalizing t with
  | nil => exact ⟨t, rfl, h⟩
  | cons use rest ih =>
    obtain ⟨middle, hmiddle, haccurate⟩ := h.credit
    obtain ⟨t', ht', hlast⟩ := ih haccurate
    refine ⟨t', ?_, hlast⟩
    rw [List.foldlM_cons, hmiddle]
    exact ht'

section

variable {latest : Nat} {rest : List Nat}

/-- Taking a find from the stack credits it. -/
private theorem Accurate.credited_pop (h : t.Accurate g outOfPlay [])
    (hstack : t.stack = latest :: rest) (index : Nat) :
    credited { t with stack := rest } index = (t.credited index || index == latest) := by
  have hnodup := h.nodup_stack
  rw [hstack, List.nodup_cons] at hnodup
  have hlatest : t.found[latest]? = some true :=
    h.found_of_mem_stack latest (hstack ▸ List.mem_cons_self)
  rw [Bool.eq_iff_iff, Bool.or_eq_true, beq_iff_eq]
  simp only [credited, decide_eq_true_eq, hstack, List.mem_cons, not_or]
  by_cases hindex : index = latest
  · subst hindex
    exact ⟨fun _ => .inr rfl, fun _ => ⟨hlatest, hnodup.1⟩⟩
  · simp [hindex]

/-- A body then misses less, by the number of times that it has the find. -/
private theorem Accurate.missing_pop (h : t.Accurate g outOfPlay [])
    (hstack : t.stack = latest :: rest) (body : Body) :
    t.missing body =
      missing { t with stack := rest } body + (nonterminalsIn body).count latest := by
  have hbefore : t.credited latest = false := by
    simp [credited, hstack]
  simp only [missing, h.credited_pop hstack]
  induction nonterminalsIn body with
  | nil => rfl
  | cons index tail ih =>
    rw [List.countP_cons, List.countP_cons, List.count_cons, ih]
    by_cases hindex : index = latest
    · subst hindex
      simp [hbefore]
      omega
    · simp [hindex]
      omega

/-- After a find is taken from the stack, its uses are to come. -/
theorem Accurate.pop (h : t.Accurate g outOfPlay []) (hstack : t.stack = latest :: rest) :
    ({ t with stack := rest } : Tally).Accurate g outOfPlay (g.usesOf outOfPlay latest) where
  length_found := h.length_found
  saturated_of_found := h.saturated_of_found
  found_of_mem_stack := fun index hindex =>
    h.found_of_mem_stack index (hstack ▸ List.mem_cons_of_mem _ hindex)
  nodup_stack := (List.nodup_cons.1 (hstack ▸ h.nodup_stack)).2
  bodyAt_of_mem_todo := by
    rintro ⟨head, place⟩ huse
    obtain ⟨body, hbody, hplay, -⟩ := Grammar.mem_uses_iff.1 (Grammar.mem_usesOf_iff.1 huse)
    exact ⟨body, hbody, hplay⟩
  counter?_eq := by
    intro head place body hbody hplay hhead
    obtain ⟨left, hcounter, hleft⟩ := h.counter?_eq head place body hbody hplay hhead
    refine ⟨left, hcounter, ?_⟩
    rw [hleft, h.missing_pop hstack, Grammar.count_usesOf hbody hplay, List.count_nil, Nat.add_zero]

end

/-! ### The whole run -/

/-- When nothing is left to credit, the set is closed under the rules. -/
theorem Accurate.found_iff (h : t.Accurate g outOfPlay []) (hstack : t.stack = []) (index : Nat) :
    t.found[index]? = some true ↔ g.Saturated outOfPlay index := by
  refine ⟨h.saturated_of_found index, fun hsaturated => ?_⟩
  induction hsaturated with
  | @of_hasRule head body hrule hplay hall ih =>
    obtain ⟨place, hbody⟩ := hrule.exists_bodyAt
    have hlt : head < t.found.length := h.length_found ▸ hrule.lt_length_rows
    cases hfound : t.found[head] with
    | true => exact List.getElem?_eq_some_iff.2 ⟨hlt, hfound⟩
    | false =>
      have hpos := h.missing_pos hbody hplay (List.getElem?_eq_some_iff.2 ⟨hlt, hfound⟩)
      have hzero : t.missing body = 0 := by
        refine missing_eq_zero_iff.2 fun index hmem => ?_
        simpa [credited, hstack] using ih index hmem
      omega

theorem Accurate.exists_settle (h : t.Accurate g outOfPlay []) :
    ∃ flags, t.settle (g.usesByRow outOfPlay) = .ok flags ∧ flags.length = g.rows.length ∧
      ∀ index, flags[index]? = some true ↔ g.Saturated outOfPlay index := by
  induction hweight : t.weight using Nat.strongRecOn generalizing t with
  | ind bound ih =>
    rw [settle]
    split
    · rename_i hstack
      exact ⟨t.found, rfl, h.length_found, h.found_iff hstack⟩
    · rename_i latest rest hstack
      have hlt : latest < g.rows.length := by
        rw [← h.length_found]
        have := h.found_of_mem_stack latest (hstack ▸ List.mem_cons_self)
        exact (List.getElem?_eq_some_iff.1 this).1
      obtain ⟨next, hnext, haccurate⟩ := (h.pop hstack).foldlM_credit
      rw [Grammar.lookUp_usesByRow hlt]
      dsimp only
      split
      · rename_i hfold
        cases hnext.symm.trans hfold
      · rename_i t' hfold
        obtain rfl : next = t' := Except.ok.inj (hnext.symm.trans hfold)
        refine ih next.weight ?_ haccurate rfl
        have := weight_foldlM_credit_le hnext
        simp only [weight, hstack, List.length_cons] at this hweight ⊢
        omega

end Tally

namespace Grammar

variable {g : Grammar} {outOfPlay : Body → Bool}

theorem counter?_initialTally {head place : Nat} {body : Body} (hbody : g.BodyAt head place body)
    (hplay : outOfPlay body = false) :
    (g.initialTally outOfPlay).counter? head place = some (some (nonterminalsIn body).length) := by
  obtain ⟨row, hrow, hplace⟩ := hbody
  simp [Tally.counter?, initialTally, hrow, hplace, hplay]

/-- At first the heads of bodies in play without nonterminals are found. -/
theorem found_initialTally_iff {index : Nat} :
    (g.initialTally outOfPlay).found[index]? = some true ↔
      ∃ body, g.HasRule index body ∧ outOfPlay body = false ∧ nonterminalsIn body = [] := by
  simp only [initialTally, List.getElem?_map, Option.map_map, Option.map_eq_some_iff,
    Function.comp_apply, List.contains_iff_mem, List.mem_map]
  constructor
  · rintro ⟨row, hrow, body, hbody, hzero⟩
    split at hzero
    · exact nomatch hzero
    · rename_i hplay
      refine ⟨body, ⟨row, hrow, hbody⟩, by simpa using hplay, ?_⟩
      exact List.eq_nil_of_length_eq_zero (Option.some.inj hzero)
  · rintro ⟨body, ⟨row, hrow, hbody⟩, hplay, hnone⟩
    refine ⟨row, hrow, body, hbody, ?_⟩
    rw [hplay, if_neg Bool.false_ne_true, hnone]
    rfl

theorem mem_stack_initialTally_iff {index : Nat} :
    index ∈ (g.initialTally outOfPlay).stack ↔
      (g.initialTally outOfPlay).found[index]? = some true := by
  show index ∈ (List.map _ (List.filter _ (g.initialTally outOfPlay).found.zipIdx)).reverse ↔ _
  simp only [List.mem_reverse, List.mem_map, List.mem_filter, Prod.exists,
    List.mem_zipIdx_iff_getElem?]
  constructor
  · rintro ⟨flag, _, ⟨hflag, htrue⟩, rfl⟩
    rw [hflag, htrue]
  · intro hfound
    exact ⟨true, index, ⟨hfound, rfl⟩, rfl⟩

theorem nodup_stack_initialTally : (g.initialTally outOfPlay).stack.Nodup := by
  show (List.map _ (List.filter _ (g.initialTally outOfPlay).found.zipIdx)).reverse.Nodup
  refine List.nodup_reverse.2 (List.Nodup.sublist (List.filter_sublist.map _) ?_)
  rw [List.zipIdx_map_snd]
  exact List.nodup_range'

theorem accurate_initialTally : (g.initialTally outOfPlay).Accurate g outOfPlay [] where
  length_found := by simp [initialTally]
  saturated_of_found := by
    intro index hindex
    obtain ⟨body, hrule, hplay, hnone⟩ := found_initialTally_iff.1 hindex
    refine .of_hasRule hrule hplay fun i hi => ?_
    rw [← mem_nonterminalsIn_iff, hnone] at hi
    exact nomatch hi
  found_of_mem_stack := fun _ => mem_stack_initialTally_iff.1
  nodup_stack := nodup_stack_initialTally
  bodyAt_of_mem_todo := fun _ huse => nomatch huse
  counter?_eq := by
    intro head place body hbody hplay hhead
    have hcredited : ∀ index, (g.initialTally outOfPlay).credited index = false := by
      intro index
      rw [Tally.credited, decide_eq_false_iff_not]
      exact fun ⟨hfound, hstack⟩ => hstack (mem_stack_initialTally_iff.2 hfound)
    have hmissing : (g.initialTally outOfPlay).missing body = (nonterminalsIn body).length := by
      simp [Tally.missing, hcredited]
    have hsome : nonterminalsIn body ≠ [] := by
      intro hnone
      rw [found_initialTally_iff.2 ⟨body, hbody.hasRule, hplay, hnone⟩] at hhead
      exact nomatch hhead
    obtain ⟨left, hleft⟩ := Nat.exists_eq_succ_of_ne_zero fun h =>
      hsome (List.eq_nil_of_length_eq_zero h)
    refine ⟨left, ?_, ?_⟩
    · rw [counter?_initialTally hbody hplay, hleft]
    · rw [hmissing, hleft, List.count_nil]

/-- **The computation finds the least set.** It needs that bodies in play name rows. -/
theorem exists_saturate (h : ∀ head body, g.HasRule head body → outOfPlay body = false →
      ∀ index, .nonterminal index ∈ body → index < g.rows.length) :
    ∃ flags, g.saturate outOfPlay = .ok flags ∧ flags.length = g.rows.length ∧
      ∀ index, flags[index]? = some true ↔ g.Saturated outOfPlay index := by
  have hrange : ((g.uses outOfPlay).any fun use => decide (g.rows.length ≤ use.1)) = false := by
    rw [List.any_eq_false]
    rintro ⟨index, head, place⟩ huse
    obtain ⟨body, hbody, hplay, hmem⟩ := mem_uses_iff.1 huse
    have := h head body hbody.hasRule hplay index hmem
    simpa using this
  rw [saturate, hrange, if_neg Bool.false_ne_true]
  exact accurate_initialTally.exists_settle

end Grammar

end ChomskyChart
