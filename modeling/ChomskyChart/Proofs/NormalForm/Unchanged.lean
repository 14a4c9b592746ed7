import ChomskyChart.Proofs.NormalForm.Ambiguity

/-!
# Steps with nothing to do

Each of the six steps but the first leaves a grammar alone that has already the form which the step
brings about, down to the order of the bodies. Three of them write every row anew, without
repetitions, so the rows must not have any. If the only unit rule is that of the start symbol, then
the start symbol gets the row of its target.

## Main results

* `withIsolatedTerminals_eq_self`: no terminals in bodies of two or more symbols
* `withBinaryBodies_eq_self`: no bodies of more than two symbols
* `withoutEpsilon_eq_self`: no empty bodies
* `withoutUnits_eq_self`: no unit rules
* `StartsAt.withoutUnits_eq`: no unit rules but that of the start symbol
* `withoutUseless_eq_self`: nothing useless
-/

namespace ChomskyChart

open Relation

/-! ### Flags for all -/

section

variable {flags : List Bool} {i : Nat}

theorem newPosition_succ :
    newPosition flags (i + 1) = newPosition flags i + if flags[i]? = some true then 1 else 0 := by
  rw [newPosition, newPosition, List.take_add_one, List.count_append]
  cases hflag : flags[i]? with
  | none => simp
  | some flag => cases flag <;> simp

theorem newPosition_eq_self (h : ∀ j < i, flags[j]? = some true) : newPosition flags i = i := by
  induction i with
  | zero => rfl
  | succ i ih =>
    rw [newPosition_succ, ih fun j hj => h j (Nat.lt_succ_of_lt hj),
      if_pos (h i (Nat.lt_succ_self i))]

theorem select_eq_self {α : Type} {xs : List α} (hlength : flags.length = xs.length)
    (h : ∀ i < xs.length, flags[i]? = some true) : select flags xs = xs := by
  induction xs generalizing flags with
  | nil => simp [select]
  | cons x rest ih =>
    obtain ⟨flag, more, rfl⟩ := List.exists_cons_of_length_eq_add_one hlength
    obtain rfl : flag = true := by simpa using h 0 (by simp)
    rw [select_true_cons, ih (by simpa using hlength)]
    intro i hi
    simpa using h (i + 1) (by simpa using hi)

theorem restrictRow_eq {row : Row} {f : SymbolId → SymbolId}
    (h : ∀ body ∈ row, ∀ s ∈ body, staysIn flags s = true ∧ moved flags s = f s) :
    restrictRow flags row = row.map (·.map f) := by
  have hall : row.filter (fun body => body.all (staysIn flags)) = row :=
    List.filter_eq_self.2 fun body hbody => List.all_eq_true.2 fun s hs => (h body hbody s hs).1
  rw [restrictRow, hall]
  exact List.map_congr_left fun body hbody => List.map_congr_left fun s hs => (h body hbody s hs).2

end

namespace Grammar

variable {g : Grammar}

/-! ### Short bodies -/

theorem map_rows_eq_self {f : Body → Body} (h : ∀ head body, g.HasRule head body → f body = body) :
    g.rows.map (·.map f) = g.rows := by
  have hrow : ∀ row ∈ g.rows, row.map f = row := fun row hrow =>
    (List.map_congr_left (forall_mem_rows_iff.2 h row hrow)).trans (List.map_id row)
  exact (List.map_congr_left hrow).trans (List.map_id g.rows)

theorem isolateBody_eq_self {offset : Nat} {isolated : List Nat} {body : Body}
    (h : isLong body = true → ∀ t, .terminal t ∉ body) :
    isolateBody offset isolated body = body := by
  cases hlong : isLong body with
  | false => exact isolateBody_of_not_isLong hlong
  | true =>
    rw [isolateBody_of_isLong hlong]
    refine (List.map_congr_left fun s hs => ?_).trans (List.map_id body)
    cases s with
    | terminal t => exact absurd hs (h hlong t)
    | nonterminal index => rfl

/-- A grammar whose table stays as it is gets no names either. -/
theorem eq_self_of_rows_eq {r : Grammar} {added : List String} (h : g.WellFormed)
    (hr : r.WellFormed)
    (hnames : r = { g with nonterminals := g.nonterminals ++ added, rows := r.rows })
    (hrows : r.rows = g.rows) : r = g := by
  have hlength := hr.length_rows
  rw [hrows, h.length_rows, hnames, List.length_append] at hlength
  have hadded : added = [] := List.eq_nil_of_length_eq_zero (by omega)
  rw [hnames, hrows, hadded, List.append_nil]

/-- If long bodies have no terminals, then no stand-ins are needed. -/
theorem isolatedTerminals_eq_nil (h : g.TerminalsIsolated) : g.isolatedTerminals = [] := by
  rw [List.eq_nil_iff_forall_not_mem]
  intro t ht
  obtain ⟨head, body, hrule, hlong, hmem⟩ := mem_isolatedTerminals_iff.1 ht
  exact h head body hrule (of_decide_eq_true hlong) t hmem

theorem rows_withStandIns_of_terminalsIsolated {added : List String} (h : g.TerminalsIsolated) :
    (g.withStandIns added).rows = g.rows := by
  have hrows : g.rows.map (·.map (isolateBody g.nonterminals.length [])) = g.rows :=
    map_rows_eq_self fun head body hrule =>
      isolateBody_eq_self fun hlong => h head body hrule (of_decide_eq_true hlong)
  rw [withStandIns, isolatedTerminals_eq_nil h, hrows, List.map_nil, List.append_nil]

/-- The step draws no names either. -/
theorem withIsolatedTerminals_eq_self (h : g.TerminalsIsolated) (names : FreshNames)
    (config : NormalFormNames) : g.withIsolatedTerminals names config = .ok (g, names) := by
  have hstep : g.withIsolatedTerminals names config = .ok (g.withStandIns [], names) := by
    rw [withIsolatedTerminals_eq, isolatedTerminals_eq_nil h]
    rfl
  have hself : g.withStandIns [] = g := by
    have hrows : (g.withStandIns []).rows = g.rows := rows_withStandIns_of_terminalsIsolated h
    simp only [withStandIns, List.append_nil] at hrows ⊢
    rw [hrows]
  rw [hstep, hself]

/-- If no body has more than two symbols, then no ends are shared. -/
theorem longEnds_eq_nil {body : Body} (h : body.length ≤ 2) : longEnds body = [] := by
  rw [List.eq_nil_iff_forall_not_mem]
  intro rest hrest
  obtain ⟨htwo, hne, hsuffix⟩ := mem_longEnds_iff.1 hrest
  exact hne (hsuffix.eq_of_length_le (Nat.le_trans h htwo))

theorem sharedEnds_eq_nil (h : ∀ head body, g.HasRule head body → body.length ≤ 2) :
    g.sharedEnds = [] := by
  rw [List.eq_nil_iff_forall_not_mem]
  intro rest hrest
  obtain ⟨head, body, hrule, hmem⟩ := mem_sharedEnds_iff.1 hrest
  rw [longEnds_eq_nil (h head body hrule)] at hmem
  exact nomatch hmem

/-- Short bodies are entered as they are. -/
theorem cutEntries_eq_headedBodies (h : ∀ head body, g.HasRule head body → body.length ≤ 2) :
    g.cutEntries = g.headedBodies := by
  have hsingle : ∀ entry ∈ g.headedBodies,
      binaryEntries g.endPosition entry.1 entry.2 = [entry] := by
    rintro ⟨head, body⟩ hentry
    have hlength := h head body (mem_headedBodies.1 hentry)
    rw [binaryEntries, shorten_of_length_le hlength, longEnds_eq_nil hlength, List.map_nil]
  rw [cutEntries, List.flatMap_congr hsingle, List.flatMap_singleton']

theorem tableOf_headedBodies (hnodup : ∀ row ∈ g.rows, row.Nodup) :
    tableOf g.rows.length g.headedBodies = g.rows := by
  refine List.ext_getElem? fun i => ?_
  rcases Nat.lt_or_ge i g.rows.length with hlt | hge
  · have hrow : g.rows[i]? = some g.rows[i] := List.getElem?_eq_getElem hlt
    rw [getElem?_tableOf hlt, entriesAt_headedBodies, hrow, Option.getD_some,
      eraseDups_of_nodup (hnodup _ (List.getElem_mem hlt))]
  · rw [List.getElem?_eq_none (by rwa [length_tableOf]), List.getElem?_eq_none hge]

theorem rows_withSharedEnds_of_length_le {added : List String}
    (h : ∀ head body, g.HasRule head body → body.length ≤ 2)
    (hnodup : ∀ row ∈ g.rows, row.Nodup) : (g.withSharedEnds added).rows = g.rows := by
  rw [withSharedEnds, sharedEnds_eq_nil h, cutEntries_eq_headedBodies h, List.length_nil,
    Nat.add_zero, tableOf_headedBodies hnodup]

/-- The step draws no names either. -/
theorem withBinaryBodies_eq_self (h : ∀ head body, g.HasRule head body → body.length ≤ 2)
    (hnodup : ∀ row ∈ g.rows, row.Nodup) (names : FreshNames) (config : NormalFormNames) :
    g.withBinaryBodies names config = .ok (g, names) := by
  have hnone : g.sharedEnds = [] := sharedEnds_eq_nil h
  have hself : g.withSharedEnds [] = g := by
    have hrows : (g.withSharedEnds []).rows = g.rows := rows_withSharedEnds_of_length_le h hnodup
    simp only [withSharedEnds, List.append_nil] at hrows ⊢
    rw [hrows]
  rw [withBinaryBodies_eq, if_neg fun hfew => hfew.2 hnone, hnone]
  exact congrArg (fun r => Except.ok (r, names)) hself

/-! ### No empty bodies -/

/-- A body has one variant if nothing may be left out. -/
theorem variants_eq_singleton {nullable : List Bool} {body : Body}
    (h : ∀ index, .nonterminal index ∈ body → nullable[index]? = some false) :
    variants nullable body = .ok [body] := by
  induction body with
  | nil => rfl
  | cons s rest ih =>
    have hs : isOptional nullable s = .ok false := by
      cases s with
      | terminal t => rfl
      | nonterminal index => exact lookUp_eq_ok_iff.2 (h index List.mem_cons_self)
    rw [variants_cons, hs, ih fun index hmem => h index (List.mem_cons_of_mem s hmem)]
    rfl

/-- The step on a row whose bodies have no nullable nonterminals. -/
theorem mapM_variants_eq_self {nullable : List Bool} {row : Row} (hnodup : row.Nodup)
    (hne : ∀ body ∈ row, body ≠ [])
    (hfalse : ∀ body ∈ row, ∀ index, .nonterminal index ∈ body → nullable[index]? = some false) :
    (do
      let bodies ← row.mapM (variants nullable)
      return (bodies.flatten.filter fun body => !body.isEmpty).eraseDups) =
        (.ok row : Except Failure Row) := by
  have hbodies : row.mapM (variants nullable) = .ok (row.map fun body => [body]) :=
    mapM_eq_ok fun body hbody => variants_eq_singleton (hfalse body hbody)
  have hall : row.filter (fun body => !body.isEmpty) = row :=
    List.filter_eq_self.2 fun body hbody => by simpa using hne body hbody
  rw [hbodies]
  show Except.ok _ = _
  rw [← List.flatMap_def, List.flatMap_singleton', hall, eraseDups_of_nodup hnodup]

/-- If no body is empty, then nothing is left out. -/
theorem withoutEpsilon_eq_self (h : g.WellFormed)
    (hne : ∀ head body, g.HasRule head body → body ≠ []) (hnodup : ∀ row ∈ g.rows, row.Nodup) :
    g.withoutEpsilon = .ok g := by
  obtain ⟨nullable, hnullable, hlength, hflags⟩ := exists_nullable h
  have hfalse : ∀ index < g.rows.length, nullable[index]? = some false := by
    intro index hlt
    rw [← hlength] at hlt
    have hnot : nullable[index]? ≠ some true := fun htrue =>
      ne_nil_of_derives hne ((hflags index).1 htrue) rfl
    rw [List.getElem?_eq_getElem hlt] at hnot ⊢
    simpa using hnot
  have hrows := mapM_eq_ok fun row hrow => mapM_variants_eq_self (hnodup row hrow)
    (forall_mem_rows_iff.2 hne row hrow) fun body hbody index hmem => by
      obtain ⟨head, hhead⟩ := List.getElem?_of_mem hrow
      exact hfalse index (h.nonterminal_lt ⟨row, hhead, hbody⟩ hmem)
  have hstart : lookUp nullable g.start = .ok false :=
    lookUp_eq_ok_iff.2 (hfalse g.start (h.length_rows ▸ h.start_lt))
  simp only [withoutEpsilon, hnullable, bind, Except.bind] at hrows ⊢
  rw [hrows, List.map_id', hstart]
  rcases g with ⟨_, _, _, _, _ | _⟩ <;> rfl

/-! ### No unit rules, or one -/

theorem nodup_getD_rows (hnodup : ∀ row ∈ g.rows, row.Nodup) (v : Nat) :
    (g.rows[v]?.getD []).Nodup := by
  cases hrow : g.rows[v]? with
  | none => exact List.nodup_nil
  | some row => exact hnodup row (List.mem_of_getElem? hrow)

/-- A row without unit rules is taken over as it is. -/
theorem takenOver_singleton {v : Nat} (hnodup : ∀ row ∈ g.rows, row.Nodup)
    (hunit : ∀ body, g.HasRule v body → isUnitBody body = false) :
    g.takenOver [v] = g.rows[v]?.getD [] := by
  have hkept : (g.rows[v]?.getD []).filter (fun body => !isUnitBody body) = g.rows[v]?.getD [] := by
    refine List.filter_eq_self.2 fun body hbody => ?_
    rw [hunit body (mem_getD_rows_iff.1 hbody)]
    rfl
  rw [takenOver, List.flatMap_singleton, hkept, eraseDups_of_nodup (nodup_getD_rows hnodup v)]

/-- If there are no unit rules, then every nonterminal keeps its row. -/
theorem withoutUnits_eq_self (h : g.WellFormed)
    (hunit : ∀ head body, g.HasRule head body → isUnitBody body = false)
    (hnodup : ∀ row ∈ g.rows, row.Nodup) : g.withoutUnits = .ok g := by
  obtain ⟨closure, -, heq, hfound⟩ := exists_withoutUnits_eq h
  have hstep : ∀ v w, ¬g.UnitStep v w := fun v w hstep =>
    Bool.false_ne_true ((hunit v _ hstep).symm.trans (isUnitBody_iff.2 ⟨w, rfl⟩))
  have hrows : ((List.range g.rows.length).map fun v => g.takenOver (closure v)) = g.rows := by
    refine List.ext_getElem (by simp) fun v hv hv' => ?_
    obtain ⟨hclosure, -, hmem⟩ := hfound v hv'
    have hsingle : closure v = [v] :=
      eq_singleton_of_nodup hclosure fun w => (hmem w).trans (reflTransGen_iff_eq (hstep v))
    rw [List.getElem_map, List.getElem_range, hsingle, takenOver_singleton hnodup (hunit v),
      List.getElem?_eq_getElem hv', Option.getD_some]
  rw [heq, hrows]

/-- What the start symbol and the others take over. -/
theorem StartsAt.takenOver_eq {old v : Nat} (h : g.StartsAt old)
    (hnodup : ∀ row ∈ g.rows, row.Nodup) {closure : List Nat} (hclosure : closure.Nodup)
    (hhead : closure.head? = some v) (hmem : ∀ w, w ∈ closure ↔ ReflTransGen g.UnitStep v w) :
    g.takenOver closure = g.rows[if v = g.start then old else v]?.getD [] := by
  obtain ⟨rest, rfl⟩ := List.head?_eq_some_iff.1 hhead
  obtain ⟨hv, hrest⟩ := List.nodup_cons.1 hclosure
  split
  · rename_i heq
    subst heq
    have hnone : (g.rows[g.start]?.getD []).filter (fun body => !isUnitBody body) = [] := by
      refine List.filter_eq_nil_iff.2 fun body hbody => ?_
      rw [(h.hasRule_start_iff body).1 (mem_getD_rows_iff.1 hbody)]
      exact Bool.false_ne_true
    obtain rfl : rest = [old] := by
      refine eq_singleton_of_nodup hrest fun w => ?_
      have hiff := hmem w
      rw [List.mem_cons, h.unitSteps_start_iff] at hiff
      constructor
      · intro hw
        refine (hiff.1 (.inr hw)).resolve_left ?_
        rintro rfl
        exact hv hw
      · rintro rfl
        exact (hiff.2 (.inr rfl)).resolve_left h.ne_start
    have hold : g.takenOver [old] = g.rows[old]?.getD [] :=
      takenOver_singleton hnodup fun _ => h.isUnitBody_eq_false h.ne_start
    rw [takenOver, List.flatMap_singleton] at hold
    rw [takenOver, List.flatMap_cons, List.flatMap_singleton, List.filter_append, hnone,
      List.nil_append, hold]
  · rename_i hne
    obtain rfl : rest = [] := by
      refine List.eq_nil_iff_forall_not_mem.2 fun w hw => hv ?_
      rwa [h.eq_of_unitSteps hne ((hmem w).1 (List.mem_cons_of_mem v hw))] at hw
    exact takenOver_singleton hnodup fun _ => h.isUnitBody_eq_false hne

/-- If the start symbol has the only unit rule, then it takes over the row of its target. -/
theorem StartsAt.withoutUnits_eq {old : Nat} (hstart : g.StartsAt old) (h : g.WellFormed)
    (hnodup : ∀ row ∈ g.rows, row.Nodup) :
    g.withoutUnits = .ok { g with rows := g.rows.set g.start (g.rows[old]?.getD []) } := by
  obtain ⟨closure, -, heq, hfound⟩ := exists_withoutUnits_eq h
  have hrows : ((List.range g.rows.length).map fun v => g.takenOver (closure v)) =
      g.rows.set g.start (g.rows[old]?.getD []) := by
    refine List.ext_getElem (by simp) fun v hv hv' => ?_
    rw [List.length_set] at hv'
    obtain ⟨hclosure, hhead, hmem⟩ := hfound v hv'
    rw [List.getElem_map, List.getElem_range, List.getElem_set,
      hstart.takenOver_eq hnodup hclosure hhead hmem]
    by_cases heq : v = g.start
    · rw [if_pos heq, if_pos heq.symm]
    · rw [if_neg heq, if_neg (Ne.symm heq), List.getElem?_eq_getElem hv', Option.getD_some]
  rw [heq, hrows]

/-! ### Nothing useless -/

/-- If all nonterminals stay, then nothing changes. -/
theorem restricted_eq_self (h : g.WellFormed) {keep : List Bool}
    (hlength : keep.length = g.rows.length) (hkeep : ∀ i < g.rows.length, keep[i]? = some true) :
    g.restricted keep = g := by
  have hposition : ∀ i < g.rows.length, newPosition keep i = i := fun i hi =>
    newPosition_eq_self fun j hj => hkeep j (Nat.lt_trans hj hi)
  have hrow : ∀ row ∈ g.rows, restrictRow keep row = row := by
    intro row hrow
    have hmoved : ∀ body ∈ row, ∀ s ∈ body, staysIn keep s = true ∧ moved keep s = id s := by
      intro body hbody s hs
      cases s with
      | terminal t => exact ⟨rfl, rfl⟩
      | nonterminal index =>
        obtain ⟨head, hhead⟩ := List.getElem?_of_mem hrow
        have hlt : index < g.rows.length := h.nonterminal_lt ⟨row, hhead, hbody⟩ hs
        exact ⟨beq_iff_eq.2 (hkeep index hlt), congrArg SymbolId.nonterminal (hposition index hlt)⟩
    rw [restrictRow_eq hmoved]
    simp
  have hnames : select keep g.nonterminals = g.nonterminals :=
    select_eq_self (hlength.trans h.length_rows) fun i hi => hkeep i (h.length_rows ▸ hi)
  rw [restricted, hnames, select_eq_self hlength hkeep, List.map_congr_left hrow, List.map_id',
    hposition g.start (h.length_rows ▸ h.start_lt)]

/-- If the start symbol reaches everything and all others derive a word, then nothing goes. -/
theorem withoutUseless_eq_self (h : g.WellFormed)
    (hreach : ∀ index < g.rows.length, ReflTransGen g.Uses g.start index)
    (hwords : ∀ index < g.rows.length, index ≠ g.start → ∃ word, g.Derives index word) :
    g.withoutUseless = .ok g := by
  obtain ⟨u, hu⟩ := exists_usefulFlags h
  have hsame : g.restricted u.productive = g :=
    restricted_eq_self h u.length_productive fun index hlt =>
      (u.productive_iff index).2 (or_iff_not_imp_left.2 (hwords index hlt))
  have hlength := u.length_reached
  have hreached := u.reached_iff
  rw [hsame] at hlength hreached
  rw [hu, UsefulFlags.result, hsame, restricted_eq_self h hlength fun index hlt =>
    (hreached index).2 (hreach index hlt)]

end Grammar

end ChomskyChart
