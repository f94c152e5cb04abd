import SqlStore.Text.LongestMatch

/-!
# What the longest match finds

Walking down a text finds the option with the longest spelling among those that begin the text, and nothing
where none of them does. It finds the same where the text goes on with a character of no spelling
(`longestMatch_append`).
-/

namespace SqlStore.Text

variable {α : Type} {best : Option α} {live : List (Candidate α)} {a : α} {c : Char} {ws cs more : List Char}

/-- The text begins with the spelling, its letters counted as lower case. -/
def Begins (ws cs : List Char) : Prop := ws <+: cs.map Char.toLower

theorem begins_cons_cons {w : Char} : Begins (w :: ws) (c :: cs) ↔ w = c.toLower ∧ Begins ws cs := by
  rw [Begins, List.map_cons, List.cons_prefix_cons, Begins]

theorem not_begins_nil (h : ws ≠ []) : ¬ Begins ws [] :=
  fun hbegins => h (List.prefix_nil.1 hbegins)

theorem mem_narrow : (a, ws) ∈ narrow c live ↔ (a, c.toLower :: ws) ∈ live := by
  rw [narrow, List.mem_filterMap]
  constructor
  · rintro ⟨⟨b, spelling⟩, hmem, heq⟩
    cases spelling with
    | nil => simp at heq
    | cons w vs =>
        simp only at heq
        split at heq <;> simp_all
  · intro hmem
    exact ⟨_, hmem, by simp⟩

theorem begins_of_mem_narrow {x : Candidate α} (hx : x ∈ narrow c live) (hbegins : Begins x.2 cs) :
    ∃ y ∈ live, y = (x.1, c.toLower :: x.2) ∧ Begins y.2 (c :: cs) :=
  ⟨_, mem_narrow.1 hx, rfl, begins_cons_cons.2 ⟨rfl, hbegins⟩⟩

theorem begins_nil : Begins [] cs := List.nil_prefix

theorem longestFrom_eq_best (h : ∀ x ∈ live, ¬ Begins x.2 cs) : longestFrom best live cs = best := by
  induction cs generalizing best live with
  | nil => cases live <;> rfl
  | cons c cs ih =>
      cases live with
      | nil => rfl
      | cons x live =>
          have hnarrow : ∀ y ∈ narrow c (x :: live), ¬ Begins y.2 cs := by
            intro y hy hbegins
            obtain ⟨z, hz, -, hbegins⟩ := begins_of_mem_narrow hy hbegins
            exact h z hz hbegins
          have hcomplete : (narrow c (x :: live)).find? (fun y => y.2.isEmpty) = none := by
            rw [List.find?_eq_none]
            intro y hy hempty
            exact hnarrow y hy (List.isEmpty_iff.1 hempty ▸ begins_nil)
          rw [longestFrom, hcomplete]
          exact ih fun y hy => hnarrow y (List.mem_filter.1 hy).1

/-- The candidate is longer than any other that begins the text. -/
def Longest (a : α) (ws : List Char) (live : List (Candidate α)) (cs : List Char) : Prop :=
  ∀ x ∈ live, Begins x.2 cs → x.2.length < ws.length ∨ x = (a, ws)

theorem Longest.narrow (h : Longest a (c.toLower :: ws) live (c :: cs)) : Longest a ws (narrow c live) cs := by
  intro x hx hbegins
  obtain ⟨y, hy, rfl, hybegins⟩ := begins_of_mem_narrow hx hbegins
  rcases h _ hy hybegins with hlt | heq
  · exact .inl (by simpa using hlt)
  · simp only [Prod.mk.injEq, List.cons.injEq, true_and] at heq
    exact .inr (Prod.ext heq.1 heq.2)

/-- Where the longest candidate is complete, it is the only complete one. -/
theorem Longest.find? (h : Longest a [] live cs) (hmem : (a, []) ∈ live) :
    live.find? (fun x => x.2.isEmpty) = some (a, []) := by
  cases hfind : live.find? (fun x => x.2.isEmpty) with
  | none => exact absurd rfl (List.find?_eq_none.1 hfind _ hmem)
  | some y =>
      have hempty : y.2 = [] := by simpa using List.find?_some hfind
      rcases h y (List.mem_of_find?_eq_some hfind) (hempty ▸ begins_nil) with hlt | rfl
      · simp at hlt
      · rfl

theorem longestFrom_eq_some (hmem : (a, ws) ∈ live) (hne : ws ≠ []) (hbegins : Begins ws cs)
    (hlongest : Longest a ws live cs) : longestFrom best live cs = some a := by
  induction cs generalizing best live ws with
  | nil => exact absurd hbegins (not_begins_nil hne)
  | cons c cs ih =>
      cases ws with
      | nil => exact absurd rfl hne
      | cons w ws =>
          obtain ⟨rfl, hbegins'⟩ := begins_cons_cons.1 hbegins
          have hmem' : (a, ws) ∈ narrow c live := mem_narrow.2 hmem
          cases live with
          | nil => cases hmem
          | cons x live =>
              rw [longestFrom]
              cases ws with
              | cons v ws =>
                  refine ih (List.mem_filter.2 ⟨hmem', rfl⟩) (List.cons_ne_nil _ _) hbegins' ?_
                  exact fun y hy => hlongest.narrow y (List.mem_filter.1 hy).1
              | nil =>
                  -- the spelling ends here: what goes on would be longer, so it does not begin the text
                  rw [hlongest.narrow.find? hmem']
                  refine longestFrom_eq_best fun z hz hzbegins => ?_
                  obtain ⟨hz, hopen⟩ := List.mem_filter.1 hz
                  rcases hlongest.narrow z hz hzbegins with hlt | rfl
                  · simp at hlt
                  · simp at hopen

theorem longestMatch_eq_some {spelling : α → String} {options : List α} (ha : a ∈ options) (hne : spelling a ≠ "")
    (hbegins : Begins (spelling a).toList cs)
    (hlongest : ∀ b ∈ options, Begins (spelling b).toList cs →
      (spelling b).toList.length < (spelling a).toList.length ∨ b = a) :
    longestMatch spelling options cs = some a := by
  refine longestFrom_eq_some (List.mem_map.2 ⟨a, ha, rfl⟩) (by simpa using hne) hbegins ?_
  intro x hx hxbegins
  obtain ⟨b, hb, rfl⟩ := List.mem_map.1 hx
  rcases hlongest b hb hxbegins with hlt | rfl
  · exact .inl hlt
  · exact .inr rfl

theorem longestMatch_eq_none {spelling : α → String} {options : List α}
    (h : ∀ b ∈ options, ¬ Begins (spelling b).toList cs) : longestMatch spelling options cs = none := by
  refine longestFrom_eq_best fun x hx => ?_
  obtain ⟨b, hb, rfl⟩ := List.mem_map.1 hx
  exact h b hb

/-- The first character already decides that no spelling begins the text. -/
theorem longestMatch_eq_none_of_head {spelling : α → String} {options : List α}
    (h : ∀ b ∈ options, ∃ w ws, (spelling b).toList = w :: ws ∧ w ≠ c.toLower) :
    longestMatch spelling options (c :: cs) = none := by
  refine longestMatch_eq_none fun b hb hbegins => ?_
  obtain ⟨w, ws, hw, hne⟩ := h b hb
  rw [hw, begins_cons_cons] at hbegins
  exact hne hbegins.1

theorem begins_of_longestFrom (h : longestFrom best live cs = some a) :
    best = some a ∨ ∃ ws, (a, ws) ∈ live ∧ Begins ws cs := by
  induction cs generalizing best live with
  | nil => cases live <;> exact .inl h
  | cons c cs ih =>
      cases live with
      | nil => exact .inl h
      | cons x live =>
          rw [longestFrom] at h
          rcases ih h with hbest | ⟨ws, hws, hbegins⟩
          · cases hcomplete : (narrow c (x :: live)).find? fun y => y.2.isEmpty with
            | none =>
                rw [hcomplete] at hbest
                exact .inl hbest
            | some y =>
                rw [hcomplete] at hbest
                cases hbest
                have hempty : y.2 = [] := by simpa using List.find?_some hcomplete
                have hy : (y.1, []) ∈ narrow c (x :: live) := hempty ▸ List.mem_of_find?_eq_some hcomplete
                exact .inr ⟨_, mem_narrow.1 hy, begins_cons_cons.2 ⟨rfl, begins_nil⟩⟩
          · exact .inr ⟨_, mem_narrow.1 (List.mem_filter.1 hws).1, begins_cons_cons.2 ⟨rfl, hbegins⟩⟩

theorem begins_of_longestMatch {spelling : α → String} {options : List α}
    (h : longestMatch spelling options cs = some a) : a ∈ options ∧ Begins (spelling a).toList cs := by
  rcases begins_of_longestFrom h with h | ⟨ws, hws, hbegins⟩
  · cases h
  · obtain ⟨b, hb, heq⟩ := List.mem_map.1 hws
    cases heq
    exact ⟨hb, hbegins⟩

/-! ## Text that follows -/

/-- A spelling is found where no other one goes on with the character after it. -/
theorem longestMatch_append_eq_some {spelling : α → String} {options : List α} (ha : a ∈ options)
    (hne : spelling a ≠ "") (hinj : ∀ b ∈ options, spelling b = spelling a → b = a)
    (hcs : cs.map Char.toLower = (spelling a).toList)
    (hmore : ∀ c ∈ more.head?, ∀ b ∈ options, ¬ (spelling a).toList ++ [c.toLower] <+: (spelling b).toList) :
    longestMatch spelling options (cs ++ more) = some a := by
  have hlower : (cs ++ more).map Char.toLower = (spelling a).toList ++ more.map Char.toLower := by
    rw [List.map_append, hcs]
  refine longestMatch_eq_some ha hne ⟨_, hlower.symm⟩ fun b hb hbegins => ?_
  rw [Begins, hlower] at hbegins
  rcases Nat.lt_or_ge (spelling b).toList.length (spelling a).toList.length with hlt | hge
  · exact .inl hlt
  · right
    obtain ⟨tail, htail⟩ := List.prefix_of_prefix_length_le (List.prefix_append _ _) hbegins hge
    cases tail with
    | nil => exact hinj b hb (String.toList_inj.1 (by simpa using htail.symm))
    | cons c tail =>
        rw [← htail, List.prefix_append_right_inj] at hbegins
        cases more with
        | nil => cases List.prefix_nil.1 hbegins
        | cons d more =>
            rw [List.map_cons, List.cons_prefix_cons] at hbegins
            refine absurd ⟨tail, ?_⟩ (hmore d rfl b hb)
            rw [← hbegins.1, List.append_assoc, List.singleton_append, htail]

/-- A character in none of the spellings ends the walk. -/
theorem longestFrom_append (h : ∀ x ∈ live, c.toLower ∉ x.2) :
    longestFrom best live (cs ++ c :: more) = longestFrom best live cs := by
  induction cs generalizing best live with
  | nil =>
      cases live with
      | nil => rfl
      | cons x live =>
          have hnarrow : narrow c (x :: live) = [] := by
            refine List.eq_nil_iff_forall_not_mem.2 fun y hy => ?_
            exact h _ (mem_narrow.1 hy) List.mem_cons_self
          simp [longestFrom, hnarrow]
  | cons d cs ih =>
      cases live with
      | nil => rfl
      | cons x live =>
          rw [List.cons_append, longestFrom, longestFrom]
          refine ih fun y hy hmem => ?_
          exact h _ (mem_narrow.1 (List.mem_filter.1 hy).1) (List.mem_cons_of_mem _ hmem)

theorem longestMatch_append {spelling : α → String} {options : List α} (hcs : cs ≠ [])
    (h : ∀ b ∈ options, c.toLower ∉ (spelling b).toList.tail) :
    longestMatch spelling options (cs ++ c :: more) = longestMatch spelling options cs := by
  cases cs with
  | nil => exact absurd rfl hcs
  | cons d cs =>
      unfold longestMatch
      generalize hlive : options.map (fun a => (a, (spelling a).toList)) = live
      cases live with
      | nil => rfl
      | cons x live =>
          rw [List.cons_append, longestFrom, longestFrom]
          refine longestFrom_append fun y hy => ?_
          have hmem := mem_narrow.1 (List.mem_filter.1 hy).1
          rw [← hlive] at hmem
          obtain ⟨b, hb, heq⟩ := List.mem_map.1 hmem
          have htail := h b hb
          rw [(Prod.mk.inj heq).2] at htail
          exact htail

end SqlStore.Text
