import Mathlib.Data.List.Forall2
import SqlStore.Reading.Basic

/-!
# Steps in sequence

A computation over a list succeeds where each of its steps does, and otherwise fails as the first that fails.
-/

namespace SqlStore

open Reading

/-- A failure of two steps is a failure of the first, or of the second after a success of the first. -/
theorem exists_of_bind_eq_error {ε α β : Type} {x : Except ε α} {f : α → Except ε β} {e : ε}
    (h : (x >>= f) = .error e) : x = .error e ∨ ∃ a, x = .ok a ∧ f a = .error e := by
  cases x with
  | error e' =>
      cases h
      exact .inl rfl
  | ok a => exact .inr ⟨a, rfl, h⟩

theorem exists_of_map_eq_ok {ε α β : Type} {x : Except ε α} {f : α → β} {b : β} (h : x.map f = .ok b) :
    ∃ a, x = .ok a ∧ f a = b := by
  cases x with
  | error e => cases h
  | ok a => exact ⟨a, rfl, Except.ok.inj h⟩

theorem map_eq_error_iff {ε α β : Type} {x : Except ε α} {f : α → β} {e : ε} : x.map f = .error e ↔ x = .error e := by
  cases x <;> simp [Except.map]

/-- Results with the same successes are the same but for their errors. -/
theorem toOption_eq_of_ok_iff {ε α : Type} {x y : Except ε α} (h : ∀ a, x = .ok a ↔ y = .ok a) :
    x.toOption = y.toOption := by
  cases x with
  | ok a => rw [(h a).1 rfl]
  | error e =>
      cases y with
      | ok a => cases (h a).2 rfl
      | error e' => rfl

theorem mapM_eq_ok_iff {ε α β : Type} {f : α → Except ε β} {as : List α} {bs : List β} :
    as.mapM f = .ok bs ↔ List.Forall₂ (fun a b => f a = .ok b) as bs := by
  constructor
  · intro h
    induction as generalizing bs with
    | nil =>
        cases h
        exact .nil
    | cons a as ih =>
        rw [List.mapM_cons] at h
        obtain ⟨b, hb, h⟩ := exists_of_bind_eq_ok h
        obtain ⟨bs, hbs, h⟩ := exists_of_bind_eq_ok h
        cases h
        exact .cons hb (ih hbs)
  · intro h
    induction h with
    | nil => rfl
    | cons hab _ ih =>
        rw [List.mapM_cons, hab, ih]
        rfl

/-- The first entry on which the step fails, and with which error. -/
def FirstFails {ε α β : Type} (f : α → Except ε β) (as : List α) (e : ε) : Prop :=
  ∃ before a after, as = before ++ a :: after ∧ (∀ b ∈ before, ∃ c, f b = .ok c) ∧ f a = .error e

/-- What is made of the successes has no say in which step fails. -/
theorem firstFails_map {ε α β γ : Type} {f : α → Except ε β} {g : α → β → γ} {as : List α} {e : ε} :
    FirstFails (fun a => (f a).map (g a)) as e ↔ FirstFails f as e := by
  have hok : ∀ a, (∃ c, (f a).map (g a) = .ok c) ↔ ∃ b, f a = .ok b := by
    intro a
    cases f a <;> simp [Except.map]
  simp only [FirstFails, hok, map_eq_error_iff]

theorem mapM_eq_error_iff {ε α β : Type} {f : α → Except ε β} {as : List α} {e : ε} :
    as.mapM f = .error e ↔ FirstFails f as e := by
  constructor
  · intro h
    induction as with
    | nil => cases h
    | cons a as ih =>
        rw [List.mapM_cons] at h
        obtain ha | ⟨b, hb, h⟩ := exists_of_bind_eq_error h
        · exact ⟨[], a, as, rfl, by simp, ha⟩
        obtain has | ⟨bs, -, h⟩ := exists_of_bind_eq_error h
        · obtain ⟨before, a', after, hsplit, hbefore, ha'⟩ := ih has
          exact ⟨a :: before, a', after, congrArg _ hsplit, List.forall_mem_cons.2 ⟨⟨b, hb⟩, hbefore⟩, ha'⟩
        · cases h
  · rintro ⟨before, a, after, rfl, hbefore, ha⟩
    induction before with
    | nil =>
        rw [List.nil_append, List.mapM_cons, ha]
        rfl
    | cons b before ih =>
        obtain ⟨⟨c, hc⟩, hrest⟩ := List.forall_mem_cons.1 hbefore
        rw [List.cons_append, List.mapM_cons, hc, ih hrest]
        rfl

/-- Steps that are the same on each entry are the same in sequence. -/
theorem mapM_congr_left {m : Type → Type} [Monad m] [LawfulMonad m] {α β : Type} {f g : α → m β} {as : List α}
    (h : ∀ a ∈ as, f a = g a) : as.mapM f = as.mapM g := by
  induction as with
  | nil => rfl
  | cons a as ih =>
      obtain ⟨ha, has⟩ := List.forall_mem_cons.1 h
      rw [List.mapM_cons, List.mapM_cons, ha, ih has]

theorem exists_forall₂_iff {α β : Type} {R : α → β → Prop} {as : List α} :
    (∃ bs, List.Forall₂ R as bs) ↔ ∀ a ∈ as, ∃ b, R a b := by
  constructor
  · rintro ⟨bs, h⟩
    induction h with
    | nil => simp
    | cons hab _ ih => exact List.forall_mem_cons.2 ⟨⟨_, hab⟩, ih⟩
  · intro h
    induction as with
    | nil => exact ⟨[], .nil⟩
    | cons a as ih =>
        obtain ⟨⟨b, hb⟩, hrest⟩ := List.forall_mem_cons.1 h
        obtain ⟨bs, hbs⟩ := ih hrest
        exact ⟨b :: bs, .cons hb hbs⟩

theorem forall₂_filterMap {α β : Type} {R : α → β → Prop} {f : α → Option β} {as : List α}
    (h : ∀ a ∈ as, ∃ b, f a = some b ∧ R a b) : List.Forall₂ R as (as.filterMap f) := by
  induction as with
  | nil => exact .nil
  | cons a as ih =>
      obtain ⟨⟨b, hb, hab⟩, has⟩ := List.forall_mem_cons.1 h
      rw [List.filterMap_cons_some hb]
      exact .cons hab (ih has)

theorem exists_append_of_forall₂ {α β : Type} {R : α → β → Prop} {as more : List α} {bs : List β}
    (h : List.Forall₂ R (as ++ more) bs) :
    ∃ cs ds, bs = cs ++ ds ∧ List.Forall₂ R as cs ∧ List.Forall₂ R more ds := by
  refine ⟨_, _, (List.take_append_drop as.length bs).symm, ?_, ?_⟩
  · simpa using List.forall₂_take as.length h
  · simpa using List.forall₂_drop as.length h

theorem forall_mem_of_forall₂ {α β : Type} {R : α → β → Prop} {P : β → Prop} {as : List α} {bs : List β}
    (h : List.Forall₂ R as bs) (hR : ∀ a ∈ as, ∀ b, R a b → P b) : ∀ b ∈ bs, P b := by
  induction h with
  | nil => simp
  | cons hab _ ih =>
      obtain ⟨ha, has⟩ := List.forall_mem_cons.1 hR
      exact List.forall_mem_cons.2 ⟨ha _ hab, ih has⟩

/-! ## Results without an error -/

/-- The result is not this error; it may be another. -/
def Avoids {ε α : Type} (e : ε) (x : Except ε α) : Prop := x ≠ .error e

section

variable {ε α β : Type} {e : ε} {x : Except ε α}

theorem avoids_ok (a : α) : Avoids e (.ok a) := nofun

theorem Avoids.bind {f : α → Except ε β} (hx : Avoids e x) (hf : ∀ a, Avoids e (f a)) : Avoids e (x >>= f) := by
  intro h
  rcases exists_of_bind_eq_error h with h | ⟨a, -, h⟩
  · exact hx h
  · exact hf a h

theorem Avoids.map (hx : Avoids e x) (f : α → β) : Avoids e (x.map f) := fun h => hx (map_eq_error_iff.1 h)

end

end SqlStore
