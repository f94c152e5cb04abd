import SqlStore.Error

/-!
# Log

What the store reports besides its answers, as data, and computations that report while they run. The reports
never decide a result: `result_bind` gives the result of two steps from the results of each.
-/

namespace SqlStore

inductive LogLevel
  | warn
  | debug
  | trace
deriving DecidableEq

namespace LogLevel

def name : LogLevel → String
  | .warn => "WARN"
  | .debug => "DEBUG"
  | .trace => "TRACE"

end LogLevel

/-- Something worth reporting. -/
inductive Event
  | corruptedInt (bytes : List UInt8)
  | skippedValue (value : Expr)
  | created (table : String) (columns : Nat)
  | inserted (row : Nat) (table : String)
  | selected (shown total : Nat) (source : Option String)
  | dropped (table : String)
deriving DecidableEq

namespace Event

def level : Event → LogLevel
  | .corruptedInt _ | .skippedValue _ => .warn
  | .created .. | .selected .. | .dropped _ => .debug
  | .inserted .. => .trace

def message : Event → String
  | .corruptedInt bytes =>
      "corrupted int cell [" ++ ", ".intercalate (bytes.map fun b => toString b.toNat) ++ "]"
  | .skippedValue value => "skipping non-literal insert value " ++ value.render
  | .created table columns => "created table " ++ table ++ " with " ++ toString columns ++ " columns"
  | .inserted row table => "inserted row " ++ toString row ++ " into " ++ table
  | .selected shown total source =>
      "selected " ++ toString shown ++ " of " ++ toString total ++ " rows from " ++ source.getD "<none>"
  | .dropped table => "dropped table " ++ table

/-- The event with its level in front. -/
def render (e : Event) : String :=
  e.level.name ++ " " ++ e.message

end Event

/-- A result or an error, and what was reported on the way to it. -/
structure Logged (ε α : Type) where
  result : Except ε α
  log : List Event

namespace Logged

variable {ε α β : Type}

instance : Monad (Logged ε) where
  pure a := ⟨.ok a, []⟩
  bind x f :=
    match x.result with
    | .ok a => let y := f a; ⟨y.result, x.log ++ y.log⟩
    | .error e => ⟨.error e, x.log⟩

/-- Reports something. -/
def report (events : List Event) : Logged ε Unit := ⟨.ok (), events⟩

/-- A result that comes without reports. -/
def ofExcept (x : Except ε α) : Logged ε α := ⟨x, []⟩

def fail (e : ε) : Logged ε α := ⟨.error e, []⟩

@[simp] theorem result_pure (a : α) : (pure a : Logged ε α).result = .ok a := rfl

@[simp] theorem result_ofExcept (x : Except ε α) : (ofExcept x).result = x := rfl

@[simp] theorem result_fail (e : ε) : (fail e : Logged ε α).result = .error e := rfl

@[simp] theorem result_report (events : List Event) : (report events : Logged ε Unit).result = .ok () := rfl

@[simp] theorem result_bind (x : Logged ε α) (f : α → Logged ε β) :
    (x >>= f).result = (x.result >>= fun a => (f a).result) := by
  obtain ⟨result, log⟩ := x
  cases result <;> rfl

theorem map_id (x : Logged ε α) : id <$> x = x := by
  obtain ⟨result, log⟩ := x
  cases result <;> simp [Functor.map]

theorem bind_assoc {γ : Type} (x : Logged ε α) (f : α → Logged ε β) (g : β → Logged ε γ) :
    (x >>= f) >>= g = x >>= fun a => f a >>= g := by
  obtain ⟨result, log⟩ := x
  cases result with
  | error e => rfl
  | ok a =>
      simp only [bind]
      cases (f a).result <;> simp

instance : LawfulMonad (Logged ε) :=
  LawfulMonad.mk' (Logged ε) map_id (fun _ _ => rfl) bind_assoc

@[simp] theorem result_map (f : α → β) (x : Logged ε α) : (f <$> x).result = f <$> x.result := by
  rw [← bind_pure_comp, result_bind]
  obtain ⟨result, log⟩ := x
  cases result <;> rfl

@[simp] theorem result_mapM {γ : Type} (f : γ → Logged ε α) (xs : List γ) :
    (xs.mapM f).result = xs.mapM fun x => (f x).result := by
  induction xs with
  | nil => rfl
  | cons x xs ih => simp [ih]

end Logged

end SqlStore
