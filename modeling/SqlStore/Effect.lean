import SqlStore.Log
import SqlStore.Script

/-!
# Effects

An operation on a state as a value: its answer, the state it leaves and what it reports. A `Change` takes its steps
one after another on the state. Where one of them fails the steps before it are not taken back. A script runs its
statements in the same way and ends at the first that fails.
-/

namespace SqlStore

/-- What an operation answers, the state after it, and what it reports. -/
structure Effect (σ ε α : Type) where
  result : Except ε α
  state : σ
  log : List Event

namespace Effect

variable {σ τ ε ε' α β : Type}

/-- An answer that changes nothing. -/
def ofLogged (s : σ) (x : Logged ε α) : Effect σ ε α := ⟨x.result, s, x.log⟩

def map (f : α → β) (x : Effect σ ε α) : Effect σ ε β := ⟨x.result.map f, x.state, x.log⟩

def mapError (f : ε → ε') (x : Effect σ ε α) : Effect σ ε' α := ⟨x.result.mapError f, x.state, x.log⟩

def mapState (f : σ → τ) (x : Effect σ ε α) : Effect τ ε α := ⟨x.result, f x.state, x.log⟩

theorem result_map_eq_ok_iff {f : α → β} {x : Effect σ ε α} {b : β} :
    (x.map f).result = .ok b ↔ ∃ a, x.result = .ok a ∧ f a = b := by
  obtain ⟨result, state, log⟩ := x
  cases result <;> simp [map, Except.map]

theorem result_map_eq_error_iff {f : α → β} {x : Effect σ ε α} {e : ε} :
    (x.map f).result = .error e ↔ x.result = .error e := by
  obtain ⟨result, state, log⟩ := x
  cases result <;> simp [map, Except.map]

end Effect

/-- A computation that reads and writes a state. -/
def Change (σ ε α : Type) := σ → Effect σ ε α

namespace Change

variable {σ ε α : Type}

/-- The second step starts from the state that the first one leaves. An error of the first ends both, in this state. -/
instance : Monad (Change σ ε) where
  pure a := fun s => ⟨.ok a, s, []⟩
  bind x f := fun s =>
    let first := x s
    match first.result with
    | .error e => ⟨.error e, first.state, first.log⟩
    | .ok a =>
        let second := f a first.state
        ⟨second.result, second.state, first.log ++ second.log⟩

def get : Change σ ε σ := fun s => ⟨.ok s, s, []⟩

def set (s : σ) : Change σ ε Unit := fun _ => ⟨.ok (), s, []⟩

/-- A computation that has no part in the state. -/
def ofLogged (x : Logged ε α) : Change σ ε α := fun s => .ofLogged s x

def fail (e : ε) : Change σ ε α := ofLogged (.fail e)

def report (events : List Event) : Change σ ε Unit := ofLogged (.report events)

end Change

namespace Script

variable {σ α : Type}

/-- Runs every statement on the state that the ones before it leave. -/
def run (step : σ → Statement → Effect σ StoreError α) (s : σ) : Script → Effect σ StoreError (List α)
  | [] => ⟨.ok [], s, []⟩
  | statement :: others =>
      let first := step s statement
      match first.result with
      | .error e => ⟨.error e, first.state, first.log⟩
      | .ok a =>
          let rest := run step first.state others
          ⟨rest.result.map (a :: ·), rest.state, first.log ++ rest.log⟩

/-- Runs every statement of a source text, or none if it is no script. -/
def runSource (step : σ → Statement → Effect σ StoreError α) (s : σ) (source : String) :
    Effect σ Error (List α) :=
  match ofSource source with
  | .error e => ⟨.error (.source e), s, []⟩
  | .ok script => (run step s script).mapError .store

/-- Answers every statement, each of which has to be a selection, and keeps the last answer. -/
def lastAnswer (answer : Select → Logged StoreError α) (last : Option α) : Script → Logged StoreError α
  | [] =>
      match last with
      | some a => pure a
      | none => .fail .notAQuery
  | .select query :: others => do
      let a ← answer query
      lastAnswer answer (some a) others
  | _ :: _ => .fail .notAQuery

/-- The last answer to a source text made of selections. -/
def querySource (answer : Select → Logged StoreError α) (source : String) : Logged Error α :=
  match ofSource source with
  | .error e => .fail (.source e)
  | .ok script =>
      let x := lastAnswer answer none script
      ⟨x.result.mapError .store, x.log⟩

end Script

end SqlStore
