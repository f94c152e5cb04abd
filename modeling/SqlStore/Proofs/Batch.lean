import SqlStore.Proofs.Placement
import SqlStore.Proofs.Token.Join

/-!
# Batches

Two source texts with a semicolon and a line break between them run as the first and, if it succeeds, the second
(`Database.run_batch`).
-/

namespace SqlStore

namespace Effect

variable {σ ε ε' α : Type}

/-- The answers of one run, and those of another on the state that it leaves, if it succeeds. -/
def andThen (x : Effect σ ε (List α)) (next : σ → Effect σ ε (List α)) : Effect σ ε (List α) :=
  match x.result with
  | .error e => ⟨.error e, x.state, x.log⟩
  | .ok answers =>
      let y := next x.state
      ⟨y.result.map (answers ++ ·), y.state, x.log ++ y.log⟩

end Effect

theorem keepsLexemes_down (lines : Nat) : KeepsLexemes (Token.down lines) := fun _ => rfl

/-! ## Scripts -/

namespace Script

/-- Any number of semicolons can stand between two scripts, as long as it is not none. -/
theorem Rendering.append {script script' : Script} {ts ss us : List Token} (h : Rendering script ts)
    (hne : script ≠ []) (hs : Semicolons ss) (hss : ss ≠ []) (h' : Rendering script' us) :
    Rendering (script ++ script') (ts ++ (ss ++ us)) := by
  induction h with
  | nil => exact absurd rfl hne
  | @last statement ts trailing h htrailing =>
      -- semicolons at the end of the first script and those after it are one run of semicolons
      have hboth : Semicolons (trailing ++ ss) := fun t ht => (List.mem_append.1 ht).elim (htrailing t) (hs t)
      rw [List.append_assoc, ← List.append_assoc trailing]
      exact h'.prepend h hboth (by simp [hss])
  | cons h hbetween hbetween_ne _ ih =>
      rw [List.append_assoc, List.append_assoc]
      exact .cons h hbetween hbetween_ne (ih (List.cons_ne_nil _ _))

/-- A semicolon and a line break put the statements of one script after those of another, with their tokens as many
lines further down as the first text has lines. -/
theorem ofSource_append {source₁ source₂ : String} {script₁ script₂ : Script}
    (h₁ : ofSource source₁ = .ok script₁) (h₂ : ofSource source₂ = .ok script₂) (hne : script₁ ≠ []) :
    ofSource (source₁ ++ ";\n" ++ source₂) =
      .ok (script₁ ++ script₂.map (·.mapTokens (Token.down (source₁.toList.count '\n' + 1)))) := by
  obtain ⟨tokens₁, htokens₁, hscript₁⟩ := ofSource_eq_ok_iff.1 h₁
  obtain ⟨tokens₂, htokens₂, hscript₂⟩ := ofSource_eq_ok_iff.1 h₂
  obtain ⟨semicolon, hsemicolon, hsource⟩ := Token.ofSource_semicolon htokens₁ htokens₂
  refine ofSource_eq_ok_iff.2 ⟨_, hsource, ?_⟩
  have hs : Semicolons [semicolon] := fun t ht => List.mem_singleton.1 ht ▸ hsemicolon
  exact hscript₁.append hne hs (List.cons_ne_nil _ _) (hscript₂.mapTokens (keepsLexemes_down _))

section

variable {σ α : Type} {step : σ → Statement → Effect σ StoreError α}

theorem run_append (s : σ) (script script' : Script) :
    run step s (script ++ script') = (run step s script).andThen fun s => run step s script' := by
  induction script generalizing s with
  | nil =>
      simp only [List.nil_append, run, Effect.andThen]
      cases hresult : (run step s script').result <;> simp [Except.map, ← hresult]
  | cons statement script ih =>
      rw [List.cons_append, run, run]
      cases hfirst : (step s statement).result with
      | error e => rfl
      | ok a =>
          simp only [ih, Effect.andThen]
          cases (run step (step s statement).state script).result with
          | error e => rfl
          | ok answers =>
              simp only [Except.map, List.append_assoc]
              cases (run step (run step (step s statement).state script).state script').result <;> rfl

theorem run_mapTokens {f : Token → Token}
    (hstep : ∀ s statement, (step s (statement.mapTokens f)).result = (step s statement).result ∧
      (step s (statement.mapTokens f)).state = (step s statement).state) (s : σ) (script : Script) :
    (run step s (script.map (·.mapTokens f))).result = (run step s script).result ∧
      (run step s (script.map (·.mapTokens f))).state = (run step s script).state := by
  induction script generalizing s with
  | nil => exact ⟨rfl, rfl⟩
  | cons statement script ih =>
      obtain ⟨hresult, hstate⟩ := hstep s statement
      rw [List.map_cons, run, run, hresult, hstate]
      cases (step s statement).result with
      | error e => exact ⟨rfl, rfl⟩
      | ok a => exact ⟨congrArg (·.map (a :: ·)) (ih _).1, (ih _).2⟩

end

end Script

/-! ## Databases -/

namespace Database

/-- A batch of two texts has the statements of both, and does what the first text does and then, if that succeeds,
what the second does. -/
theorem run_batch (db : Database) {source₁ source₂ : String} {script₁ script₂ : Script}
    (h₁ : Script.ofSource source₁ = .ok script₁) (h₂ : Script.ofSource source₂ = .ok script₂) (hne : script₁ ≠ []) :
    let batch := source₁ ++ ";\n" ++ source₂
    Script.ofSource batch =
        .ok (script₁ ++ script₂.map (·.mapTokens (Token.down (source₁.toList.count '\n' + 1)))) ∧
      (db.run batch).result = ((db.run source₁).andThen (·.run source₂)).result ∧
      (db.run batch).state = ((db.run source₁).andThen (·.run source₂)).state := by
  intro batch
  have hbatch : Script.ofSource batch = _ := Script.ofSource_append h₁ h₂ hne
  obtain ⟨hresult, hstate⟩ := run_of_ofSource db hbatch
  obtain ⟨hresult₁, hstate₁⟩ := run_of_ofSource db h₁
  refine ⟨hbatch, ?_⟩
  rw [hresult, hstate, Script.run_append, Effect.andThen, Effect.andThen, hresult₁, hstate₁]
  cases (Script.run execute db script₁).result with
  | error e => exact ⟨rfl, rfl⟩
  | ok outcomes =>
      generalize (Script.run execute db script₁).state = mid
      -- in the batch the second script has its tokens further down, which makes no difference on `mid`
      have hkeeps := keepsLexemes_down (source₁.toList.count '\n' + 1)
      have hmoved := Script.run_mapTokens (execute_mapTokens hkeeps) mid script₂
      have hsecond := run_of_ofSource mid h₂
      simp only [Except.mapError, hsecond, hmoved, and_true]
      cases (Script.run execute mid script₂).result <;> rfl

/-- The first text can end in semicolons of its own. -/
theorem run_batch_trailing_semicolons :
    let first := "create table t (a int);;"
    let second := "insert into t values (1)"
    (empty.run (first ++ ";\n" ++ second)).result = .ok [.created, .inserted] ∧
      (empty.run (first ++ ";\n" ++ second)).state.table? "t" = some ⟨⟨["a"], [.int]⟩, [[.ofInt 1]], none⟩ := by
  intro first second
  let token (l : Lexeme) (start stop : Nat) : Token := ⟨l, ⟨0, start⟩, ⟨0, stop⟩⟩
  have hfirst : Script.ofSource first = .ok [.create (token (.identifier "t") 13 14)
      [⟨token (.identifier "a") 16 17, token (.keyword .int) 18 21, false⟩]] := by
    decide +kernel
  have hsecond : Script.ofSource second =
      .ok [.insert (token (.identifier "t") 12 13) [.literal (token ⟨.numeric, "1"⟩ 22 23)]] := by
    decide +kernel
  obtain ⟨-, hresult, hstate⟩ := run_batch empty hfirst hsecond (List.cons_ne_nil _ _)
  rw [hresult, hstate]
  decide +kernel

end Database

end SqlStore
