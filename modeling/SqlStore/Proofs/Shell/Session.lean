import SqlStore.Proofs.History
import SqlStore.Proofs.Shell.Script
import SqlStore.Proofs.Text.Blank
import SqlStore.Proofs.Text.Utf8

/-!
# Sessions and runs

A session cuts its input at the line feeds and trims each line. Up to the first line that asks to quit or is no text,
the lines that are not blank are the source texts of runs, one after another, each on the database that the runs before
it leave (`refines_run`).
-/

namespace SqlStore.Shell

open Text Text.Utf8

variable {db : Database} {line input : List UInt8} {lines : List (List UInt8)} {text : String}

/-! ## Lines -/

/-- The bytes between the line feeds of an input. What follows the last line feed is a line unless it is empty. -/
inductive Lines : List UInt8 → List (List UInt8) → Prop
  | nil : Lines [] []
  | last {line : List UInt8} (h : 10 ∉ line) (hne : line ≠ []) : Lines line [line]
  | cons {line rest : List UInt8} {lines : List (List UInt8)} (h : 10 ∉ line) (hs : Lines rest lines) :
      Lines (line ++ 10 :: rest) (line :: lines)

theorem exists_lines (input : List UInt8) : ∃ lines, Lines input lines := by
  induction input with
  | nil => exact ⟨[], .nil⟩
  | cons b input ih =>
      obtain ⟨lines, hlines⟩ := ih
      -- a line feed ends an empty line; any other byte goes to the front of the first line
      by_cases hb : b = 10
      · subst hb
        exact ⟨[] :: lines, .cons List.not_mem_nil hlines⟩
      · have hcons : ∀ {line : List UInt8}, 10 ∉ line → 10 ∉ b :: line := by
          intro line hline
          rw [List.mem_cons, not_or]
          exact ⟨Ne.symm hb, hline⟩
        cases hlines with
        | nil => exact ⟨[[b]], .last (hcons List.not_mem_nil) (List.cons_ne_nil b [])⟩
        | last hline hne => exact ⟨[b :: input], .last (hcons hline) (List.cons_ne_nil b input)⟩
        | cons hline hs => exact ⟨_, .cons (hcons hline) hs⟩

theorem inputLines_append (h : 10 ∉ line) (rest : List UInt8) :
    inputLines (line ++ 10 :: rest) = (line ++ [10]) :: inputLines rest := by
  induction line with
  | nil => rfl
  | cons b line ih =>
      obtain ⟨hb, hline⟩ := not_or.1 (mt List.mem_cons.2 h)
      rw [List.cons_append, inputLines, if_neg (Ne.symm hb), ih hline]
      rfl

theorem inputLines_of_not_mem (h : 10 ∉ line) (hne : line ≠ []) : inputLines line = [line] := by
  induction line with
  | nil => exact absurd rfl hne
  | cons b line ih =>
      obtain ⟨hb, hline⟩ := not_or.1 (mt List.mem_cons.2 h)
      rw [inputLines, if_neg (Ne.symm hb)]
      cases line with
      | nil => rfl
      | cons c line => rw [ih hline (List.cons_ne_nil c line)]

/-! ## One line -/

/-- The line is the UTF-8 form of some text. -/
def IsText (line : List UInt8) : Prop := ∃ cs, line = encode cs

/-- The line is the UTF-8 form of the text with blanks around it, and the text itself neither begins nor ends with a
blank. -/
def Carries (line : List UInt8) (text : String) : Prop := ∃ cs, line = encode cs ∧ Trimmed cs text.toList

/-- The texts that end a session. -/
def quitTexts : List String := ["quit", "exit", "\\q"]

/-- What a line does, by the text it carries. -/
inductive Heeds (db : Database) (line : List UInt8) : Step → Prop
  | invalid (h : ¬ IsText line) : Heeds db line (.stop .invalidText)
  | quit {text : String} (h : Carries line text) (hquit : text ∈ quitTexts) : Heeds db line (.stop .finished)
  | nothing (h : Carries line "") : Heeds db line (.proceed ⟨"", true, db, []⟩)
  | execute {text : String} (h : Carries line text) (hne : text ≠ "") (hquit : text ∉ quitTexts) :
      Heeds db line (.proceed (executeSource db text))

theorem mem_quitTexts_iff (cs : List Char) :
    cs ∈ ["quit".toList, "exit".toList, "\\q".toList] ↔ String.ofList cs ∈ quitTexts := by
  have hinj : ∀ text : String, cs = text.toList ↔ String.ofList cs = text := fun text => by
    rw [← String.toList_inj, String.toList_ofList]
  simp only [quitTexts, List.mem_cons, List.not_mem_nil, hinj]

theorem heeds_step (db : Database) (line : List UInt8) : Heeds db line (step db line) := by
  rw [step]
  cases hline : decode? line with
  | none =>
      refine .invalid ?_
      rintro ⟨cs, hcs⟩
      rw [decode?_eq_some_iff.2 hcs] at hline
      cases hline
  | some cs =>
      have hcarries : Carries line (String.ofList (trim cs)) :=
        ⟨cs, decode?_eq_some_iff.1 hline, trim_eq_iff.1 String.toList_ofList.symm⟩
      simp only [Request.ofText, mem_quitTexts_iff, List.isEmpty_iff]
      by_cases hquit : String.ofList (trim cs) ∈ quitTexts
      · rw [if_pos hquit]
        exact .quit hcarries hquit
      · rw [if_neg hquit]
        by_cases hnil : trim cs = []
        · rw [if_pos hnil]
          rw [hnil] at hcarries
          exact .nothing hcarries
        · rw [if_neg hnil]
          exact .execute hcarries (mt String.ofList_eq_empty_iff.1 hnil) hquit

/-- A line feed at the end of a line is a blank like others. -/
theorem step_append_lineFeed (db : Database) (line : List UInt8) : step db (line ++ [10]) = step db line := by
  rw [step, step, decode?_append_lineFeed]
  cases decode? line with
  | none => rfl
  | some cs =>
      have hblank : ∀ c ∈ ['\n'], isBlank c = true := List.forall_mem_singleton.2 (by decide)
      have htrim : trim (cs ++ ['\n']) = trim cs := trim_eq_iff.2 ((trim_eq_iff.1 rfl).append hblank)
      simp only [Option.map_some, Request.ofText, htrim]

/-! ## Sessions -/

theorem follow_inputLines (prompt : String) (h : Lines input lines) (db : Database) :
    follow prompt db (inputLines input) = follow prompt db lines := by
  induction h generalizing db with
  | nil => rfl
  | last h hne => rw [inputLines_of_not_mem h hne]
  | cons h _ ih => simp only [inputLines_append h, follow, step_append_lineFeed, ih]

/-- What is printed for texts that are run one after another. Nothing is run or printed for an empty one. -/
inductive PrintsEach : Database → List String → List String → Prop
  | nil (db : Database) : PrintsEach db [] []
  | nothing {db : Database} {texts outputs : List String} (hs : PrintsEach db texts outputs) :
      PrintsEach db ("" :: texts) ("" :: outputs)
  | run {db : Database} {text output : String} {texts outputs : List String} (hne : text ≠ "")
      (h : Prints db text output) (hs : PrintsEach (db.run text).state texts outputs) :
      PrintsEach db (text :: texts) (output :: outputs)

/-- How a session goes over lines. Those it takes carry the texts that are run, and it ends before the first of the
rest, which asks to quit or is no text, or at the end of the lines. -/
structure Course (db : Database) (session : Session) (taken rest : List (List UInt8)) (texts outputs : List String) :
    Prop where
  carries : List.Forall₂ Carries taken texts
  continues : ∀ text ∈ texts, text ∉ quitTexts
  stops : ∀ line ∈ rest.head?, ¬ IsText line ∨ ∃ text ∈ quitTexts, Carries line text
  ending : session.ending = .invalidText ↔ ∃ line ∈ rest.head?, ¬ IsText line
  database : session.database = db.runAll (texts.filter (· ≠ ""))
  prints : PrintsEach db texts outputs

theorem Carries.isText (h : Carries line text) : IsText line := by
  obtain ⟨cs, hcs, -⟩ := h
  exact ⟨cs, hcs⟩

/-- At the first line that ends it, a session has run and printed nothing. -/
theorem Course.stopped {session : Session} (h : ¬ IsText line ∨ ∃ text ∈ quitTexts, Carries line text)
    (hending : session.ending = .invalidText ↔ ¬ IsText line) (hdatabase : session.database = db) :
    Course db session [] (line :: lines) [] [] where
  carries := .nil
  continues := nofun
  stops := by
    rintro _ ⟨⟩
    exact h
  ending := by simpa using hending
  database := hdatabase
  prints := .nil db

theorem follow_course (prompt : String) (db : Database) (lines : List (List UInt8)) :
    ∃ taken rest texts outputs, lines = taken ++ rest ∧ Course db (follow prompt db lines) taken rest texts outputs ∧
      (follow prompt db lines).output = String.join (outputs.map (prompt ++ ·)) ++ prompt := by
  -- on the lines, for every database, since a line that is run leaves another one
  induction lines generalizing db with
  | nil => exact ⟨[], [], [], [], rfl, ⟨.nil, nofun, nofun, by simp [follow], rfl, .nil db⟩, by simp [follow]⟩
  | cons line lines ih =>
      rw [follow]
      have hstep := heeds_step db line
      generalize step db line = made at hstep
      cases hstep with
      | invalid h =>
          exact ⟨[], line :: lines, [], [], rfl, .stopped (.inl h) (by simp [h]) rfl, by simp⟩
      | quit h hquit =>
          exact ⟨[], line :: lines, [], [], rfl, .stopped (.inr ⟨_, hquit, h⟩) (by simp [h.isText]) rfl, by simp⟩
      | nothing h =>
          obtain ⟨taken, rest, texts, outputs, rfl, hcourse, houtput⟩ := ih db
          refine ⟨line :: taken, rest, "" :: texts, "" :: outputs, rfl, ⟨.cons h hcourse.carries, ?_, hcourse.stops,
            hcourse.ending, ?_, .nothing hcourse.prints⟩, ?_⟩
          · exact List.forall_mem_cons.2 ⟨by decide, hcourse.continues⟩
          · simpa using hcourse.database
          · simp [houtput, String.append_assoc]
      | @execute text h hne hquit =>
          obtain ⟨hdatabase, -, hprints⟩ := refines_executeSource db text
          obtain ⟨taken, rest, texts, outputs, rfl, hcourse, houtput⟩ := ih (db.run text).state
          rw [← hdatabase] at hcourse houtput
          refine ⟨line :: taken, rest, text :: texts, _ :: outputs, rfl, ⟨.cons h hcourse.carries, ?_, hcourse.stops,
            hcourse.ending, ?_, .run hne hprints (hdatabase ▸ hcourse.prints)⟩, ?_⟩
          · exact List.forall_mem_cons.2 ⟨hquit, hcourse.continues⟩
          · simpa [hne, hdatabase, Database.runAll_cons] using hcourse.database
          · simp [houtput, String.append_assoc]

/-- A session and the runs of its lines: a source text is answered as the run of it is, and the lines of an input up to
the first that asks to quit or is no text are run one after another, after trimming and but for the blank ones. It
ends without an error unless that first line is no text. -/
theorem run_refines :
    (∀ db source, Refines db source (executeSource db source)) ∧
    ∀ prompt db input, ∃ taken rest texts outputs,
      Lines input (taken ++ rest) ∧ Course db (run prompt db input) taken rest texts outputs ∧
      (run prompt db input).output = greeting ++ String.join (outputs.map (prompt ++ ·)) ++ prompt := by
  refine ⟨refines_executeSource, fun prompt db input => ?_⟩
  obtain ⟨lines, hlines⟩ := exists_lines input
  obtain ⟨taken, rest, texts, outputs, rfl, hcourse, houtput⟩ := follow_course prompt db lines
  rw [← follow_inputLines prompt hlines] at hcourse houtput
  refine ⟨taken, rest, texts, outputs, hlines, { hcourse with }, ?_⟩
  rw [run, houtput, String.append_assoc]

/-- An error does not end a session, a blank line asks for nothing, and nothing is read after `quit`. -/
example : (run "# " .empty (encode "drop table t\n \n select 1\nquit\nselect 2".toList)).output =
    "Welcome to tinysql.\n# Error dropping table: Table does not exist: t\n" ++
      "# # ?column?\n--------\n1\n(1 result)\nok\n# " := by
  decide +kernel

end SqlStore.Shell
