/-!
# Longest match

Which of some spellings begins a text, by walking down the text with the spellings that still agree with it.
Letters of the text count as lower case.
-/

namespace SqlStore.Text

variable {α : Type}

/-- An option whose spelling agrees with the text so far, and the part of the spelling still to come. -/
abbrev Candidate (α : Type) := α × List Char

/-- The candidates that agree with one more character. -/
def narrow (c : Char) (live : List (Candidate α)) : List (Candidate α) :=
  live.filterMap fun
    | (a, w :: ws) => if w = c.toLower then some (a, ws) else none
    | (_, []) => none

/-- Walks on until the text ends or no candidate is left; `best` is the last candidate that was complete. -/
def longestFrom (best : Option α) : List (Candidate α) → List Char → Option α
  | [], _ => best
  | _ :: _, [] => best
  | live@(_ :: _), c :: cs =>
      let agreeing := narrow c live
      let complete := agreeing.find? fun (_, remaining) => remaining.isEmpty
      longestFrom ((complete.map Prod.fst).or best) (agreeing.filter fun (_, remaining) => !remaining.isEmpty) cs

/-- The option with the longest spelling that begins the text. -/
def longestMatch (spelling : α → String) (options : List α) (cs : List Char) : Option α :=
  longestFrom none (options.map fun a => (a, (spelling a).toList)) cs

end SqlStore.Text
