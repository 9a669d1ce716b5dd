import GraphQLCheck.Command.Arguments
import GraphQLCheck.IntrospectionQuery
import GraphQLCheck.Report
import GraphQLCheck.Schema.Builder
import GraphQLCheck.Text.Blank

/-!
# Running commands

`Command.run` carries a command out on the files there are. What a run says does not depend on
anything else, and its exit code is zero exactly if it succeeds.
-/

namespace GraphQLCheck

/-- What a run comes to: whether it succeeds, and what it prints. -/
structure RunResult where
  succeeded : Bool
  stdout : Option String
  stderr : Option String
deriving DecidableEq, Repr

namespace RunResult

/-- The exit code of a run. -/
def exitCode (r : RunResult) : UInt32 := if r.succeeded then 0 else 1

/-- A run that cannot do what it is asked for. -/
def failure (message : String) : RunResult := ⟨false, none, some message⟩

end RunResult

/-- The mark of a success. -/
def checkMark : String := "✅"

/-- The mark of a failure. -/
def crossMark : String := "❌"

/-- Lines between two brackets, indented. -/
def bracketLines (opening closing : String) (lines : List String) : String :=
  String.intercalate "\n" (opening :: lines.map ("    " ++ ·) ++ [closing])

/-- An error of building the schema, as it is shown: its kind, then what is known about it. -/
def BuildError.dump (e : BuildError) : String :=
  match e with
  | .noQueryType => e.label
  | .unreadableFile _ => bracketLines (e.label ++ "(") ")" [e.message]
  | _ => bracketLines (e.label ++ " \x7b") "\x7d" (e.message :: e.locations.map (·.text))

namespace ValidationRequest

/-- The number of all errors in some reports. -/
def errorCount (reports : List FileReport) : Nat := (reports.flatMap (·.errors)).length

/-- The text that is printed if no file has an error. -/
def successText (validated skipped : Nat) : String :=
  s!"{checkMark} All GraphQL operations validated successfully:\n" ++
    s!"  * Validated {validated} files.\n" ++
    s!"  * Skipped {skipped} non-graphql files."

/-- The text that is printed if some file has an error. -/
def failureText (reports : List FileReport) : String :=
  let bad := (reports.filter fun r => !r.errors.isEmpty).length
  s!"{FileReport.render reports}\n" ++
    s!"{crossMark} {errorCount reports} validation errors in {bad} files."

/-- What is printed about the files that were found, or why nothing can be. -/
def output (json : Bool) (reports : List FileReport) (skipped : Nat) : Except String String :=
  if json then FileReport.writeJson reports
  else if errorCount reports = 0 then .ok (successText reports.length skipped)
  else .ok (failureText reports)

/-- What a run that looked at all files comes to. -/
def conclude (json : Bool) (reports : List FileReport) (skipped : Nat) : RunResult :=
  match output json reports skipped with
  | .ok text => ⟨errorCount reports = 0, some text, none⟩
  | .error reason => .failure s!"{crossMark} Failed to serialize report: {reason}"

/-- Carries a request out: builds the schema, searches for the files, and looks at each of them. -/
def run (fs : FileSystem) (r : ValidationRequest) : RunResult :=
  match Schema.ofFiles fs r.schemas with
  | .error e => .failure s!"{crossMark} Errors building schema: {e.dump}"
  | .ok schema =>
    let found := fs.collect r.paths (normalizeExtensions r.extensions)
    if found.missing = [] then
      conclude r.json (found.files.map (FileReport.ofFile schema)) found.skipped
    else
      let lines := found.missing.map fun p => Findings.missingMessage p ++ ","
      .failure (s!"{crossMark} Errors scanning input paths: " ++ bracketLines "[" "]" lines)

end ValidationRequest

/-- Carries a command out. -/
def Command.run (fs : FileSystem) : Command → RunResult
  | introspectionQuery => ⟨true, some (trimBlanks GraphQLCheck.introspectionQuery), none⟩
  | validate request => request.run fs

end GraphQLCheck
