import GraphQLCheck.Files.Collection
import GraphQLCheck.Language.Reading.Document
import GraphQLCheck.Text.Json
import GraphQLCheck.Validation.Validate

/-!
# Reports

A `FileReport` lists what is wrong with one file. Reports are shown in two ways, with the same
errors in the same order: as lines of text, or as JSON.
-/

namespace GraphQLCheck

/-- Something wrong with a file, and the places where it is. -/
structure ReportedError where
  locations : List Position
  message : String
deriving DecidableEq, Repr

/-- All that is wrong with a file. -/
structure FileReport where
  errors : List ReportedError
  path : Path
deriving DecidableEq, Repr

namespace FileReport

/-- The report on a file that could not be looked at, which has a single error without a place. -/
def failed (path : Path) (message : String) : FileReport := ⟨[⟨[], message⟩], path⟩

/-- What is wrong with a document that stands at `path`. -/
def ofDocument (s : Schema) (path : Path) (content : String) : FileReport :=
  match Document.read content with
  | .error place =>
    failed path s!"parsing {path.text}: query parse error: Parse error at {place.text}"
  | .ok doc => ⟨(s.validate doc).map fun e => ⟨e.locations, e.message⟩, path⟩

/-- What is wrong with a file that was found. -/
def ofFile (s : Schema) (f : FoundFile) : FileReport :=
  match String.fromUTF8? f.content with
  | some content => ofDocument s f.path content
  | none => failed f.path s!"Failed to read file: {ReadError.invalidUtf8Reason}"

/-- The line about one error: the path, the first place if there is one, and the message. -/
def line (path : Path) (e : ReportedError) : String :=
  match e.locations with
  | place :: _ => s!"{path.text}:{place.text}: {e.message}"
  | [] => s!"{path.text}: {e.message}"

/-- The lines of a report, one for each error. -/
def lines (r : FileReport) : List String := r.errors.map (line r.path)

/-- The text of some reports. -/
def render (reports : List FileReport) : String :=
  String.intercalate "\n" (reports.flatMap lines)

/-- A place as JSON. -/
def positionJson (p : Position) : Json :=
  .object [("column", .number p.column), ("line", .number p.line)]

/-- An error as JSON. -/
def errorJson (e : ReportedError) : Json :=
  .object [("locations", .array (e.locations.map positionJson)), ("message", .string e.message)]

/-- A report as JSON, with the path as it is shown. -/
def json (r : FileReport) : Json :=
  .object [("errors", .array (r.errors.map errorJson)), ("path", .string r.path.text)]

/-- The JSON text of some reports. -/
def renderJson (reports : List FileReport) : String := (Json.array (reports.map json)).text

/-- Why reports cannot be written as JSON. -/
def notTextReason : String := "path contains invalid UTF-8 characters"

/-- Writes reports as JSON, which holds only paths that are texts. -/
def writeJson (reports : List FileReport) : Except String String :=
  if reports.all (·.path.isText) then .ok (renderJson reports) else .error notTextReason

end FileReport

end GraphQLCheck
