import GraphQLCheck.Proofs.Files.PathOrder
import GraphQLCheck.Proofs.Text.JsonText
import GraphQLCheck.Report
import Mathlib.Data.List.Forall2

/-!
# What reports list

`FileReport.About` says what may be reported of a file, and `FileReport.listed` lists the errors of
some reports, each with the path of its file. `FileReport.entryText` is what people read about one
error, `Json.reports?` reads reports back from JSON, and `FileReport.WrittenAs` says that a text is
JSON from which they are read back.

Main statements: the report on a file is about it (`FileReport.about_ofFile`), the text of reports
has one entry for each listed error (`FileReport.render_eq`), and reports whose paths are texts are
written as JSON from which just these reports can be read back (`FileReport.exists_writeJson`).
-/

namespace GraphQLCheck

section About

variable {s : Schema} {f : FoundFile} {r : FileReport}

/-- What may be reported of a file: a single error without a place if it is no text or cannot be
parsed, and else what the validation finds, in this order. -/
inductive FileReport.About (s : Schema) (f : FoundFile) : FileReport → Prop where
  | unreadable {message : String} (hcontent : String.fromUTF8? f.content = none) :
      About s f ⟨[⟨[], message⟩], f.path⟩
  | unparsable {message text : String} {place : Position}
      (hcontent : String.fromUTF8? f.content = some text)
      (hdoc : Document.read text = .error place) : About s f ⟨[⟨[], message⟩], f.path⟩
  | validated {text : String} {doc : Document} (hcontent : String.fromUTF8? f.content = some text)
      (hdoc : Document.read text = .ok doc) :
      About s f ⟨(s.validate doc).map fun e => ⟨e.locations, e.message⟩, f.path⟩

/-- Whether a file is a text that can be parsed and is valid. -/
def FoundFile.IsValid (s : Schema) (f : FoundFile) : Prop :=
  ∃ text doc, String.fromUTF8? f.content = some text ∧ Document.read text = .ok doc ∧
    s.validate doc = []

/-- The report on a file is about it. -/
theorem FileReport.about_ofFile (s : Schema) (f : FoundFile) : About s f (ofFile s f) := by
  unfold ofFile
  split
  · next text hcontent =>
    unfold ofDocument
    split
    · next place hdoc => exact .unparsable hcontent hdoc
    · next doc hdoc => exact .validated hcontent hdoc
  · next hcontent => exact .unreadable hcontent

/-- A report without errors is one on a valid file. -/
theorem FileReport.About.errors_eq_nil_iff (h : About s f r) : r.errors = [] ↔ f.IsValid s := by
  unfold FoundFile.IsValid
  cases h with
  | unreadable hcontent => simp [hcontent]
  | unparsable hcontent hdoc => simp [hcontent, hdoc]
  | validated hcontent hdoc => simp [hcontent, hdoc]

/-- A report about a file has the path of the file. -/
theorem FileReport.About.path_eq (h : About s f r) : r.path = f.path := by
  cases h <;> rfl

end About

namespace FileReport

/-- The errors that some reports list, each with the path of its file. -/
def listed (reports : List FileReport) : List (Path × ReportedError) :=
  reports.flatMap fun r => r.errors.map (r.path, ·)

/-- What people read about an error: the path of its file, its first place if it has one, and its
message. -/
def entryText : Path × ReportedError → String
  | (path, e) =>
    match e.locations.head? with
    | some place => s!"{path.text}:{place.line}:{place.column}: {e.message}"
    | none => s!"{path.text}: {e.message}"

/-- The line about an error is what people read about it. -/
theorem line_eq (path : Path) (e : ReportedError) : line path e = entryText (path, e) := by
  obtain ⟨locations, message⟩ := e
  cases locations with
  | nil => rfl
  | cons place places => simp [line, entryText, Position.text, toString, String.append_assoc]

/-- The text of reports has one entry for each error that they list. -/
theorem render_eq (reports : List FileReport) :
    render reports = String.intercalate "\n" ((listed reports).map entryText) := by
  -- a report has one line for each of its errors
  have hlines : lines = fun r => (r.errors.map (r.path, ·)).map entryText := by
    funext r
    simp [lines, line_eq]
  rw [render, listed, List.map_flatMap, hlines]

/-- Every error of the reports is listed. -/
theorem length_listed (reports : List FileReport) :
    (listed reports).length = (reports.flatMap (·.errors)).length := by
  simp [listed, List.length_flatMap]

/-- Nothing is listed just if no report has an error. -/
theorem listed_eq_nil_iff {reports : List FileReport} :
    listed reports = [] ↔ ∀ r ∈ reports, r.errors = [] := by
  simp [listed]

end FileReport

/-! ## Reports as JSON -/

namespace Json

/-- What an object holds under a key. -/
def member? (key : String) : Json → Option Json
  | object members => members.lookup key
  | _ => none

/-- The items of an array. -/
def items? : Json → Option (List Json)
  | array items => some items
  | _ => none

/-- The number that a value is. -/
def number? : Json → Option Nat
  | number n => some n
  | _ => none

/-- The string that a value is. -/
def string? : Json → Option String
  | string s => some s
  | _ => none

/-- Reads a place. -/
def position? (j : Json) : Option Position := do
  let line ← (← j.member? "line").number?
  let column ← (← j.member? "column").number?
  return ⟨line, column⟩

/-- Reads an error. -/
def error? (j : Json) : Option ReportedError := do
  let locations ← (← (← j.member? "locations").items?).mapM position?
  let message ← (← j.member? "message").string?
  return ⟨locations, message⟩

/-- Reads the report on a file. -/
def report? (j : Json) : Option FileReport := do
  let errors ← (← (← j.member? "errors").items?).mapM error?
  let path ← (← j.member? "path").string?
  return ⟨errors, ⟨path⟩⟩

/-- Reads the reports on some files. -/
def reports? (j : Json) : Option (List FileReport) := do (← j.items?).mapM report?

/-- If each item is read back from what is written for it, so are all of them. -/
theorem mapM_map_eq_some {α : Type} {read : Json → Option α} {write : α → Json} {as : List α}
    (h : ∀ a ∈ as, read (write a) = some a) : (as.map write).mapM read = some as := by
  induction as with
  | nil => rfl
  | cons a as ih =>
    obtain ⟨ha, has⟩ := List.forall_mem_cons.1 h
    simp [ha, ih has]

end Json

namespace FileReport

/-- A place is read back from JSON. -/
theorem position?_positionJson (p : Position) : (positionJson p).position? = some p := by
  simp [positionJson, Json.position?, Json.member?, Json.number?, List.lookup_cons]

/-- An error is read back from JSON. -/
theorem error?_errorJson (e : ReportedError) : (errorJson e).error? = some e := by
  simp [errorJson, Json.error?, Json.member?, Json.items?, Json.string?, List.lookup_cons,
    Json.mapM_map_eq_some fun p _ => position?_positionJson p]

/-- A report whose path is a text is read back from JSON. -/
theorem report?_json {r : FileReport} (h : r.path.isText = true) : r.json.report? = some r := by
  have hpath : (⟨r.path.text⟩ : Path) = r.path := Path.mk_text_of_isText h
  simp [json, Json.report?, Json.member?, Json.items?, Json.string?, List.lookup_cons,
    Json.mapM_map_eq_some fun e _ => error?_errorJson e, hpath]

/-- The JSON of reports whose paths are texts holds exactly these reports. -/
theorem reports?_json {reports : List FileReport} (h : ∀ r ∈ reports, r.path.isText = true) :
    (Json.array (reports.map json)).reports? = some reports := by
  simp [Json.reports?, Json.items?, Json.mapM_map_eq_some fun r hr => report?_json (h r hr)]

/-- Whether a text is JSON, and the value with this text holds some reports. -/
def WrittenAs (text : String) (reports : List FileReport) : Prop :=
  (∃ j : Json, j.text = text) ∧ ∀ j : Json, j.text = text → j.reports? = some reports

/-- From the JSON text of reports just these reports can be read back. -/
theorem exists_writeJson {reports : List FileReport} (h : ∀ r ∈ reports, r.path.isText = true) :
    ∃ text, writeJson reports = .ok text ∧ WrittenAs text reports := by
  refine ⟨_, if_pos (List.all_eq_true.2 h), ⟨_, rfl⟩, fun j hj => ?_⟩
  rw [Json.text_injective hj]
  exact reports?_json h

/-- Reports are not written as JSON if one of their paths is no text. -/
theorem writeJson_eq_error {reports : List FileReport}
    (h : ¬ ∀ r ∈ reports, r.path.isText = true) : writeJson reports = .error notTextReason :=
  if_neg (mt List.all_eq_true.1 h)

end FileReport

end GraphQLCheck
