import GraphQLCheck.Command.Run
import GraphQLCheck.Proofs.Command.Arguments
import GraphQLCheck.Proofs.Command.Reports
import GraphQLCheck.Proofs.Files.Collection
import GraphQLCheck.Proofs.Rules.IntrospectionQuery
import GraphQLCheck.Proofs.Schema.SourceFiles
import GraphQLCheck.Proofs.Schema.Sources

/-!
# The verdict on some files

`ValidationRequest.Passes` says when a request to validate files is to succeed, and
`ValidationRequest.Shows` says what both forms of its output show. A request that asks for people's
text succeeds just if it is to. One that asks for JSON must also look at no file whose path is no
text, since its report cannot be written; and otherwise both forms show the same errors.

Main statement: `ValidationRequest.run_verdict`.
-/

namespace GraphQLCheck

/-- Two runs exit with the same code just if both succeed or neither does. -/
theorem RunResult.exitCode_eq_iff {r r' : RunResult} :
    r.exitCode = r'.exitCode ↔ (r.succeeded = true ↔ r'.succeeded = true) := by
  unfold exitCode
  cases r.succeeded <;> cases r'.succeeded <;> simp

namespace FileSystem.MakesUp

variable {fs : FileSystem} {s : Schema}

/-- A schema can be built of a single file whose text makes up one. -/
theorem exists_of_file {path : Path} {text : String} (hreads : fs.HasText path text)
    (hpath : path.same Introspection.path = false) (h : makesUpSchema path text = true) :
    ∃ s, fs.MakesUp [.file path] s := by
  obtain ⟨s, hs⟩ := exists_build_of_source hpath h
  exact ⟨s, _, .cons ⟨rfl, hreads⟩ .nil, hs⟩

/-- Whatever a schema is built of, it offers the introspection types. -/
theorem offers {sources : List SchemaSource} (h : fs.MakesUp sources s) : s.Offers := by
  obtain ⟨texts, -, hbuild⟩ := h
  obtain ⟨ds, b, hb, hbuild, -⟩ := exists_loaded_of_build hbuild
  exact (Schema.MadeOf.of_build hb hbuild).offers

end FileSystem.MakesUp

namespace ValidationRequest

variable {fs : FileSystem} {r : ValidationRequest} {s : Schema}

/-- What the search for the files of a request finds. -/
def found (r : ValidationRequest) (fs : FileSystem) : Findings :=
  fs.collect r.paths (normalizeExtensions r.extensions)

/-- The reports on the files of a request, in the order of the files. -/
def reports (r : ValidationRequest) (fs : FileSystem) (s : Schema) : List FileReport :=
  (r.found fs).files.map (FileReport.ofFile s)

/-- The same request for another form of output. -/
def withJson (r : ValidationRequest) (json : Bool) : ValidationRequest := { r with json := json }

/-- Whether a request is to succeed: its schema can be built, something stands at each of its paths,
and each of its files is valid. -/
def Passes (r : ValidationRequest) (fs : FileSystem) : Prop :=
  ∃ s, fs.MakesUp (r.schemas.map .file) s ∧ (∀ path ∈ r.paths, fs path ≠ none) ∧
    ∀ f ∈ (r.found fs).files, f.IsValid s

/-- Whether the paths of the files of a request are texts. -/
def HasTextPaths (r : ValidationRequest) (fs : FileSystem) : Prop :=
  ∀ f ∈ (r.found fs).files, f.path.isText = true

/-- What is printed for people: the listed errors and their number, or the number of files if there
are no errors. -/
def textOf (reports : List FileReport) (skipped : Nat) : String :=
  let entries := FileReport.listed reports
  if entries = [] then successText reports.length skipped
  else
    let bad := (reports.filter fun report => report.errors ≠ []).length
    String.intercalate "\n" (entries.map FileReport.entryText) ++
      s!"\n{crossMark} {entries.length} validation errors in {bad} files."

/-- Whether both forms of output show some reports, which are about the files of a request one by
one. There is no JSON if the path of a file is no text. -/
structure Shows (r : ValidationRequest) (fs : FileSystem) (s : Schema)
    (reports : List FileReport) : Prop where
  about : List.Forall₂ (FileReport.About s) (r.found fs).files reports
  json : r.HasTextPaths fs →
    ∃ text, ((r.withJson true).run fs).stdout = some text ∧ FileReport.WrittenAs text reports
  noJson : ¬ r.HasTextPaths fs →
    (r.withJson true).run fs =
      .failure s!"{crossMark} Failed to serialize report: {FileReport.notTextReason}"
  text : ((r.withJson false).run fs).stdout = some (textOf reports (r.found fs).skipped)

/-! ## What a run comes to -/

/-- No path is missing just if something stands at each of them. -/
theorem missing_eq_nil_iff : (r.found fs).missing = [] ↔ ∀ path ∈ r.paths, fs path ≠ none := by
  simp [found, FileSystem.collect_eq, List.filter_eq_nil_iff]

/-- A file that stands at one of the paths is found if its extension is asked for. -/
theorem mem_found {path : Path} {content : ByteArray} {e : String} (hpath : path ∈ r.paths)
    (hfile : fs path = some (.file content)) (hextension : path.extension? = some (.ofText e))
    (he : e ∈ r.extensions) : ⟨path, content⟩ ∈ (r.found fs).files := by
  have hgiven : FoundFile.ExtensionGiven r.extensions ⟨path, content⟩ :=
    (FoundFile.extensionGiven_iff_of_text hextension).2 (.inl he)
  exact ((fs.collect_accountFor r.paths r.extensions).collected _).2
    ⟨⟨path, hpath, _, hfile, .here _ _⟩, .inl hgiven⟩

/-- A run whose schema can be built looks at the files, unless a path is missing. -/
theorem run_of_schema (hschema : Schema.ofFiles fs r.schemas = .ok s) :
    r.run fs =
      if (r.found fs).missing = [] then
        conclude r.json (r.reports fs s) (r.found fs).skipped
      else
        .failure (s!"{crossMark} Errors scanning input paths: " ++ bracketLines "[" "]"
          ((r.found fs).missing.map fun p => Findings.missingMessage p ++ ",")) := by
  unfold run
  rw [hschema]
  rfl

/-- A run whose schema cannot be built says so. -/
theorem run_of_error {e : BuildError} (hschema : Schema.ofFiles fs r.schemas = .error e) :
    r.run fs = .failure s!"{crossMark} Errors building schema: {e.dump}" := by
  unfold run
  rw [hschema]

/-- The errors that are counted are those that are listed. -/
theorem errorCount_eq (reports : List FileReport) :
    errorCount reports = (FileReport.listed reports).length :=
  (FileReport.length_listed reports).symm

/-- There is a report about each file. -/
theorem forall₂_about (r : ValidationRequest) (fs : FileSystem) (s : Schema) :
    List.Forall₂ (FileReport.About s) (r.found fs).files (r.reports fs s) := by
  rw [reports, List.forall₂_map_right_iff, List.forall₂_same]
  exact fun f _ => FileReport.about_ofFile s f

/-- The reports list no error just if each file is valid. -/
theorem errorCount_reports_eq_zero_iff :
    errorCount (r.reports fs s) = 0 ↔ ∀ f ∈ (r.found fs).files, f.IsValid s := by
  rw [errorCount_eq, List.length_eq_zero_iff, FileReport.listed_eq_nil_iff, reports,
    List.forall_mem_map]
  exact forall₂_congr fun f _ => (FileReport.about_ofFile s f).errors_eq_nil_iff

/-- The paths of the reports are those of the files. -/
theorem hasTextPaths_iff :
    r.HasTextPaths fs ↔ ∀ report ∈ r.reports fs s, report.path.isText = true := by
  rw [reports, List.forall_mem_map]
  exact forall₂_congr fun f _ => by rw [(FileReport.about_ofFile s f).path_eq]

/-- What is printed for people shows the errors that are listed. -/
theorem output_false_eq (reports : List FileReport) (skipped : Nat) :
    output false reports skipped = .ok (textOf reports skipped) := by
  have hbad : (fun report : FileReport => !report.errors.isEmpty) =
      fun report => decide (report.errors ≠ []) := by
    funext report
    cases report.errors <;> simp
  unfold output textOf
  simp only [errorCount_eq, List.length_eq_zero_iff, Bool.false_eq_true, if_false]
  split
  · rfl
  · simp only [failureText, FileReport.render_eq, errorCount_eq, hbad, toString,
      String.append_assoc]

/-- A run that looked at all files succeeds just if there are no errors and, where JSON is asked
for, the reports can be written. -/
theorem succeeded_conclude_iff {json : Bool} {skipped : Nat} :
    (conclude json (r.reports fs s) skipped).succeeded = true ↔
      (∀ f ∈ (r.found fs).files, f.IsValid s) ∧ (json = true → r.HasTextPaths fs) := by
  rw [← errorCount_reports_eq_zero_iff, hasTextPaths_iff (s := s), conclude]
  cases json with
  | false =>
    rw [output_false_eq]
    simp
  | true =>
    by_cases hpaths : ∀ report ∈ r.reports fs s, report.path.isText = true
    · obtain ⟨text, htext, -⟩ := FileReport.exists_writeJson hpaths
      rw [output, if_pos rfl, htext, decide_eq_true_eq]
      exact (and_iff_left fun _ => hpaths).symm
    · rw [output, if_pos rfl, FileReport.writeJson_eq_error hpaths]
      simp [RunResult.failure, hpaths]

/-- A run succeeds just if it is to, and its reports can be written in the form asked for. -/
theorem succeeded_iff :
    (r.run fs).succeeded = true ↔ r.Passes fs ∧ (r.json = true → r.HasTextPaths fs) := by
  unfold Passes
  simp only [← Schema.ofFiles_eq_ok_iff]
  cases hschema : Schema.ofFiles fs r.schemas with
  | error e => simp [run_of_error hschema, RunResult.failure]
  | ok s =>
    simp only [Except.ok.injEq, exists_eq_left', ← missing_eq_nil_iff]
    rw [run_of_schema hschema]
    split
    · next hmissing => simp only [succeeded_conclude_iff, hmissing, true_and]
    · next hmissing => simp [RunResult.failure, hmissing]

/-- A run exits with zero just if its request passes, and its reports can be written in the form
asked for. -/
theorem exitCode_eq_zero_iff :
    (r.run fs).exitCode = 0 ↔ r.Passes fs ∧ (r.json = true → r.HasTextPaths fs) := by
  rw [← succeeded_iff, RunResult.exitCode]
  split
  · next h => simp [h]
  · next h => simp [h]

/-- The form of the output has an influence on the exit code just if a request passes, but not all
paths of its files are texts. -/
theorem exitCode_withJson_eq_iff :
    ((r.withJson true).run fs).exitCode = ((r.withJson false).run fs).exitCode ↔
      (r.Passes fs → r.HasTextPaths fs) := by
  have hjson : ((r.withJson true).run fs).succeeded = true ↔ r.Passes fs ∧ r.HasTextPaths fs :=
    succeeded_iff.trans (and_congr_right fun _ => forall_prop_of_true rfl)
  have htext : ((r.withJson false).run fs).succeeded = true ↔ r.Passes fs :=
    succeeded_iff.trans (and_iff_left nofun)
  rw [RunResult.exitCode_eq_iff, hjson, htext, and_iff_left_iff_imp]

/-- Both forms of output show the reports on the files. -/
theorem shows_reports (hschema : Schema.ofFiles fs r.schemas = .ok s)
    (hmissing : (r.found fs).missing = []) : r.Shows fs s (r.reports fs s) := by
  -- the form of the output is not looked at before the reports are there
  have hrun (json : Bool) : (r.withJson json).run fs =
      conclude json (r.reports fs s) (r.found fs).skipped :=
    (run_of_schema (r := r.withJson json) hschema).trans (if_pos hmissing)
  refine ⟨forall₂_about r fs s, fun hpaths => ?json, fun hpaths => ?noJson, ?text⟩
  case json =>
    obtain ⟨text, htext, hwritten⟩ := FileReport.exists_writeJson (hasTextPaths_iff.1 hpaths)
    refine ⟨text, ?_, hwritten⟩
    rw [hrun, conclude, output, if_pos rfl, htext]
  case noJson =>
    rw [hrun, conclude, output, if_pos rfl,
      FileReport.writeJson_eq_error (mt hasTextPaths_iff.2 hpaths)]
  case text => rw [hrun, conclude, output_false_eq]

/-- A request for people's text exits with zero just if it passes, and one for JSON just if in
addition the paths of its files are texts; so these exit codes differ just if a request passes and
one of its files has another path. If the files of a request are looked at, both forms of the output
show one report for each of them, or there is no JSON. The requests of a command line name a file of
the schema and a path to look at. -/
theorem run_verdict (fs : FileSystem) (r : ValidationRequest) :
    ((r.run fs).exitCode = 0 ↔ r.Passes fs ∧ (r.json = true → r.HasTextPaths fs)) ∧
      (((r.withJson true).run fs).exitCode = ((r.withJson false).run fs).exitCode ↔
        (r.Passes fs → r.HasTextPaths fs)) ∧
      (∀ s, fs.MakesUp (r.schemas.map .file) s → (∀ path ∈ r.paths, fs path ≠ none) →
        ∃ reports, r.Shows fs s reports) ∧
      ∀ words verbose, Invocation.ofWords words = .ok ⟨verbose, some (.validate r)⟩ → r.Names := by
  refine ⟨exitCode_eq_zero_iff, exitCode_withJson_eq_iff, fun s hschema hpaths => ?_,
    fun words verbose => Invocation.names_of_ofWords⟩
  exact ⟨r.reports fs s, shows_reports (Schema.ofFiles_eq_ok_iff.mpr hschema)
    (missing_eq_nil_iff.mpr hpaths)⟩

/-- A schema, a document that is valid, and a text that is no document. -/
def sampleFiles : FileSystem :=
  Entry.fileSystem <| .directory
    [("schema.graphql", .file "type Query \x7b a: Int \x7d".toUTF8),
      ("good.graphql", .file "\x7b a \x7d".toUTF8), ("broken.graphql", .file "\x7b".toUTF8)]

/-- The request to validate both documents. -/
def sample : ValidationRequest :=
  ⟨[⟨"schema.graphql"⟩], ["graphql"], false, [⟨"good.graphql"⟩, ⟨"broken.graphql"⟩]⟩

/-- There is a report on each document, and the run fails. -/
theorem run_verdict_sample :
    (sample.run sampleFiles).exitCode ≠ 0 ∧
      ∃ s reports, sample.Shows sampleFiles s reports ∧ reports.length = 2 := by
  obtain ⟨hexit, -, hshows, -⟩ := run_verdict sampleFiles sample
  constructor
  · rw [ne_eq, hexit]
    rintro ⟨⟨s, -, -, hvalid⟩, -⟩
    -- the broken document is found by its extension, and cannot be read
    obtain ⟨content, hfile, hcontent⟩ : sampleFiles.HasText ⟨"broken.graphql"⟩ "\x7b" :=
      FileSystem.hasText_of_toOption (by decide +kernel)
    have hextension : Path.extension? ⟨"broken.graphql"⟩ = some (.ofText "graphql") := by
      decide +kernel
    have hfound : ⟨⟨"broken.graphql"⟩, content⟩ ∈ (sample.found sampleFiles).files :=
      mem_found (by decide) hfile hextension List.mem_cons_self
    obtain ⟨text, doc, htext, hdoc, -⟩ := hvalid _ hfound
    obtain rfl : "\x7b" = text := Option.some.inj (hcontent.symm.trans htext)
    have hread : (Document.read "\x7b").toOption.isNone = true := by decide +kernel
    rw [hdoc] at hread
    contradiction
  · have hreads : sampleFiles.HasText ⟨"schema.graphql"⟩ "type Query \x7b a: Int \x7d" :=
      FileSystem.hasText_of_toOption (by decide +kernel)
    obtain ⟨s, hs⟩ := FileSystem.MakesUp.exists_of_file hreads (by decide +kernel)
      (by decide +kernel)
    obtain ⟨reports, hreports⟩ := hshows s hs (by rw [← missing_eq_nil_iff]; decide +kernel)
    have hlength : (sample.found sampleFiles).files.length = 2 := by
      rw [found, FileSystem.collect_eq, List.length_mergeSort]
      decide +kernel
    exact ⟨s, reports, hreports, hreports.about.length_eq ▸ hlength⟩

namespace OddName

/-- The name of a file, whose first byte cannot be in a text. -/
def path : Path := ⟨⟨0xFF :: (RawText.ofText ".graphql").bytes⟩⟩

/-- A query for the name of the type at the root of queries. -/
def query : String := "\x7b __schema \x7b queryType \x7b name \x7d \x7d \x7d"

/-- A schema, and the query in a file with that name. -/
def files : FileSystem :=
  Entry.fileSystem <| .directory
    [("schema.graphql", .file "type Query \x7b a: Int \x7d".toUTF8), (path.raw, .file query.toUTF8)]

/-- The request to look at some paths with that schema. -/
def request (paths : List Path) : ValidationRequest :=
  ⟨[⟨"schema.graphql"⟩], ["graphql"], false, paths⟩

/-- The schema can be built. -/
theorem exists_schema : ∃ s, files.MakesUp [.file ⟨"schema.graphql"⟩] s := by
  have hreads : files.HasText ⟨"schema.graphql"⟩ "type Query \x7b a: Int \x7d" :=
    FileSystem.hasText_of_toOption (by decide +kernel)
  exact FileSystem.MakesUp.exists_of_file hreads (by decide +kernel) (by decide +kernel)

/-- The query is a file at its path. -/
theorem hasText : files.HasText path query :=
  FileSystem.hasText_of_toOption (by decide +kernel)

/-- The query is valid for every schema that offers the introspection types. -/
theorem isValid {s : Schema} (hs : s.Offers) {content : ByteArray}
    (hcontent : String.fromUTF8? content = some query) : FoundFile.IsValid s ⟨path, content⟩ := by
  have hread : ((Document.read query).toOption.any fun doc =>
      Known.start.fits doc 8 (.document doc)) = true := by decide +kernel
  obtain ⟨doc, hdoc, hfits⟩ := exists_of_any_toOption hread
  exact ⟨_, doc, hcontent, hdoc, validate_eq_nil_of_fits hs hfits⟩

/-- Nothing is wrong with the query, nor with looking at no files at all. -/
theorem passes {paths : List Path} (hpaths : ∀ p ∈ paths, p = path) :
    (request paths).Passes files := by
  obtain ⟨s, hmakesUp⟩ := exists_schema
  obtain ⟨content, hfile, hcontent⟩ := hasText
  refine ⟨s, hmakesUp, fun p hp => ?_, fun f hf => ?_⟩
  · rw [hpaths p hp, hfile]
    exact nofun
  · obtain ⟨⟨p, hp, entry, hentry, hmet⟩, -⟩ :=
      ((files.collect_accountFor _ _).collected f).1 hf
    rw [hpaths p hp, hfile, Option.some.injEq] at hentry
    rw [hpaths p hp, ← hentry, Entry.hasFile_file_iff] at hmet
    exact hmet ▸ isValid hmakesUp.offers hcontent

/-- The query is found, and its path is no text. -/
theorem not_hasTextPaths : ¬ (request [path]).HasTextPaths files := by
  intro h
  obtain ⟨content, hfile, -⟩ := hasText
  have hextension : path.extension? = some (.ofText "graphql") := by decide +kernel
  have hfound : ⟨path, content⟩ ∈ ((request [path]).found files).files :=
    mem_found List.mem_cons_self hfile hextension List.mem_cons_self
  have hpath : path.isText = false := by decide +kernel
  exact Bool.false_ne_true (hpath.symm.trans (h _ hfound))

end OddName

open OddName in
/-- A request passes whose one file has a name that is no text, but it fails if JSON is asked for.
And nothing is wrong with a request for no files, but no command line asks for it. -/
theorem exitCode_withJson_ne_oddName :
    (request [path]).Passes files ∧
      (((request [path]).withJson false).run files).exitCode = 0 ∧
      (((request [path]).withJson true).run files).exitCode ≠ 0 ∧
      (request []).Passes files ∧
      Invocation.ofWords ["validate", "--schema", "schema.graphql"] = .error .missingRequired := by
  have hpasses : (request [path]).Passes files := passes fun p => List.mem_singleton.1
  refine ⟨hpasses, exitCode_eq_zero_iff.2 ⟨hpasses, nofun⟩, fun hexit => ?_, passes nofun, rfl⟩
  exact not_hasTextPaths ((exitCode_eq_zero_iff.1 hexit).2 rfl)

end ValidationRequest

end GraphQLCheck
