import Mathlib.Data.List.Forall2
import GraphQLCheck.Proofs.Except
import GraphQLCheck.Schema.Builder

/-!
# Sources of schemas

A schema is built of sources that are loaded one after the other: texts that are given, and files
that are read. `FileSystem.Reads` says what text a source is.

Main statements: sources are loaded just if each of them is a text and these texts are loaded
(`Builder.foldlM_loadSource_eq_ok_iff`), and so files make up a schema just if they can be read and
their texts make it up (`Schema.ofFiles_eq_ok_iff`).
-/

namespace GraphQLCheck

/-- What a schema is built of: a text, with a path if it has one, or the file at a path. -/
inductive SchemaSource where
  | text (path : Option Path) (text : String)
  | file (path : Path)

/-- Loads a source. -/
def Builder.loadSource (fs : FileSystem) (b : Builder) : SchemaSource → Except BuildError Builder
  | .text path text => b.load path text
  | .file path => b.loadFile fs path

namespace FileSystem

/-- Whether the file at a path is a text. -/
def HasText (fs : FileSystem) (path : Path) (text : String) : Prop :=
  ∃ content, fs path = some (.file content) ∧ String.fromUTF8? content = some text

/-- Whether a source is a text, with the path that comes with it. -/
def Reads (fs : FileSystem) : SchemaSource → Option Path × String → Prop
  | .text path text, read => read = (path, text)
  | .file path, read => read.1 = some path ∧ fs.HasText path read.2

/-- Reading a file gives a text just if the file is that text. -/
theorem readText_eq_ok_iff {fs : FileSystem} {path : Path} {text : String} :
    fs.readText path = .ok text ↔ fs.HasText path text := by
  unfold readText HasText
  split
  · next content hfile =>
    simp only [hfile, Option.some.injEq, Entry.file.injEq, exists_eq_left']
    split
    · next hcontent => simp [hcontent]
    · next hcontent => simp [hcontent]
  · next hfile =>
    constructor
    · intro h
      contradiction
    · rintro ⟨content, hcontent, -⟩
      exact absurd hcontent (hfile content)

/-- What a file is read as can be found by computation. -/
theorem hasText_of_toOption {fs : FileSystem} {path : Path} {text : String}
    (h : (fs.readText path).toOption = some text) : fs.HasText path text := by
  rw [← readText_eq_ok_iff]
  cases hread : fs.readText path with
  | error e => simp [hread, Except.toOption] at h
  | ok read => simpa [hread, Except.toOption] using h

end FileSystem

namespace Builder

variable {fs : FileSystem} {b b' : Builder}

/-- A source is loaded just if it is a text and this text is loaded. -/
theorem loadSource_eq_ok_iff {source : SchemaSource} :
    b.loadSource fs source = .ok b' ↔
      ∃ read, fs.Reads source read ∧ b.load read.1 read.2 = .ok b' := by
  cases source with
  | text path text => simp [loadSource, FileSystem.Reads]
  | file path =>
    simp only [loadSource, loadFile, FileSystem.Reads, ← FileSystem.readText_eq_ok_iff,
      Prod.exists]
    cases fs.readText path with
    | error e => simp
    | ok text => simp

/-- Sources are loaded just if each of them is a text and these texts are loaded. -/
theorem foldlM_loadSource_eq_ok_iff {sources : List SchemaSource} :
    sources.foldlM (loadSource fs) b = .ok b' ↔
      ∃ texts, List.Forall₂ fs.Reads sources texts ∧
        texts.foldlM (fun b read => b.load read.1 read.2) b = .ok b' := by
  -- the text of the first source stands before those of the others, as its step does
  induction sources generalizing b with
  | nil => simp
  | cons source sources ih =>
    simp only [List.foldlM_cons, bind_eq_ok, loadSource_eq_ok_iff, ih]
    constructor
    · rintro ⟨b₁, ⟨read, hread, hload⟩, texts, hreads, htexts⟩
      refine ⟨read :: texts, .cons hread hreads, ?_⟩
      exact bind_eq_ok.mpr ⟨b₁, hload, htexts⟩
    · rintro ⟨texts, hreads, htexts⟩
      obtain ⟨read, rest, hread, hrest, rfl⟩ := List.forall₂_cons_left_iff.mp hreads
      obtain ⟨b₁, hload, htexts⟩ := bind_eq_ok.mp htexts
      exact ⟨b₁, ⟨read, hread, hload⟩, rest, hrest, htexts⟩

/-- Loading files is loading sources that are files. -/
theorem loadFiles_eq (fs : FileSystem) (b : Builder) (paths : List Path) :
    b.loadFiles fs paths = (paths.map .file).foldlM (loadSource fs) b := by
  rw [List.foldlM_map]
  rfl

end Builder

/-- Whether some sources can be read and make up a schema. -/
def FileSystem.MakesUp (fs : FileSystem) (sources : List SchemaSource) (s : Schema) : Prop :=
  ∃ texts, List.Forall₂ fs.Reads sources texts ∧
    (texts.foldlM (fun b read => b.load read.1 read.2) .empty >>= Builder.build) = .ok s

/-- Files make up a schema just if they can be read and their texts make it up. -/
theorem Schema.ofFiles_eq_ok_iff {fs : FileSystem} {paths : List Path} {s : Schema} :
    ofFiles fs paths = .ok s ↔ fs.MakesUp (paths.map .file) s := by
  unfold ofFiles FileSystem.MakesUp
  simp only [Builder.loadFiles_eq, bind_eq_ok, Builder.foldlM_loadSource_eq_ok_iff]
  constructor
  · rintro ⟨b, ⟨texts, hreads, hload⟩, hbuild⟩
    exact ⟨texts, hreads, b, hload, hbuild⟩
  · rintro ⟨texts, hreads, b, hload, hbuild⟩
    exact ⟨b, ⟨texts, hreads, hload⟩, hbuild⟩

end GraphQLCheck
