import GraphQLCheck.Files.Path

/-!
# Files

A `FileSystem` says what stands at a path: a file with its bytes, a directory with its entries, or
nothing. `Entry.fileSystem` is the file system seen from a directory. Reading a file decodes it as
UTF-8.
-/

namespace GraphQLCheck

/-- A file, or a directory whose entries have names of the type `Name`. -/
inductive Entry (Name : Type := String) where
  | file (content : ByteArray)
  | directory (entries : List (Name × Entry Name))

/-- What stands at each path. The names in directories are raw texts. -/
abbrev FileSystem := Path → Option (Entry RawText)

namespace Entry

mutual

/-- An entry with raw texts as names in place of texts. -/
def raw : Entry → Entry RawText
  | file content => file content
  | directory entries => directory (rawIn entries)

/-- The entries of a directory with raw texts as names in place of texts. -/
def rawIn : List (String × Entry) → List (RawText × Entry RawText)
  | [] => []
  | (name, entry) :: rest => (name, raw entry) :: rawIn rest

end

instance : Coe Entry (Entry RawText) := ⟨raw⟩

/-- Follows the pieces of a path from a directory, which is the head of `trail`; behind it come the
directories above. A file has nothing in it, not even itself. -/
def follow (trail : List (Entry RawText)) : List RawText → Option (Entry RawText)
  | [] => trail.head?
  | s :: rest =>
    match trail with
    | directory entries :: above =>
      if s = "" || s = "." then follow (directory entries :: above) rest
      else if s = ".." then if above = [] then none else follow above rest
      else
        match entries.lookup s with
        | some entry => follow (entry :: directory entries :: above) rest
        | none => none
    | _ => none

/-- The file system seen from a directory. The empty path, absolute paths and paths that lead above
the directory name nothing in it. -/
def fileSystem (here : Entry RawText) : FileSystem := fun p =>
  if p.raw = "" || p.isAbsolute then none else follow [here] p.pieces

end Entry

/-- Why a file cannot be read. -/
inductive ReadError where
  | notAFile (path : Path)
  | invalidUtf8 (path : Path)

namespace ReadError

/-- What is wrong with contents that are no text. -/
def invalidUtf8Reason : String := "stream did not contain valid UTF-8"

/-- The message of an error. -/
def message : ReadError → String
  | notAFile path => s!"`{path.text}` is not a file"
  | invalidUtf8 path => s!"Could not read `{path.text}`: {invalidUtf8Reason}"

/-- Whether two errors are of one kind and about the same path. -/
def same : ReadError → ReadError → Bool
  | notAFile p, notAFile q => p.same q
  | invalidUtf8 p, invalidUtf8 q => p.same q
  | _, _ => false

end ReadError

namespace FileSystem

/-- Reads the file at a path as a text. -/
def readText (fs : FileSystem) (path : Path) : Except ReadError String :=
  match fs path with
  | some (.file content) =>
    match String.fromUTF8? content with
    | some text => .ok text
    | none => .error (.invalidUtf8 path)
  | _ => .error (.notAFile path)

end FileSystem

end GraphQLCheck
