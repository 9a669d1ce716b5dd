import GraphQLCheck.Files.FileSystem

/-!
# Collecting files

From the paths that a user gives, `FileSystem.collect` finds the files whose extension is one of
those asked for. A directory stands for all files in it, at any depth. Each file that is met is
either collected or counted as skipped, and each path at which nothing stands is listed as missing.
-/

namespace GraphQLCheck

/-- The extensions asked for, each with exactly the dot it began with or one put before it, and
none twice. -/
def normalizeExtensions (extensions : List String) : List String :=
  (extensions.map fun e => if e.toList.head? = some '.' then e else "." ++ e).eraseDups

/-- A file that was met, at the path that led to it. -/
structure FoundFile where
  path : Path
  content : ByteArray

/-- Whether the extension of a file, as it is shown, is one of those asked for. -/
def FoundFile.hasExtension (extensions : List String) (f : FoundFile) : Bool :=
  match f.path.extension? with
  | some e => extensions.contains ("." ++ e.text)
  | none => false

/-- Whether a file comes before another one in path order, or has the same path. -/
def FoundFile.le (f g : FoundFile) : Bool := f.path.le g.path

namespace Entry

mutual

/-- The files of an entry that stands at `path`: itself, or all files in it. -/
def filesAt (path : Path) : Entry RawText → List FoundFile
  | file content => [⟨path, content⟩]
  | directory entries => filesIn path entries

/-- The files of the entries of a directory that stands at `path`. -/
def filesIn (path : Path) : List (RawText × Entry RawText) → List FoundFile
  | [] => []
  | (name, entry) :: rest => filesAt (path.join name) entry ++ filesIn path rest

end

end Entry

/-- What a search has found. -/
structure Findings where
  /-- The files to look at. -/
  files : List FoundFile
  /-- The number of files that were met and left out. -/
  skipped : Nat
  /-- The paths at which nothing stands, as they were given. -/
  missing : List Path

namespace Findings

/-- A search that has not begun. -/
def empty : Findings := ⟨[], 0, []⟩

/-- The message about a path at which nothing stands. -/
def missingMessage (path : Path) : String := s!"scanning {path.text}"

/-- Meets a file, which is collected if it has one of the extensions, and else skipped. -/
def meet (extensions : List String) (found : Findings) (f : FoundFile) : Findings :=
  if f.hasExtension extensions then { found with files := found.files ++ [f] }
  else { found with skipped := found.skipped + 1 }

end Findings

namespace FileSystem

/-- Searches a path, which leads to a file, or to a directory with files in it, or to nothing. -/
def search (fs : FileSystem) (extensions : List String) (found : Findings) (path : Path) :
    Findings :=
  match fs path with
  | some entry => (entry.filesAt path).foldl (Findings.meet extensions) found
  | none => { found with missing := found.missing ++ [path] }

/-- Collects the file that is the only path given, if nothing else is collected: to name a single
file is to ask for it, whatever its extension. -/
def collectSingle (fs : FileSystem) (paths : List Path) (found : Findings) : Findings :=
  match paths, found.files with
  | [path], [] =>
    match fs path with
    | some (.file content) =>
      { found with files := [⟨path, content⟩], skipped := found.skipped - 1 }
    | _ => found
  | _, _ => found

/-- Searches the paths for files with one of the extensions, and puts the files in path order. -/
def collect (fs : FileSystem) (paths : List Path) (extensions : List String) : Findings :=
  let found := fs.collectSingle paths (paths.foldl (fs.search extensions) .empty)
  { found with files := found.files.mergeSort FoundFile.le }

end FileSystem

end GraphQLCheck
