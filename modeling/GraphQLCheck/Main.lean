import GraphQLCheck.Command.LogLevel
import GraphQLCheck.Command.Run

/-!
# The program

Takes a snapshot of the files that a command line names, runs the command on it, and prints what
the run says.
-/

namespace GraphQLCheck.Program

/-- How the program is used. -/
def usage : String :=
  "Validates GraphQL operations against a schema.\n\n" ++
    "Usage: graphql [-v | --verbose] <command>\n\n" ++
    "Commands:\n" ++
    "  introspection-query  Print the standard introspection query\n" ++
    "  validate             Validate GraphQL operation documents against a schema\n" ++
    "  help                 Print this text\n\n" ++
    "Usage of validate:\n" ++
    "  graphql validate --schema <file>... [--graphql-file-exts <exts>] [--json] <path>..."

/-- The version of the program. -/
def version : String := "graphql 0.1.1"

/-- Reads what stands at a path. A directory that contains itself through a link is not entered
again. -/
partial def readEntry (above : List String) (path : String) : IO Entry := do
  let here ← IO.FS.realPath path
  if ← here.isDir then
    if above.contains here.toString then return .directory []
    let below ← here.readDir
    let entries ← below.toList.mapM fun e => do
      return (e.fileName, ← readEntry (here.toString :: above) e.path.toString)
    return .directory entries
  else
    return .file (← IO.FS.readBinFile here)

/-- Reads what stands at a path, if the path is a text and something stands there. -/
def readEntry? (path : Path) : IO (Option (Entry RawText)) := do
  let some text := path.raw.text? | return none
  try return some (← readEntry [] text)
  catch _ => return none

/-- The file system as far as the given paths show it. -/
def snapshot (paths : List Path) : IO FileSystem := do
  let entries ← paths.mapM fun p => do return (p, ← readEntry? p)
  return fun p => (entries.lookup p).join

/-- The paths that a command looks at. -/
def pathsOf : Command → List Path
  | .introspectionQuery => []
  | .validate request => request.schemas ++ request.paths

/-- Runs a command and prints what it says. -/
def perform (level : LogLevel) (command : Command) : IO UInt32 := do
  let paths := pathsOf command
  if level.shows .debug then IO.eprintln s!"Reading {paths.length} paths."
  let result := command.run (← snapshot paths)
  if let some text := result.stdout then IO.println text
  if let some text := result.stderr then IO.eprintln text
  return result.exitCode

/-- The level of a run. A level in the environment that cannot be read is warned about. -/
def chooseLevel (verbose : Bool) : IO LogLevel := do
  let environment ← IO.getEnv "LOG_LEVEL"
  if let some text := environment then
    if !verbose && (LogLevel.ofText? text).isNone then
      IO.eprintln s!"Invalid LOG_LEVEL environment variable value: {text}"
  return LogLevel.choose verbose environment

/-- Runs a command line. -/
def run (words : List String) : IO UInt32 := do
  match Invocation.ofWords words with
  | .error .helpRequested =>
    IO.println usage
    return 0
  | .error .versionRequested =>
    IO.println version
    return 0
  | .error e =>
    IO.eprintln s!"error: {e.message}"
    return 2
  | .ok ⟨_, none⟩ =>
    IO.println usage
    return 0
  | .ok ⟨verbose, some command⟩ => perform (← chooseLevel verbose) command

end GraphQLCheck.Program

/-- Runs the command line of the program. -/
def main (args : List String) : IO UInt32 := GraphQLCheck.Program.run args
