import GraphQLCheck.Files.Path

/-!
# The command line

The words of a command line, and what they ask for. The general options come first, then the name
of a command, then the arguments of the command. Options and paths may be mixed; after the word
`--` every word is a path.

The values of an option are looked at only when the next option or the end of the line shows that
they are complete. So an unknown option is reported even if the option before it lacks its value.
-/

namespace GraphQLCheck

/-- Why a command line is not carried out. -/
inductive UsageError where
  | missingRequired
  | missingValue
  | unneededValue
  | repeatedFlag
  | unknownArgument
  | unknownCommand
  | helpRequested
  | versionRequested
deriving DecidableEq, Repr, Inhabited

/-- What the user is told. -/
def UsageError.message : UsageError → String
  | missingRequired => "a required argument is missing"
  | missingValue => "an argument lacks its value"
  | unneededValue => "a flag takes no value"
  | repeatedFlag => "a flag may be given only once"
  | unknownArgument => "an argument is not known"
  | unknownCommand => "the command is not known"
  | helpRequested => "help is asked for"
  | versionRequested => "the version is asked for"

/-- A word of a command line, by its form. -/
inductive Word where
  | plain (text : String)
  /-- The word `--`. -/
  | separator
  /-- A word such as `--name` or `--name=value`. -/
  | long (name : String) (value : Option String)
  /-- A word such as `-abc`. -/
  | short (first : Char) (rest : List Char)
deriving DecidableEq, Repr

namespace Word

/-- The form of what comes after two dashes. -/
def ofLong (cs : List Char) : Word :=
  let name := String.ofList (cs.takeWhile (· ≠ '='))
  match cs.dropWhile (· ≠ '=') with
  | [] => long name none
  | _ :: value => long name (some (String.ofList value))

/-- The form of a word. A single dash is a plain word. -/
def ofText (s : String) : Word :=
  match s.toList with
  | ['-', '-'] => separator
  | '-' :: '-' :: cs => ofLong cs
  | '-' :: c :: cs => short c cs
  | _ => plain s

end Word

/-- A request to validate documents. -/
structure ValidationRequest where
  /-- The files that make up the schema. -/
  schemas : List Path
  /-- The extensions of the files to look at. -/
  extensions : List String
  /-- Whether the report is to be JSON. -/
  json : Bool
  /-- The files and directories to look at. -/
  paths : List Path
deriving DecidableEq, Repr

/-- What the program can be asked to do. -/
inductive Command where
  | introspectionQuery
  | validate (request : ValidationRequest)
deriving DecidableEq, Repr

/-- What a command line asks for. -/
structure Invocation where
  verbose : Bool
  command : Option Command
deriving DecidableEq, Repr

namespace ValidationRequest

/-- The arguments of a request that take values. -/
inductive Slot where
  | schema
  | extensions
  | path
deriving DecidableEq, Repr

/-- A request that is being read. -/
structure Draft where
  request : ValidationRequest
  /-- The argument being read, with the values it has so far. -/
  pending : Option (Slot × List String)

/-- The extensions that are looked at if the user names none. -/
def defaultExtensions : List String := ["graphql", "gql"]

namespace Draft

/-- The draft before the first word. -/
def empty : Draft := ⟨⟨[], [], false, []⟩, none⟩

/-- Reads a path, which may not be empty. -/
def readPath (value : String) : Except UsageError Path :=
  if value = "" then .error .missingValue else .ok ⟨value⟩

/-- Adds complete values to a request. An option without a value is refused. -/
def addValues (r : ValidationRequest) (slot : Slot) (values : List String) :
    Except UsageError ValidationRequest :=
  if values = [] then .error .missingValue
  else
    match slot with
    | .schema => do return { r with schemas := r.schemas ++ (← values.mapM readPath) }
    | .path => do return { r with paths := r.paths ++ (← values.mapM readPath) }
    | .extensions =>
      .ok { r with extensions := r.extensions ++ values.flatMap fun v => v.splitOn "," }

/-- Completes the argument being read. -/
def settle (d : Draft) : Except UsageError ValidationRequest :=
  match d.pending with
  | none => .ok d.request
  | some (slot, values) => addValues d.request slot values

/-- Begins to read an option, whose value may be attached to it. -/
def beginOption (d : Draft) (slot : Slot) (value : Option String) : Except UsageError Draft := do
  let r ← d.settle
  match value with
  | none => return ⟨r, some (slot, [])⟩
  | some v => return ⟨← addValues r slot [v], none⟩

/-- Takes the flag that asks for JSON, which may be given once. -/
def takeJson (d : Draft) : Except UsageError Draft := do
  let r ← d.settle
  if r.json then throw .repeatedFlag
  return ⟨{ r with json := true }, none⟩

/-- Takes the flag that asks for help. -/
def takeHelp (d : Draft) : Except UsageError Draft := do
  let _ ← d.settle
  throw .helpRequested

/-- Takes a path. Paths that follow each other are read together. -/
def takePath (d : Draft) (text : String) : Except UsageError Draft :=
  match d.pending with
  | some (.path, values) => .ok { d with pending := some (.path, values ++ [text]) }
  | _ => do return ⟨← d.settle, some (.path, [text])⟩

/-- Takes a plain word: the value of the option before it if that still needs one, or a path. -/
def takePlain (d : Draft) (text : String) : Except UsageError Draft :=
  match d.pending with
  | some (slot, []) => .ok { d with pending := some (slot, [text]) }
  | _ => d.takePath text

/-- Takes a word that comes before any `--`. -/
def takeWord (d : Draft) : Word → Except UsageError Draft
  | .plain text => d.takePlain text
  | .long "schema" value => d.beginOption .schema value
  | .long "graphql-file-exts" value => d.beginOption .extensions value
  | .long "json" none => d.takeJson
  | .long "help" none => d.takeHelp
  | .long "json" (some _) => .error .unneededValue
  | .long "help" (some _) => .error .unneededValue
  | .long _ _ => .error .unknownArgument
  | .short 'h' _ => d.takeHelp
  | .short _ _ => .error .unknownArgument
  | .separator => .ok d

/-- Completes the request. -/
def finish (d : Draft) : Except UsageError ValidationRequest := do
  let r ← d.settle
  if r.schemas = [] || r.paths = [] then throw .missingRequired
  return { r with extensions := if r.extensions = [] then defaultExtensions else r.extensions }

/-- Reads the words that are left. -/
def read (d : Draft) : List String → Except UsageError ValidationRequest
  | [] => d.finish
  | w :: rest =>
    match Word.ofText w with
    | .separator => do (← rest.foldlM takePath d).finish
    | word => do read (← d.takeWord word) rest

end Draft

/-- Reads a request to validate documents. -/
def ofWords (words : List String) : Except UsageError ValidationRequest := Draft.empty.read words

end ValidationRequest

namespace Invocation

/-- The names that can stand for a command. -/
def commandNames : List String := ["introspection-query", "validate", "help"]

/-- Why nothing is done when help is asked for by a command: an unknown name, or help itself. -/
def helpOn : List String → UsageError
  | [] => .helpRequested
  | [name] => if commandNames.contains name then .helpRequested else .unknownCommand
  | _ => .unknownCommand

/-- Reads the arguments of a command that takes none but `--`. -/
def readNoArguments : List String → Except UsageError Unit
  | [] => .ok ()
  | w :: rest =>
    match Word.ofText w with
    | .separator => if rest = [] then .ok () else .error .unknownArgument
    | .long "help" none => .error .helpRequested
    | .long "help" (some _) => .error .unneededValue
    | .short 'h' _ => .error .helpRequested
    | _ => .error .unknownArgument

/-- Takes the flag for more output, which may be given once. -/
def takeVerbose (verbose : Bool) : Except UsageError Bool :=
  if verbose then .error .repeatedFlag else .ok true

/-- Reads the letters of short general options. -/
def readLetters (verbose : Bool) : List Char → Except UsageError Bool
  | [] => .ok verbose
  | 'v' :: rest => do readLetters (← takeVerbose verbose) rest
  | 'h' :: _ => .error .helpRequested
  | 'V' :: _ => .error .versionRequested
  | _ => .error .unknownArgument

/-- Reads a long general option. -/
def readLong (verbose : Bool) : String → Option String → Except UsageError Bool
  | "verbose", none => takeVerbose verbose
  | "help", none => .error .helpRequested
  | "version", none => .error .versionRequested
  | name, value =>
    if value.isSome && ["verbose", "help", "version"].contains name then .error .unneededValue
    else .error .unknownArgument

/-- Reads the name of a command and its arguments. -/
def readCommand (name : String) (rest : List String) : Except UsageError Command :=
  match name with
  | "introspection-query" => do
    readNoArguments rest
    return .introspectionQuery
  | "validate" => do return .validate (← ValidationRequest.ofWords rest)
  | "help" => .error (helpOn rest)
  | _ => .error .unknownCommand

/-- Reads what follows `--` where a command is expected. No command can stand there, and the
general options are over. -/
def readAfterSeparator (verbose : Bool) : List String → Except UsageError Invocation
  | [] => .ok ⟨verbose, none⟩
  | w :: _ => .error (if commandNames.contains w then .unknownArgument else .unknownCommand)

/-- Reads the words that are left, up to the name of a command. -/
def readWords (verbose : Bool) : List String → Except UsageError Invocation
  | [] => .ok ⟨verbose, none⟩
  | w :: rest =>
    match Word.ofText w with
    | .plain name => do return ⟨verbose, some (← readCommand name rest)⟩
    | .separator => readAfterSeparator verbose rest
    | .long name value => do readWords (← readLong verbose name value) rest
    | .short c cs => do readWords (← readLetters verbose (c :: cs)) rest

/-- Reads a command line, without the name of the program. -/
def ofWords (words : List String) : Except UsageError Invocation := readWords false words

end Invocation

end GraphQLCheck
