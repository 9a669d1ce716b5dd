import GraphQLCheck.Language.Reading.TypeSystem
import GraphQLCheck.Schema.Basic
import GraphQLCheck.Schema.Members

/-!
# Building schemas

A `Builder` takes the definitions of one source after the other. An extension is merged into its
type at once if the type is there, and else kept until all sources are in. `Builder.build` adds the
introspection types and the built-in directives, merges the extensions that were kept, kind by
kind, checks the references between types, and finds the root types.
-/

namespace GraphQLCheck

/-- What has been loaded so far. -/
structure Builder where
  types : TypeMap
  directives : OrderedMap DirectiveDef
  /-- The extensions of types that were not there yet, in load order. -/
  pending : List (Path × TypeSystem.TypeExtension)
  query : Option RootDeclaration
  mutation : Option RootDeclaration
  subscription : Option RootDeclaration
  /-- The number of the next source without a path, which starts again from zero after 65535. -/
  nextUnnamed : UInt16

namespace Builder

/-- The builder that nothing has been loaded into. -/
def empty : Builder where
  types := .ofList (BuiltInScalar.all.map fun s => (s.name, .builtIn s))
  directives := .empty
  pending := []
  query := none
  mutation := none
  subscription := none
  nextUnnamed := 0

/-- The declared root of a kind of operation. -/
def root? (b : Builder) : OperationKind → Option RootDeclaration
  | .query => b.query
  | .mutation => b.mutation
  | .subscription => b.subscription

/-- Sets the declared root of a kind of operation. -/
def setRoot (b : Builder) (kind : OperationKind) (r : RootDeclaration) : Builder :=
  match kind with
  | .query => { b with query := some r }
  | .mutation => { b with mutation := some r }
  | .subscription => { b with subscription := some r }

/-- Declares a root, which may be declared only once. -/
def declareRoot (b : Builder) (kind : OperationKind) (r : RootDeclaration) :
    Except BuildError Builder :=
  match b.root? kind with
  | some first => .error (.duplicateRoot kind first r)
  | none => .ok (b.setRoot kind r)

/-- Declares the root of a kind of operation that a schema block at `location` names, if it names
one. -/
def declareNamedRoot (location : SourceLocation) (b : Builder)
    (entry : OperationKind × Option String) : Except BuildError Builder :=
  match entry.2 with
  | none => .ok b
  | some type => b.declareRoot entry.1 ⟨type, location⟩

/-- Checks that two kinds of operation are not declared to have the same root. -/
def checkDistinctRoots (b : Builder) (first second : OperationKind) : Except BuildError Unit :=
  match b.root? first, b.root? second with
  | some r, some s =>
    if r.type = s.type then .error (.sharedRoot r.type first second r.location s.location)
    else .ok ()
  | _, _ => .ok ()

/-- Takes a schema block. -/
def addSchemaBlock (b : Builder) (path : Path) (d : TypeSystem.SchemaBlock) :
    Except BuildError Builder := do
  let roots := [(.query, d.query), (.mutation, d.mutation), (.subscription, d.subscription)]
  let b ← roots.foldlM (declareNamedRoot (.written path d.position)) b
  b.checkDistinctRoots .query .mutation
  b.checkDistinctRoots .query .subscription
  b.checkDistinctRoots .mutation .subscription
  return b

/-- Takes the definition of a directive. -/
def addDirective (b : Builder) (path : Path) (d : TypeSystem.DirectiveDefinition) :
    Except BuildError Builder := do
  let location := .written path d.position
  if DirectiveDef.builtIns.any (·.name = d.name) then throw (.builtInDirective d.name location)
  if isReservedName d.name then throw (.reservedDirectiveName d.name location)
  match b.directives.get? d.name with
  | some first => throw (.duplicateDirective d.name first.location location)
  | none =>
    let parameters := .ofList (d.arguments.map fun v => (v.name, InputDef.ofWritten path v))
    let directive := ⟨d.name, location, d.description, d.locations, parameters⟩
    return { b with directives := b.directives.insert d.name directive }

/-- Takes the definition of a type. -/
def addType (b : Builder) (path : Path) (d : TypeSystem.TypeDefinition) :
    Except BuildError Builder := do
  let t ← NamedType.ofDefinition path d
  match b.types.get? d.name with
  | some first => throw (.duplicateType d.name first.location t.location)
  | none => return { b with types := b.types.insert d.name t }

/-- Takes the extension of a type, which may come before the type. -/
def addExtension (b : Builder) (path : Path) (e : TypeSystem.TypeExtension) :
    Except BuildError Builder :=
  match b.types.get? e.name with
  | some t => do return { b with types := b.types.insert e.name (← t.extend path e) }
  | none => .ok { b with pending := b.pending ++ [(path, e)] }

/-- Takes one definition of the source at `path`. -/
def addDefinition (path : Path) (b : Builder) :
    TypeSystem.Definition → Except BuildError Builder
  | .schema d => b.addSchemaBlock path d
  | .type d => b.addType path d
  | .extension e => b.addExtension path e
  | .directive d => b.addDirective path d

/-- Takes the definitions of the source at `path`, in written order. -/
def addDefinitions (b : Builder) (path : Path) (ds : List TypeSystem.Definition) :
    Except BuildError Builder :=
  ds.foldlM (addDefinition path) b

/-- The path of a source that has none of its own, by number. -/
def unnamedPath (n : UInt16) : Path := ⟨s!"str://{n.toNat}"⟩

/-- Takes the path of a source, or the next path for sources without one. -/
def takePath (b : Builder) : Option Path → Path × Builder
  | some path => (path, b)
  | none => (unnamedPath b.nextUnnamed, { b with nextUnnamed := b.nextUnnamed + 1 })

/-- Loads a source. -/
def load (b : Builder) (path : Option Path) (source : String) : Except BuildError Builder :=
  let (path, b) := b.takePath path
  match TypeSystem.Document.read source with
  | .error place => .error (.unreadableSource path place)
  | .ok doc => b.addDefinitions path doc.definitions

/-- Loads the file at a path. -/
def loadFile (fs : FileSystem) (b : Builder) (path : Path) : Except BuildError Builder :=
  match fs.readText path with
  | .error e => .error (.unreadableFile e)
  | .ok source => b.load (some path) source

/-- Loads the files at some paths, one after the other. -/
def loadFiles (fs : FileSystem) (b : Builder) (paths : List Path) : Except BuildError Builder :=
  paths.foldlM (loadFile fs) b

/-- Merges an extension into its type, which must be there by now. -/
def mergePending (types : TypeMap) (entry : Path × TypeSystem.TypeExtension) :
    Except BuildError TypeMap :=
  let (path, e) := entry
  match types.get? e.name with
  | some t => do return types.insert e.name (← t.extend path e)
  | none => .error (.extensionOfUndefined e.name (.written path e.position))

/-- The order of the kinds in which the extensions that were kept are merged. -/
def mergeOrder : List TypeKind := [.enum, .inputObject, .interface, .object, .scalar, .union]

/-- The extensions that were kept, kind by kind, and within a kind in load order. -/
def orderedPending (b : Builder) : List (Path × TypeSystem.TypeExtension) :=
  mergeOrder.flatMap fun kind => b.pending.filter fun entry => entry.2.body.kind = kind

/-- Adds the built-in directives. -/
def withBuiltInDirectives (directives : OrderedMap DirectiveDef) : OrderedMap DirectiveDef :=
  DirectiveDef.builtIns.foldl
    (fun m d => if m.contains d.name then m else m.insert d.name d) directives

/-- The root type of a kind of operation: the declared one, which must be an object, or else the
object with the default name, if there is one. -/
def resolveRoot (types : TypeMap) (kind : OperationKind) (declared : Option RootDeclaration) :
    Except BuildError (Option TypeReference) :=
  match declared with
  | some r =>
    match types.get? r.type with
    | some (.object _) => .ok (some ⟨r.type, r.location⟩)
    | _ => .error (.invalidRoot kind r.type r.location)
  | none =>
    match types.get? kind.defaultTypeName with
    | some (.object t) => .ok (some ⟨kind.defaultTypeName, t.location⟩)
    | _ => .ok none

/-- Builds the schema of what has been loaded. -/
def build (b : Builder) : Except BuildError Schema := do
  let b ← b.addDefinitions Introspection.path Introspection.definitions
  let types ← b.orderedPending.foldlM mergePending b.types
  let errors := types.referenceErrors
  if errors ≠ [] then throw (.badReferences errors)
  let some query ← resolveRoot types .query b.query | throw .noQueryType
  let mutation ← resolveRoot types .mutation b.mutation
  let subscription ← resolveRoot types .subscription b.subscription
  return ⟨types, withBuiltInDirectives b.directives, query, mutation, subscription⟩

end Builder

/-- The schema that the files at some paths make up. -/
def Schema.ofFiles (fs : FileSystem) (paths : List Path) : Except BuildError Schema := do
  (← Builder.empty.loadFiles fs paths).build

end GraphQLCheck
