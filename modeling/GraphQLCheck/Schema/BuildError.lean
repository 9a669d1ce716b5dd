import GraphQLCheck.Files.FileSystem
import GraphQLCheck.Language.Document
import GraphQLCheck.Schema.ReferenceError

/-!
# Errors of building a schema

Why a source cannot be loaded or a schema cannot be built, with the locations of what is at fault.
Where two definitions are in conflict, the one loaded first comes first.
-/

namespace GraphQLCheck

/-- The type that a schema block names as a root, and where the block is. -/
structure RootDeclaration where
  type : String
  location : SourceLocation
deriving DecidableEq, Repr, Inhabited

/-- Why a source cannot be loaded or a schema cannot be built. -/
inductive BuildError where
  | duplicateDirective (directive : String) (first second : SourceLocation)
  | duplicateEnumValue (enum value : String) (first second : SourceLocation)
  | duplicateField (type field : String) (first second : SourceLocation)
  | duplicateInterface (type interface : String) (location : SourceLocation)
  | duplicateRoot (kind : OperationKind) (first second : RootDeclaration)
  | duplicateType (type : String) (first second : SourceLocation)
  | duplicateMember (union member : String) (first second : SourceLocation)
  | extensionOfBuiltIn (type : String) (location : SourceLocation)
  | extensionOfUndefined (type : String) (location : SourceLocation)
  | extensionOfOtherKind (type : String) (extensionKind typeKind : TypeKind)
      (location : SourceLocation)
  | reservedDirectiveName (directive : String) (location : SourceLocation)
  | reservedFieldName (type field : String) (location : SourceLocation)
  | reservedParameterName (type field parameter : String) (location : SourceLocation)
  | reservedTypeName (type : String) (location : SourceLocation)
  | invalidRoot (kind : OperationKind) (type : String) (location : SourceLocation)
  | selfImplementation (type : String) (location : SourceLocation)
  | noQueryType
  | sharedRoot (type : String) (firstKind secondKind : OperationKind)
      (first second : SourceLocation)
  | unreadableSource (path : Path) (place : Position)
  | builtInDirective (directive : String) (location : SourceLocation)
  | unreadableFile (error : ReadError)
  | badReferences (errors : List ReferenceError)

namespace BuildError

/-- The name of the kind of error. -/
def label : BuildError → String
  | duplicateDirective .. => "DuplicateDirectiveDefinition"
  | duplicateEnumValue .. => "DuplicateEnumValueDefinition"
  | duplicateField .. => "DuplicateFieldNameDefinition"
  | duplicateInterface .. => "DuplicateInterfaceImplementsDeclaration"
  | duplicateRoot .. => "DuplicateOperationDefinition"
  | duplicateType .. => "DuplicateTypeDefinition"
  | duplicateMember .. => "DuplicatedUnionMember"
  | extensionOfBuiltIn .. => "ExtensionOfBuiltinType"
  | extensionOfUndefined .. => "ExtensionOfUndefinedType"
  | extensionOfOtherKind .. => "InvalidExtensionType"
  | reservedDirectiveName .. => "InvalidDunderPrefixedDirectiveName"
  | reservedFieldName .. => "InvalidDunderPrefixedFieldName"
  | reservedParameterName .. => "InvalidDunderPrefixedParamName"
  | reservedTypeName .. => "InvalidDunderPrefixedTypeName"
  | invalidRoot .. => "InvalidRootOperationType"
  | selfImplementation .. => "InvalidSelfImplementingType"
  | noQueryType => "NoQueryOperationTypeDefined"
  | sharedRoot .. => "NonUniqueOperationTypes"
  | unreadableSource .. => "ParseError"
  | builtInDirective .. => "RedefinitionOfBuiltinDirective"
  | unreadableFile .. => "SchemaFileReadError"
  | badReferences .. => "TypeValidationErrors"

/-- The locations of what is at fault. -/
def locations : BuildError → List SourceLocation
  | duplicateDirective _ first second => [first, second]
  | duplicateEnumValue _ _ first second => [first, second]
  | duplicateField _ _ first second => [first, second]
  | duplicateInterface _ _ location => [location]
  | duplicateRoot _ first second => [first.location, second.location]
  | duplicateType _ first second => [first, second]
  | duplicateMember _ _ first second => [first, second]
  | extensionOfBuiltIn _ location => [location]
  | extensionOfUndefined _ location => [location]
  | extensionOfOtherKind _ _ _ location => [location]
  | reservedDirectiveName _ location => [location]
  | reservedFieldName _ _ location => [location]
  | reservedParameterName _ _ _ location => [location]
  | reservedTypeName _ location => [location]
  | invalidRoot _ _ location => [location]
  | selfImplementation _ location => [location]
  | noQueryType => []
  | sharedRoot _ _ _ first second => [first, second]
  | unreadableSource path place => [.written path place]
  | builtInDirective _ location => [location]
  | unreadableFile _ => []
  | badReferences errors => errors.map (·.location)

/-- The message of an error. -/
def message : BuildError → String
  | duplicateDirective directive _ _ =>
    s!"The `@{directive}` directive is defined more than once"
  | duplicateEnumValue enum value _ _ =>
    s!"The `{enum}` enum defines the `{value}` value more than once"
  | duplicateField type field _ _ =>
    s!"The `{type}` type defines the `{field}` field more than once"
  | duplicateInterface type interface _ =>
    s!"The `{type}` type declares that it implements the `{interface}` interface more than once"
  | duplicateRoot kind _ _ =>
    s!"The {kind.name} root operation type is declared more than once"
  | duplicateType type _ _ => s!"Multiple GraphQL types named `{type}` were defined"
  | duplicateMember union member _ _ =>
    s!"The `{union}` union lists `{member}` as a member more than once"
  | extensionOfBuiltIn type _ => s!"The built-in `{type}` scalar can not be extended"
  | extensionOfUndefined type _ =>
    s!"Attempted to extend `{type}`, but no type with that name is defined"
  | extensionOfOtherKind type extensionKind typeKind _ =>
    s!"Attempted to extend `{type}` with {extensionKind.label} extension, but `{type}` is " ++
      s!"{typeKind.label} type"
  | reservedDirectiveName directive _ =>
    s!"Custom directive names must not start with `__`: `@{directive}`"
  | reservedFieldName type field _ =>
    s!"Field names must not start with `__`: `{type}.{field}`"
  | reservedParameterName type field parameter _ =>
    s!"Parameter names must not start with `__`: `{parameter}` on `{type}.{field}`"
  | reservedTypeName type _ => s!"Type names must not start with `__`: `{type}`"
  | invalidRoot kind type _ =>
    s!"The {kind.name} root operation type is declared as `{type}`, but `{type}` is not a " ++
      "defined object type"
  | selfImplementation type _ =>
    s!"Types may not declare that they implement themselves: The `{type}` type does just that"
  | noQueryType => "Attempted to build a schema that has no Query operation type defined"
  | sharedRoot type firstKind secondKind _ _ =>
    s!"The {firstKind.name} and {secondKind.name} root operations are both defined with the " ++
      s!"`{type}` type, but this is not allowed in GraphQL. All root operations must be defined " ++
      "with different types."
  | unreadableSource path place =>
    s!"Error parsing schema source `{path.text}`: schema parse error: Parse error at {place.text}"
  | builtInDirective directive _ =>
    s!"Attempted to redefine the built-in `@{directive}` directive"
  | unreadableFile error =>
    s!"Failure while trying to read a schema file from disk: {error.message}"
  | badReferences errors =>
    "Encountered the following type-validation errors while building the schema:\n\n" ++
      String.intercalate "\n" (errors.map fun e => s!"  * {e.message}")

end BuildError

end GraphQLCheck
