import GraphQLCheck.Language.TypeSystem
import GraphQLCheck.Files.Path

/-!
# The introspection types

The types through which a schema describes itself. Every schema defines them. They are given as
definitions of a source with a path of its own, laid out with one member per line: a type begins
at the first column of a line, and its members follow on the next lines at the third column.
-/

namespace GraphQLCheck

namespace Introspection

/-- The path of the source of the introspection types. Only this source may define types whose
names begin with two underscores. -/
def path : Path := ⟨"graphql://introspection-types"⟩

/-- A field before it has a place: its name, its type, and whether it takes the argument
`includeDeprecated`. -/
structure Signature where
  name : String
  type : TypeExpr
  hasFlag : Bool

/-- A field without arguments. -/
def plain (name : String) (type : TypeExpr) : Signature := ⟨name, type, false⟩

/-- A field that leaves deprecated members out unless it is asked for them. -/
def flagged (name : String) (type : TypeExpr) : Signature := ⟨name, type, true⟩

/-- The type that is the name of a type. -/
def named (name : String) : TypeExpr := .named name

/-- The type `T!`. -/
def required (name : String) : TypeExpr := .nonNull (.named name)

/-- The type `[T!]`. -/
def listOf (name : String) : TypeExpr := .list (required name)

/-- The type `[T!]!`. -/
def requiredListOf (name : String) : TypeExpr := .nonNull (listOf name)

/-- The argument `includeDeprecated` of a field on a line, right behind the opening parenthesis
after the name of the field. -/
def flagArgument (line : Nat) (fieldName : String) : TypeSystem.InputValue where
  position := ⟨line, fieldName.length + 4⟩
  description := none
  name := "includeDeprecated"
  type := named "Boolean"
  defaultValue := some (.boolean false)

/-- A field on a line. -/
def fieldAt (line : Nat) (s : Signature) : TypeSystem.Field where
  position := ⟨line, 3⟩
  description := none
  name := s.name
  arguments := if s.hasFlag then [flagArgument line s.name] else []
  type := s.type

/-- The fields on the lines from `line` on. -/
def fieldsAt (line : Nat) : List Signature → List TypeSystem.Field
  | [] => []
  | s :: rest => fieldAt line s :: fieldsAt (line + 1) rest

/-- The enum values on the lines from `line` on. -/
def valuesAt (line : Nat) : List String → List TypeSystem.EnumValue
  | [] => []
  | s :: rest => ⟨⟨line, 3⟩, none, s⟩ :: valuesAt (line + 1) rest

/-- The definition of an object that begins on a line. -/
def objectAt (line : Nat) (name : String) (fields : List Signature) : TypeSystem.TypeDefinition :=
  ⟨⟨line, 1⟩, none, name, .object [] (fieldsAt (line + 1) fields)⟩

/-- The definition of an enum that begins on a line. -/
def enumAt (line : Nat) (name : String) (values : List String) : TypeSystem.TypeDefinition :=
  ⟨⟨line, 1⟩, none, name, .enum (valuesAt (line + 1) values)⟩

/-- The definitions of the introspection types. -/
def typeDefinitions : List TypeSystem.TypeDefinition :=
  [objectAt 2 "__Schema"
      [plain "description" (named "String"),
        plain "types" (requiredListOf "__Type"),
        plain "queryType" (required "__Type"),
        plain "mutationType" (named "__Type"),
        plain "subscriptionType" (named "__Type"),
        plain "directives" (requiredListOf "__Directive")],
    objectAt 11 "__Type"
      [plain "kind" (required "__TypeKind"),
        plain "name" (named "String"),
        plain "description" (named "String"),
        flagged "fields" (listOf "__Field"),
        plain "interfaces" (listOf "__Type"),
        plain "possibleTypes" (listOf "__Type"),
        flagged "enumValues" (listOf "__EnumValue"),
        plain "inputFields" (listOf "__InputValue"),
        plain "ofType" (named "__Type"),
        plain "specifiedByURL" (named "String")],
    enumAt 24 "__TypeKind"
      ["SCALAR", "OBJECT", "INTERFACE", "UNION", "ENUM", "INPUT_OBJECT", "LIST", "NON_NULL"],
    objectAt 35 "__Field"
      [plain "name" (required "String"),
        plain "description" (named "String"),
        plain "args" (requiredListOf "__InputValue"),
        plain "type" (required "__Type"),
        plain "isDeprecated" (required "Boolean"),
        plain "deprecationReason" (named "String")],
    objectAt 44 "__InputValue"
      [plain "name" (required "String"),
        plain "description" (named "String"),
        plain "type" (required "__Type"),
        plain "defaultValue" (named "String")],
    objectAt 51 "__EnumValue"
      [plain "name" (required "String"),
        plain "description" (named "String"),
        plain "isDeprecated" (required "Boolean"),
        plain "deprecationReason" (named "String")],
    objectAt 58 "__Directive"
      [plain "name" (required "String"),
        plain "description" (named "String"),
        plain "locations" (requiredListOf "__DirectiveLocation"),
        plain "args" (requiredListOf "__InputValue"),
        plain "isRepeatable" (required "Boolean")],
    enumAt 66 "__DirectiveLocation"
      (TypeSystem.DirectiveLocation.all.map TypeSystem.DirectiveLocation.name)]

/-- The definitions of the source of the introspection types. -/
def definitions : List TypeSystem.Definition := typeDefinitions.map .type

end Introspection

end GraphQLCheck
