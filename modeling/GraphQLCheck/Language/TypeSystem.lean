import GraphQLCheck.Text.Position
import GraphQLCheck.Language.Value
import GraphQLCheck.Language.TypeExpr

/-!
# Type system documents

The tree of a type system document: schema blocks, definitions and extensions of types, and
directive definitions. The directives that such a document applies are read and dropped. A
definition is located at its keyword and an extension at the keyword after `extend`; a field, an
argument, an input field and an enum value are located at their description if they have one.
-/

namespace GraphQLCheck

/-- The six kinds of type. -/
inductive TypeKind where
  | scalar
  | object
  | interface
  | union
  | enum
  | inputObject
deriving DecidableEq, Repr, Inhabited

namespace TypeKind

/-- The word for a kind in messages. -/
def label : TypeKind → String
  | scalar => "scalar"
  | object => "object"
  | interface => "interface"
  | union => "union"
  | enum => "enum"
  | inputObject => "input object"

/-- The kind that a keyword begins the definition of. -/
def ofKeyword? : String → Option TypeKind
  | "scalar" => some scalar
  | "type" => some object
  | "interface" => some interface
  | "union" => some union
  | "enum" => some enum
  | "input" => some inputObject
  | _ => none

end TypeKind

namespace TypeSystem

/-- An argument of a field or a directive, or a field of an input object. -/
structure InputValue where
  position : Position
  description : Option String
  name : String
  type : TypeExpr
  defaultValue : Option Value

/-- A field of an object or an interface. -/
structure Field where
  position : Position
  description : Option String
  name : String
  arguments : List InputValue
  type : TypeExpr

/-- A value of an enum. -/
structure EnumValue where
  position : Position
  description : Option String
  name : String

/-- What a type definition or extension writes after the name, by kind of type. -/
inductive Body where
  | scalar
  | object (interfaces : List String) (fields : List Field)
  | interface (interfaces : List String) (fields : List Field)
  | union (members : List String)
  | enum (values : List EnumValue)
  | inputObject (fields : List InputValue)

/-- The kind of type a body belongs to. -/
def Body.kind : Body → TypeKind
  | .scalar => .scalar
  | .object .. => .object
  | .interface .. => .interface
  | .union .. => .union
  | .enum .. => .enum
  | .inputObject .. => .inputObject

/-- The definition of a type. -/
structure TypeDefinition where
  position : Position
  description : Option String
  name : String
  body : Body

/-- The extension of a type. -/
structure TypeExtension where
  position : Position
  name : String
  body : Body

/-- The places at which a directive may be used. -/
inductive DirectiveLocation where
  | query
  | mutation
  | subscription
  | field
  | fragmentDefinition
  | fragmentSpread
  | inlineFragment
  | variableDefinition
  | schema
  | scalar
  | object
  | fieldDefinition
  | argumentDefinition
  | interface
  | union
  | enum
  | enumValue
  | inputObject
  | inputFieldDefinition
deriving DecidableEq, Repr, Inhabited

namespace DirectiveLocation

/-- Every location, in the order in which introspection lists them. -/
def all : List DirectiveLocation :=
  [query, mutation, subscription, field, fragmentDefinition, fragmentSpread, inlineFragment,
    variableDefinition, schema, scalar, object, fieldDefinition, argumentDefinition, interface,
    union, enum, enumValue, inputObject, inputFieldDefinition]

/-- The name of a location. -/
def name : DirectiveLocation → String
  | query => "QUERY"
  | mutation => "MUTATION"
  | subscription => "SUBSCRIPTION"
  | field => "FIELD"
  | fragmentDefinition => "FRAGMENT_DEFINITION"
  | fragmentSpread => "FRAGMENT_SPREAD"
  | inlineFragment => "INLINE_FRAGMENT"
  | variableDefinition => "VARIABLE_DEFINITION"
  | schema => "SCHEMA"
  | scalar => "SCALAR"
  | object => "OBJECT"
  | fieldDefinition => "FIELD_DEFINITION"
  | argumentDefinition => "ARGUMENT_DEFINITION"
  | interface => "INTERFACE"
  | union => "UNION"
  | enum => "ENUM"
  | enumValue => "ENUM_VALUE"
  | inputObject => "INPUT_OBJECT"
  | inputFieldDefinition => "INPUT_FIELD_DEFINITION"

/-- The location of a name. -/
def ofName? (name : String) : Option DirectiveLocation := all.find? (·.name = name)

end DirectiveLocation

/-- The definition of a directive. -/
structure DirectiveDefinition where
  position : Position
  description : Option String
  name : String
  arguments : List InputValue
  locations : List DirectiveLocation

/-- A schema block: the types it names as roots of the three kinds of operation. -/
structure SchemaBlock where
  position : Position
  query : Option String
  mutation : Option String
  subscription : Option String

/-- A definition of a type system document. -/
inductive Definition where
  | schema (d : SchemaBlock)
  | type (d : TypeDefinition)
  | extension (d : TypeExtension)
  | directive (d : DirectiveDefinition)

/-- A type system document. -/
structure Document where
  definitions : List Definition

end TypeSystem

end GraphQLCheck
